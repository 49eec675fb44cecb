/-
GrammarInference/Proofs/Trace/Longest.lean

A longest increasing subsequence is longest.

Design.  After each value, the chain of every length ends no later than any other increasing subsequence of that
length (`IsBest`).  A new value only moves ends down: it goes behind the chains that end below it, so a subsequence
that ends in it has such a chain for what stands before it.  From this come two facts about positions.  A set of
positions whose values increase is no larger than the one that is found, and a position that is left out conflicts
with one that is not (`exists_conflict`).
-/
import Mathlib.Data.List.Perm.Subperm
import GrammarInference.Proofs.Trace.Increasing

namespace GrammarInference

variable {α : Type} [LT α] [DecidableLT α]

/-! ### Chains -/

/-- The new value goes behind the last of the chains that end below it, in place of the first that does not. -/
theorem getElem?_extendChains (i : Nat) (v : α) (before : Chain α) (chains : List (Chain α)) :
    ∃ k last, (∀ m c, m < k → chains[m]? = some c → c.endsBelow v = true) ∧ k ≤ chains.length ∧
      (∀ c, chains[k]? = some c → c.endsBelow v = false) ∧ (before :: chains)[k]? = some last ∧
      ∀ m, (extendChains i v before chains)[m]? = if m = k then some ((i, v) :: last) else chains[m]? := by
  induction chains generalizing before with
  | nil =>
    refine ⟨0, before, fun m _ hm => absurd hm (Nat.not_lt_zero m), Nat.le_refl _, ?_, rfl, fun m => ?_⟩
    · intro c hc
      cases hc
    · cases m <;> rfl
  | cons d chains ih =>
    rw [extendChains]
    cases hd : d.endsBelow v with
    | false =>
      refine ⟨0, before, fun m _ hm => absurd hm (Nat.not_lt_zero m), Nat.zero_le _, ?_, rfl, fun m => ?_⟩
      · rintro c ⟨⟩
        exact hd
      · cases m <;> rfl
    | true =>
      obtain ⟨k, last, hbelow, hk, hrest, hlast, hget⟩ := ih d
      refine ⟨k + 1, last, fun m c hm hc => ?_, Nat.succ_le_succ hk, hrest, hlast, fun m => ?_⟩
      · cases m with
        | zero =>
          cases hc
          exact hd
        | succ m => exact hbelow m c (Nat.lt_of_succ_lt_succ hm) hc
      · cases m with
        | zero => rfl
        | succ m =>
          simp only [if_true, List.getElem?_cons_succ, hget m, Nat.add_right_cancel_iff]

omit [DecidableLT α] in
/-- An increasing subsequence of one more value either was one before, or ends in it. -/
theorem IsRun.of_append {done : List (α × Nat)} {v : α} {i : Nat} {c : Chain α}
    (h : IsRun (done ++ [(v, i)]) c) :
    IsRun done c ∨ ∃ rest, c = (i, v) :: rest ∧ IsRun done rest ∧ ∀ b ∈ rest, b.2 < v := by
  obtain ⟨l, l', heq, hl, hl'⟩ := List.sublist_append_iff.mp h.sublist
  rcases List.sublist_singleton.mp hl' with rfl | rfl
  · rw [List.append_nil] at heq
    exact .inl ⟨h.decreasing, heq ▸ hl⟩
  · right
    have hc : c.map Prod.swap = (v, i) :: l.reverse := by
      rw [← List.reverse_reverse (c.map Prod.swap), heq, List.reverse_append]
      rfl
    cases c with
    | nil => cases hc
    | cons a rest =>
      rw [List.map_cons, List.cons.injEq] at hc
      obtain ⟨ha, hrest⟩ := hc
      obtain rfl : a = (i, v) := by rw [← Prod.swap_swap a, ha]; rfl
      obtain ⟨hlast, hpairs⟩ := List.pairwise_cons.mp h.decreasing
      refine ⟨rest, rfl, ⟨hpairs, ?_⟩, hlast⟩
      rw [hrest, List.reverse_reverse]
      exact hl

/-- What ends below a value does so without its last element too. -/
theorem Chain.endsBelow_of_cons [StrictOrder α] {done : List (α × Nat)} {a : Nat × α} {c : Chain α}
    (h : IsRun done (a :: c)) {v : α} (hv : Chain.endsBelow (a :: c) v = true) : c.endsBelow v = true := by
  cases c with
  | nil => rfl
  | cons b c =>
    have hba : b.2 < a.2 := (List.pairwise_cons.mp h.decreasing).1 b List.mem_cons_self
    exact decide_eq_true (StrictOrder.trans hba (of_decide_eq_true hv))

omit [DecidableLT α] in
theorem IsRun.tail {done : List (α × Nat)} {a : Nat × α} {c : Chain α} (h : IsRun done (a :: c)) : IsRun done c where
  decreasing := (List.pairwise_cons.mp h.decreasing).2
  sublist := by
    have hsub := h.sublist
    rw [List.map_cons, List.reverse_cons] at hsub
    exact (List.sublist_append_left _ _).trans hsub

/-- A chain that does not end below a value ends below no less than what ends in that value. -/
theorem Chain.endsBelow_of_not [StrictOrder α] {b c : Chain α} {i : Nat} {u v : α} (hv : b.endsBelow v = false)
    (hu : b.endsBelow u = true) : Chain.endsBelow ((i, v) :: c) u = true := by
  cases b with
  | nil => cases hv
  | cons e b =>
    have hev : ¬e.2 < v := of_decide_eq_false hv
    have heu : e.2 < u := of_decide_eq_true hu
    refine decide_eq_true (show v < u from ?_)
    by_cases hve : v < e.2
    · exact StrictOrder.trans hve heu
    · rwa [StrictOrder.connex hev hve] at heu

theorem Chain.endsBelow_of_forall {c : Chain α} {v : α} (h : ∀ b ∈ c, b.2 < v) : c.endsBelow v = true := by
  cases c with
  | nil => rfl
  | cons e c => exact decide_eq_true (h e List.mem_cons_self)

theorem Chain.endsBelow_trans [StrictOrder α] {b : Chain α} {u v : α} (hv : b.endsBelow v = true) (hvu : v < u) :
    b.endsBelow u = true := by
  cases b with
  | nil => rfl
  | cons e b => exact decide_eq_true (StrictOrder.trans (of_decide_eq_true hv) hvu)

/-- The chains are the best ones for the values so far: increasing subsequences of the lengths from one on, each of
which ends no later than any other of its length. -/
structure IsBest (done : List (α × Nat)) (chains : List (Chain α)) : Prop where
  /-- They are increasing subsequences. -/
  runs : ∀ c ∈ chains, IsRun done c
  /-- They have the lengths from one on. -/
  length_eq : ∀ (m : Nat) (c : Chain α), chains[m]? = some c → c.length = m + 1
  /-- None of the same length ends earlier. -/
  best : ∀ (c : Chain α) (m : Nat), IsRun done c → c.length = m + 1 →
    ∃ b, chains[m]? = some b ∧ ∀ v, c.endsBelow v = true → b.endsBelow v = true

/-- Shorter chains end earlier. -/
theorem IsBest.endsBelow_of_le [StrictOrder α] {done : List (α × Nat)} {chains : List (Chain α)}
    (h : IsBest done chains) {m k : Nat} {c : Chain α} (hc : chains[m + k]? = some c) {v : α}
    (hv : c.endsBelow v = true) : ∃ b, chains[m]? = some b ∧ b.endsBelow v = true := by
  have hrun := h.runs c (List.mem_of_getElem? hc)
  have hlength := h.length_eq _ c hc
  clear hc
  induction k generalizing c with
  | zero =>
    obtain ⟨b, hb, hends⟩ := h.best c m hrun hlength
    exact ⟨b, hb, hends v hv⟩
  | succ k ih =>
    cases c with
    | nil => cases hlength
    | cons a c => exact ih (Chain.endsBelow_of_cons hrun hv) hrun.tail (Nat.succ.inj hlength)

/-- Where the chain at a place does not end below a value, no longer subsequence does. -/
theorem IsBest.length_le_of_endsBelow [StrictOrder α] {done : List (α × Nat)} {chains : List (Chain α)}
    (h : IsBest done chains) {k : Nat} {v : α} (hk : ∀ c, chains[k]? = some c → c.endsBelow v = false)
    {c : Chain α} (hc : IsRun done c) (hv : c.endsBelow v = true) : c.length ≤ k := by
  by_contra hgt
  obtain ⟨j, hj⟩ : ∃ j, c.length = k + j + 1 := ⟨c.length - k - 1, by omega⟩
  obtain ⟨b, hb, hends⟩ := h.best c (k + j) hc hj
  obtain ⟨d, hd, hdv⟩ := h.endsBelow_of_le hb (hends v hv)
  rw [hk d hd] at hdv
  cases hdv

/-- A new value keeps the chains best. -/
theorem IsBest.extend [StrictOrder α] {done : List (α × Nat)} {chains : List (Chain α)} (h : IsBest done chains)
    (v : α) (i : Nat) : IsBest (done ++ [(v, i)]) (extendChains i v [] chains) := by
  have hruns := isRun_of_mem_extendChains (i := i) (v := v) (isRun_nil done) rfl h.runs
  obtain ⟨k, last, hbelow, hk, hrest, hlast, hget⟩ := getElem?_extendChains i v [] chains
  -- the chain behind which the value goes is one element shorter
  have hlength : last.length = k := by
    cases k with
    | zero =>
      cases hlast
      rfl
    | succ k => exact h.length_eq k last hlast
  -- whatever ends below the value stands among the chains that do
  have hlt : ∀ m c, chains[m]? = some c → c.endsBelow v = true → m < k := by
    intro m c hc hv
    have hle := h.length_le_of_endsBelow hrest (h.runs c (List.mem_of_getElem? hc)) hv
    rwa [h.length_eq m c hc] at hle
  refine ⟨hruns, fun m c hc => ?_, fun c m hc hm => ?_⟩
  · rw [hget] at hc
    split at hc
    · rename_i heq
      cases hc
      rw [List.length_cons, hlength, heq]
    · exact h.length_eq m c hc
  · rw [hget]
    rcases hc.of_append with hold | ⟨c', rfl, hold, hbelowv⟩
    · -- an old subsequence; if its chain gave way, it does not end below the value
      obtain ⟨b, hb, hends⟩ := h.best c m hold hm
      split
      · rename_i heq
        refine ⟨_, rfl, fun u hu => Chain.endsBelow_of_not ?_ (hends u hu)⟩
        exact Bool.eq_false_iff.mpr fun hbv => absurd (hlt m b hb hbv) (heq ▸ Nat.lt_irrefl m)
      · exact ⟨b, hb, hends⟩
    · -- a new one: what stands before the value ends below it
      have hle : m ≤ k := Nat.succ.inj hm ▸ h.length_le_of_endsBelow hrest hold (Chain.endsBelow_of_forall hbelowv)
      split
      · exact ⟨_, rfl, fun u hu => hu⟩
      · rename_i hne
        have hmk : m < k := Nat.lt_of_le_of_ne hle hne
        obtain ⟨b, hb⟩ : ∃ b, chains[m]? = some b := ⟨_, List.getElem?_eq_getElem (Nat.lt_of_lt_of_le hmk hk)⟩
        exact ⟨b, hb, fun u hu => Chain.endsBelow_trans (hbelow m b hmk hb) (of_decide_eq_true hu)⟩

theorem isBest_bestChains [StrictOrder α] (values : List (α × Nat)) : IsBest values (bestChains values) := by
  have hfold : ∀ (rest done : List (α × Nat)) (chains : List (Chain α)), IsBest done chains →
      IsBest (done ++ rest) (rest.foldl (fun chains x => extendChains x.2 x.1 [] chains) chains) := by
    intro rest
    induction rest with
    | nil =>
      intro done chains h
      rwa [List.append_nil]
    | cons x rest ih =>
      obtain ⟨v, i⟩ := x
      intro done chains h
      rw [List.foldl_cons, ← List.singleton_append, ← List.append_assoc]
      exact ih _ _ (h.extend v i)
  refine hfold values [] [] ⟨nofun, nofun, fun c m hc hm => ?_⟩
  have hnil := List.eq_nil_of_length_eq_zero (Nat.le_zero.mp hc.sublist.length_le)
  rw [List.reverse_eq_nil_iff, List.map_eq_nil_iff] at hnil
  rw [hnil] at hm
  cases hm

omit [LT α] [DecidableLT α] in
theorem zipIdx_concat (values : List α) (x : α) :
    (values ++ [x]).zipIdx = values.zipIdx ++ [(x, values.length)] := by
  rw [List.zipIdx_append, Nat.zero_add, List.zipIdx_singleton]

theorem bestChains_concat (values : List α) (x : α) : bestChains (values ++ [x]).zipIdx =
    extendChains values.length x [] (bestChains values.zipIdx) := by
  rw [zipIdx_concat, bestChains, List.foldl_append]
  rfl

/-! ### Positions -/

/-- The positions that are found are those of an increasing subsequence, and no increasing subsequence is longer. -/
theorem exists_run_longestIncreasing [StrictOrder α] (values : List α) :
    ∃ c, IsRun values.zipIdx c ∧ longestIncreasing values = (c.map Prod.fst).reverse ∧
      ∀ c', IsRun values.zipIdx c' → c'.length ≤ (longestIncreasing values).length := by
  have h := isBest_bestChains values.zipIdx
  refine ⟨(bestChains values.zipIdx).getLast?.getD [], ?_, rfl, fun c' hc' => ?_⟩
  · rcases hlast : (bestChains values.zipIdx).getLast? with - | c
    · exact isRun_nil _
    · exact h.runs c (List.mem_of_getLast? hlast)
  · rw [longestIncreasing, List.length_reverse, List.length_map]
    cases hlength : c'.length with
    | zero => exact Nat.zero_le _
    | succ m =>
      obtain ⟨b, hb, -⟩ := h.best c' m hc' hlength
      have hm := (List.getElem?_eq_some_iff.mp hb).1
      rcases hlast : (bestChains values.zipIdx).getLast? with - | c
      · rw [List.getLast?_eq_none_iff.mp hlast] at hm
        exact absurd hm (Nat.not_lt_zero m)
      · rw [List.getLast?_eq_getElem?] at hlast
        have hc := h.length_eq _ c hlast
        rw [Option.getD_some, hc]
        omega

omit [LT α] [DecidableLT α] in
theorem pairwise_zipIdx (values : List α) : values.zipIdx.Pairwise fun a b => a.2 < b.2 := by
  have hrange : (values.zipIdx.map Prod.snd).Pairwise (· < ·) := by
    rw [List.zipIdx_map_snd]
    exact List.pairwise_lt_range'
  exact List.pairwise_map.mp hrange

omit [DecidableLT α] in
/-- In a chain, later positions stand first. -/
theorem IsRun.positions {values : List α} {c : Chain α} (h : IsRun values.zipIdx c) :
    c.Pairwise fun a b => b.1 < a.1 := by
  have hrev := (pairwise_zipIdx values).sublist h.sublist
  rw [List.pairwise_reverse, List.pairwise_map] at hrev
  exact hrev

omit [DecidableLT α] in
theorem IsRun.getElem?_of_mem {values : List α} {c : Chain α} (h : IsRun values.zipIdx c) {a : Nat × α} (ha : a ∈ c) :
    values[a.1]? = some a.2 :=
  List.mem_zipIdx_iff_getElem?.mp (h.sublist.subset (List.mem_reverse.mpr (List.mem_map_of_mem (f := Prod.swap) ha)))

/-- The positions that are found are in order, and there are values at them. -/
theorem longestIncreasing_positions [StrictOrder α] (values : List α) :
    (longestIncreasing values).Pairwise (· < ·) ∧ ∀ p ∈ longestIncreasing values, p < values.length := by
  obtain ⟨c, hc, heq, -⟩ := exists_run_longestIncreasing values
  rw [heq]
  constructor
  · rw [List.pairwise_reverse, List.pairwise_map]
    exact hc.positions
  · intro p hp
    obtain ⟨a, ha, rfl⟩ := List.mem_map.mp (List.mem_reverse.mp hp)
    exact (List.getElem?_eq_some_iff.mp (hc.getElem?_of_mem ha)).1

/-- The values at the positions of a set increase. -/
def IncreasesOn (values : List α) (P : Nat → Prop) : Prop :=
  ∀ p q v w, p < q → P p → P q → values[p]? = some v → values[q]? = some w → v < w

/-- The values increase at the positions that are found. -/
theorem increasesOn_longestIncreasing [StrictOrder α] (values : List α) :
    IncreasesOn values (· ∈ longestIncreasing values) := by
  obtain ⟨c, hc, heq, -⟩ := exists_run_longestIncreasing values
  intro p q v w hpq hp hq hv hw
  have hstands : ∀ {p : Nat} {v : α}, p ∈ longestIncreasing values → values[p]? = some v → (p, v) ∈ c := by
    intro p v hp hv
    rw [heq, List.mem_reverse] at hp
    obtain ⟨a, ha, rfl⟩ := List.mem_map.mp hp
    rw [hc.getElem?_of_mem ha] at hv
    cases hv
    exact ha
  have hp' := hstands hp hv
  have hq' := hstands hq hw
  obtain ⟨j, hj⟩ := List.getElem?_of_mem hp'
  obtain ⟨k, hk⟩ := List.getElem?_of_mem hq'
  obtain ⟨hjlt, hjget⟩ := List.getElem?_eq_some_iff.mp hj
  obtain ⟨hklt, hkget⟩ := List.getElem?_eq_some_iff.mp hk
  rcases Nat.lt_trichotomy j k with hlt | rfl | hgt
  · have hwrong := List.pairwise_iff_getElem.mp hc.positions j k hjlt hklt hlt
    rw [hjget, hkget] at hwrong
    exact absurd hwrong (Nat.lt_asymm hpq)
  · rw [hjget] at hkget
    cases hkget
    exact absurd hpq (Nat.lt_irrefl p)
  · have hdecreasing := List.pairwise_iff_getElem.mp hc.decreasing k j hklt hjlt hgt
    rw [hjget, hkget] at hdecreasing
    exact hdecreasing

/-- No set of positions at which the values increase is larger. -/
theorem length_filter_le_longestIncreasing [StrictOrder α] {values : List α} {P : Nat → Prop} [DecidablePred P]
    (h : IncreasesOn values P) :
    ((List.range values.length).filter fun p => decide (P p)).length ≤ (longestIncreasing values).length := by
  obtain ⟨-, -, -, hmax⟩ := exists_run_longestIncreasing values
  let chosen := values.zipIdx.filter fun x => decide (P x.2)
  have hchosen : ((chosen.map Prod.swap).reverse.map Prod.swap).reverse = chosen := by
    rw [List.map_reverse, List.reverse_reverse, List.map_map, Prod.swap_swap_eq, List.map_id]
  have hrun : IsRun values.zipIdx (chosen.map Prod.swap).reverse := by
    refine ⟨?_, ?_⟩
    · rw [List.pairwise_reverse, List.pairwise_map]
      refine ((pairwise_zipIdx values).filter _).imp_of_mem fun {a b} ha hb hlt => ?_
      obtain ⟨hamem, haP⟩ := List.mem_filter.mp ha
      obtain ⟨hbmem, hbP⟩ := List.mem_filter.mp hb
      exact h a.2 b.2 a.1 b.1 hlt (of_decide_eq_true haP) (of_decide_eq_true hbP)
        (List.mem_zipIdx_iff_getElem?.mp hamem) (List.mem_zipIdx_iff_getElem?.mp hbmem)
    · rw [hchosen]
      exact List.filter_sublist
  have hlength := hmax _ hrun
  rw [List.length_reverse, List.length_map] at hlength
  have hrange : (List.range values.length).filter (fun p => decide (P p)) = chosen.map Prod.snd := by
    have hsnd : List.range values.length = values.zipIdx.map Prod.snd := by
      rw [List.zipIdx_map_snd, List.range_eq_range']
    rw [hsnd, List.filter_map]
    rfl
  rw [hrange, List.length_map]
  exact hlength

/-- A position that is left out conflicts with one that is not: they do not increase together. -/
theorem exists_conflict [StrictOrder α] {values : List α} {p : Nat} {v : α} (hv : values[p]? = some v)
    (hp : p ∉ longestIncreasing values) :
    ∃ q w, q ∈ longestIncreasing values ∧ values[q]? = some w ∧ (q < p ∧ ¬w < v ∨ p < q ∧ ¬v < w) := by
  by_contra hnone
  push Not at hnone
  have hinside := increasesOn_longestIncreasing values
  -- then the position could be added
  have hmore : IncreasesOn values fun q => q = p ∨ q ∈ longestIncreasing values := by
    rintro q r w x hqr (rfl | hq) (rfl | hr) hw hx
    · exact absurd hqr (Nat.lt_irrefl _)
    · rw [hv] at hw
      cases hw
      exact (hnone r x hr hx).2 hqr
    · rw [hv] at hx
      cases hx
      exact (hnone q w hq hw).1 hqr
    · exact hinside q r w x hqr hq hr hw hx
  obtain ⟨hsorted, hlt⟩ := longestIncreasing_positions values
  have hnodup : (p :: longestIncreasing values).Nodup :=
    List.nodup_cons.mpr ⟨hp, hsorted.imp Nat.ne_of_lt⟩
  have hsubset : p :: longestIncreasing values ⊆
      (List.range values.length).filter fun q => decide (q = p ∨ q ∈ longestIncreasing values) := by
    intro q hq
    rw [List.mem_filter, List.mem_range, decide_eq_true_eq]
    rcases List.mem_cons.mp hq with rfl | hq
    · exact ⟨(List.getElem?_eq_some_iff.mp hv).1, .inl rfl⟩
    · exact ⟨hlt q hq, .inr hq⟩
  have hlonger := (hnodup.subperm hsubset).length_le
  have hle := length_filter_le_longestIncreasing hmore
  rw [List.length_cons] at hlonger
  omega

/-- Where not all values increase, some position is left out. -/
theorem exists_not_mem_longestIncreasing [StrictOrder α] {values : List α}
    (h : (longestIncreasing values).length ≠ values.length) :
    ∃ p v, values[p]? = some v ∧ p ∉ longestIncreasing values := by
  by_contra hnone
  push Not at hnone
  obtain ⟨hsorted, hlt⟩ := longestIncreasing_positions values
  have hrange : List.range values.length ⊆ longestIncreasing values := by
    intro p hp
    exact hnone p _ (List.getElem?_eq_getElem (List.mem_range.mp hp))
  have hsubset : longestIncreasing values ⊆ List.range values.length := fun p hp => List.mem_range.mpr (hlt p hp)
  have hle := (List.nodup_range.subperm hrange).length_le
  have hge := (List.Nodup.subperm (hsorted.imp Nat.ne_of_lt) hsubset).length_le
  rw [List.length_range] at hle hge
  exact h (Nat.le_antisymm hge hle)

end GrammarInference
