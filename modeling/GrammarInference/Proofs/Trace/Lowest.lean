/-
GrammarInference/Proofs/Trace/Lowest.lean

Among the longest increasing subsequences, the one with the smallest values is found.

Design.  The end of a best chain is the least one for its length, and of several equal ones the last.  What stands
before the end was the best chain of its length when the end was added, so the same holds of it among the values
up to there, and so on down the chain (`Lowest`).  Two longest chains are compared from their ends: as long as the
other chain ends no lower and no later than the lowest one, what stands before its end is among the values that were
there when the end of the lowest one was added, and so it is no lower.  It is no later either, for otherwise the lower
chain, continued by the other one, would be longer than the longest.
-/
import GrammarInference.Proofs.Trace.Patience
import Mathlib.Data.List.Induction
import Mathlib.Data.List.Sort

namespace GrammarInference

variable {α : Type} [LT α]

/-! ### Runs by their positions -/

/-- An increasing subsequence goes down in values and in positions, and its values stand at its positions. -/
theorem isRun_zipIdx_iff {values : List α} {c : Chain α} : IsRun values.zipIdx c ↔
    c.Pairwise (fun a b => b.2 < a.2 ∧ b.1 < a.1) ∧ ∀ a ∈ c, values[a.1]? = some a.2 := by
  constructor
  · exact fun h => ⟨h.decreasing.and h.positions, fun a ha => h.getElem?_of_mem ha⟩
  · rintro ⟨hpairs, hvalues⟩
    refine ⟨hpairs.imp And.left, ?_⟩
    have hordered : (c.map Prod.swap).reverse.Pairwise fun a b => a.2 < b.2 := by
      rw [List.pairwise_reverse, List.pairwise_map]
      exact hpairs.imp And.right
    have hsubset : (c.map Prod.swap).reverse ⊆ values.zipIdx := by
      intro x hx
      obtain ⟨a, ha, rfl⟩ := List.mem_map.mp (List.mem_reverse.mp hx)
      exact List.mem_zipIdx_iff_getElem?.mpr (hvalues a ha)
    have hnodup : (c.map Prod.swap).reverse.Nodup :=
      hordered.imp fun {a b} hlt (heq : a = b) => Nat.lt_irrefl b.2 (heq ▸ hlt)
    have : Std.Antisymm fun a b : α × Nat => a.2 < b.2 := ⟨fun a b h h' => absurd h (Nat.lt_asymm h')⟩
    exact List.sublist_of_subperm_of_pairwise (hnodup.subperm hsubset) hordered (pairwise_zipIdx values)

theorem IsRun.lt_length {values : List α} {i : Nat} {v : α} {c : Chain α} (h : IsRun values.zipIdx ((i, v) :: c)) :
    i < values.length :=
  (List.getElem?_eq_some_iff.mp (h.getElem?_of_mem List.mem_cons_self)).1

/-- What stands before an element of an increasing subsequence is one of the values before that element. -/
theorem IsRun.take {values : List α} {i : Nat} {v : α} {c : Chain α} (h : IsRun values.zipIdx ((i, v) :: c)) :
    IsRun (values.take i).zipIdx c := by
  obtain ⟨hpairs, hvalues⟩ := isRun_zipIdx_iff.mp h
  obtain ⟨hlast, hpairs⟩ := List.pairwise_cons.mp hpairs
  refine isRun_zipIdx_iff.mpr ⟨hpairs, fun a ha => ?_⟩
  rw [List.getElem?_take_of_lt (hlast a ha).2]
  exact hvalues a (List.mem_cons_of_mem _ ha)

theorem IsRun.of_take {values : List α} {i : Nat} {c : Chain α} (h : IsRun (values.take i).zipIdx c) :
    IsRun values.zipIdx c := by
  obtain ⟨hpairs, hvalues⟩ := isRun_zipIdx_iff.mp h
  refine isRun_zipIdx_iff.mpr ⟨hpairs, fun a ha => ?_⟩
  have ha' := hvalues a ha
  rw [List.getElem?_take] at ha'
  split at ha'
  · exact ha'
  · cases ha'

theorem IsRun.take_mono {values : List α} {i j : Nat} {c : Chain α} (h : IsRun (values.take i).zipIdx c)
    (hij : i ≤ j) : IsRun (values.take j).zipIdx c := by
  apply IsRun.of_take (i := i)
  rwa [List.take_take, Nat.min_eq_left hij]

/-! ### Lowest chains -/

/-- No increasing subsequence of the length of the chain ends lower, or in the same value later; and what stands before
the end is such a chain for the values up to there. -/
def Lowest (values : List α) : Chain α → Prop
  | [] => True
  | (i, v) :: c =>
    (∀ p w c', IsRun values.zipIdx ((p, w) :: c') → c'.length = c.length → v < w ∨ v = w ∧ p ≤ i) ∧
      Lowest (values.take i) c

/-! ### Longest chains -/

/-- What is left of one increasing subsequence may follow another one that ends lower and earlier. -/
theorem IsRun.graft [StrictOrder α] {values : List α} {front c d : Chain α} {j q : Nat} {v w : α}
    (hfront : IsRun values.zipIdx (front ++ (q, w) :: d)) (hc : IsRun values.zipIdx ((j, v) :: c)) (hvw : v < w)
    (hjq : j < q) : IsRun values.zipIdx (front ++ (q, w) :: (j, v) :: c) := by
  obtain ⟨hpairs, hvalues⟩ := isRun_zipIdx_iff.mp hfront
  obtain ⟨hpairsFront, -, hcross⟩ := List.pairwise_append.mp hpairs
  obtain ⟨hpairsChain, hvaluesChain⟩ := isRun_zipIdx_iff.mp hc
  have hbelow : ∀ b ∈ (j, v) :: c, b.2 < w ∧ b.1 < q := by
    refine List.forall_mem_cons.mpr ⟨⟨hvw, hjq⟩, fun b hb => ?_⟩
    obtain ⟨hbv, hbj⟩ := (List.pairwise_cons.mp hpairsChain).1 b hb
    exact ⟨StrictOrder.trans hbv hvw, Nat.lt_trans hbj hjq⟩
  refine isRun_zipIdx_iff.mpr ⟨?_, fun a ha => ?_⟩
  · refine List.pairwise_append.mpr ⟨hpairsFront, List.pairwise_cons.mpr ⟨hbelow, hpairsChain⟩, fun a ha => ?_⟩
    obtain ⟨hwa, hqa⟩ := hcross a ha (q, w) List.mem_cons_self
    refine List.forall_mem_cons.mpr ⟨⟨hwa, hqa⟩, fun b hb => ?_⟩
    exact ⟨StrictOrder.trans (hbelow b hb).1 hwa, Nat.lt_trans (hbelow b hb).2 hqa⟩
  · rcases List.mem_append.mp ha with ha | ha
    · exact hvalues a (List.mem_append_left _ ha)
    · rcases List.mem_cons.mp ha with rfl | ha
      · exact hvalues _ (List.mem_append_right _ List.mem_cons_self)
      · exact hvaluesChain a ha

/-- Compared from their ends, a longest subsequence that ends no lower and no later than a lowest chain is nowhere
lower; `front` is the part of it that has been compared. -/
theorem Lowest.forall₂ [StrictOrder α] {values : List α} {front c d : Chain α} {i p : Nat}
    (hc : IsRun (values.take i).zipIdx c) (hlow : Lowest (values.take i) c)
    (hfront : IsRun values.zipIdx (front ++ d)) (hd : IsRun (values.take p).zipIdx d) (hpi : p ≤ i)
    (hlength : c.length = d.length)
    (hmax : ∀ e : Chain α, IsRun values.zipIdx e → e.length ≤ (front ++ d).length) :
    List.Forall₂ (fun a b => a.2 < b.2 ∨ a.2 = b.2) c d := by
  induction c generalizing front d i p with
  | nil =>
    rw [List.eq_nil_of_length_eq_zero hlength.symm]
    exact .nil
  | cons a c ih =>
    obtain ⟨j, v⟩ := a
    cases d with
    | nil => cases hlength
    | cons b d =>
      obtain ⟨q, w⟩ := b
      have hlength' : d.length = c.length := (Nat.succ.inj hlength).symm
      have hends := hlow.1 q w d (hd.take_mono hpi) hlength'
      have hqj : q ≤ j := by
        obtain hvw | ⟨-, hle⟩ := hends
        · -- otherwise the two could be put together
          by_contra hlt
          have hle := hmax _ (hfront.graft hc.of_take hvw (Nat.lt_of_not_le hlt))
          simp only [List.length_append, List.length_cons] at hle
          omega
        · exact hle
      have hji : j ≤ i := (Nat.le_of_lt hc.lt_length).trans (List.length_take_le i values)
      have hlow' := hlow.2
      rw [List.take_take, Nat.min_eq_left hji] at hlow'
      have hc' := hc.take
      rw [List.take_take, Nat.min_eq_left hji] at hc'
      have hassoc : front ++ (q, w) :: d = (front ++ [(q, w)]) ++ d := by rw [List.append_assoc]; rfl
      rw [hassoc] at hfront hmax
      refine .cons (hends.imp_right And.left) ?_
      exact ih hc' hlow' hfront hd.of_take.take hqj hlength'.symm hmax

/-! ### Positions -/

/-- The values at some positions. -/
def valuesAt (values : List α) (ps : List Nat) : List α := ps.filterMap fun p => values[p]?

/-- The positions go from left to right through the list, and the values at them increase. -/
structure IsIncreasing (values : List α) (ps : List Nat) : Prop where
  /-- The positions increase. -/
  ordered : ps.Pairwise (· < ·)
  /-- There are values at all of them. -/
  inside : ∀ p ∈ ps, p < values.length
  /-- The values increase. -/
  increasing : (valuesAt values ps).Pairwise (· < ·)

omit [LT α] in
theorem valuesAt_positions {values : List α} {c : Chain α} (h : ∀ a ∈ c, values[a.1]? = some a.2) :
    valuesAt values (c.map Prod.fst).reverse = (c.map Prod.snd).reverse := by
  rw [valuesAt, List.filterMap_reverse, List.filterMap_map]
  congr 1
  induction c with
  | nil => rfl
  | cons a c ih =>
    obtain ⟨ha, hc⟩ := List.forall_mem_cons.mp h
    have hcons := List.filterMap_cons_some (f := (fun p => values[p]?) ∘ Prod.fst) (l := c) ha
    rw [hcons, List.map_cons, ih hc]

theorem IsRun.isIncreasing {values : List α} {c : Chain α} (h : IsRun values.zipIdx c) :
    IsIncreasing values (c.map Prod.fst).reverse where
  ordered := by
    rw [List.pairwise_reverse, List.pairwise_map]
    exact h.positions
  inside := by
    intro p hp
    obtain ⟨a, ha, rfl⟩ := List.mem_map.mp (List.mem_reverse.mp hp)
    exact (List.getElem?_eq_some_iff.mp (h.getElem?_of_mem ha)).1
  increasing := by
    rw [valuesAt_positions fun a => h.getElem?_of_mem, List.pairwise_reverse, List.pairwise_map]
    exact h.decreasing

/-- The positions are those of an increasing subsequence. -/
theorem IsIncreasing.exists_run {values : List α} {ps : List Nat} (h : IsIncreasing values ps) :
    ∃ c, IsRun values.zipIdx c ∧ ps = (c.map Prod.fst).reverse := by
  obtain ⟨c, hps, hvalues⟩ : ∃ c : Chain α, ps = (c.map Prod.fst).reverse ∧ ∀ a ∈ c, values[a.1]? = some a.2 := by
    have hinside := h.inside
    clear h
    induction ps with
    | nil => exact ⟨[], rfl, nofun⟩
    | cons p ps ih =>
      obtain ⟨hp, hps⟩ := List.forall_mem_cons.mp hinside
      obtain ⟨c, rfl, hc⟩ := ih hps
      refine ⟨c ++ [(p, values[p])], by simp, fun a ha => ?_⟩
      rcases List.mem_append.mp ha with ha | ha
      · exact hc a ha
      · rw [List.mem_singleton.mp ha]
        exact List.getElem?_eq_getElem hp
  refine ⟨c, isRun_zipIdx_iff.mpr ⟨?_, hvalues⟩, hps⟩
  have hordered := h.ordered
  have hincreasing := h.increasing
  rw [hps, List.pairwise_reverse, List.pairwise_map] at hordered
  rw [hps, valuesAt_positions hvalues, List.pairwise_reverse, List.pairwise_map] at hincreasing
  exact hincreasing.and hordered

/-! ### Best chains -/

variable [DecidableLT α]

/-- A best chain ends no higher than any other of its length, so it is enough to look at those that end in the same
value. -/
theorem IsBest.lowest [StrictOrder α] {values : List α} {chains : List (Chain α)} (h : IsBest values.zipIdx chains)
    {m i : Nat} {v : α} {c : Chain α} (hc : chains[m]? = some ((i, v) :: c))
    (hlast : ∀ p c', IsRun values.zipIdx ((p, v) :: c') → c'.length = c.length → p ≤ i)
    (hrest : Lowest (values.take i) c) : Lowest values ((i, v) :: c) := by
  refine ⟨fun p w c' hrun hlength => ?_, hrest⟩
  by_cases hvw : v < w
  · exact .inl hvw
  · have hwv : ¬w < v := by
      intro hwv
      have hm : c.length = m := Nat.succ.inj (h.length_eq m _ hc)
      obtain ⟨b, hb, hends⟩ := h.best _ m hrun (congrArg Nat.succ (hlength.trans hm))
      rw [hc] at hb
      cases hb
      have hvv : v < v := of_decide_eq_true (hends v (decide_eq_true hwv))
      exact StrictOrder.asymm hvv hvv
    obtain rfl : v = w := StrictOrder.connex hvw hwv
    exact .inr ⟨rfl, hlast p c' hrun hlength⟩

/-- A chain that does not give way to a new value is still the last one of its length with its value: one that ends in
the new value would stand where the new chain stands. -/
theorem Lowest.le_of_kept [StrictOrder α] {values : List α} {x v : α} {i m k p : Nat} {c c' : Chain α}
    (hbelow : ∀ m c, m < k → (bestChains values.zipIdx)[m]? = some c → c.endsBelow x = true)
    (hrest : ∀ c, (bestChains values.zipIdx)[k]? = some c → c.endsBelow x = false)
    (hkept : (bestChains values.zipIdx)[m]? = some ((i, v) :: c)) (hmk : m ≠ k) (hlow : Lowest values ((i, v) :: c))
    (hrun : IsRun (values ++ [x]).zipIdx ((p, v) :: c')) (hlength : c'.length = c.length) : p ≤ i := by
  have hbest := isBest_bestChains values.zipIdx
  rw [zipIdx_concat] at hrun
  rcases hrun.of_append with hrun | ⟨rest, heq, hrun, hbelowx⟩
  · obtain hlt | ⟨-, hle⟩ := hlow.1 p v c' hrun hlength
    · exact absurd hlt fun hvv => StrictOrder.asymm hvv hvv
    · exact hle
  · cases heq
    have hle := hbest.length_le_of_endsBelow hrest hrun (Chain.endsBelow_of_forall hbelowx)
    rw [hlength, Nat.succ.inj (hbest.length_eq m _ hkept)] at hle
    have hxx : x < x := of_decide_eq_true (hbelow m _ (Nat.lt_of_le_of_ne hle hmk) hkept)
    exact absurd hxx (StrictOrder.asymm hxx)

/-- Best chains are lowest, since the chain behind which a value is put was best before. -/
theorem lowest_of_mem_bestChains [StrictOrder α] (values : List α) :
    ∀ c ∈ bestChains values.zipIdx, Lowest values c := by
  induction values using List.reverseRecOn with
  | nil => exact fun c hc => absurd hc List.not_mem_nil
  | append_singleton values x ih =>
    have hnew := isBest_bestChains (values ++ [x]).zipIdx
    obtain ⟨k, last, hbelow, -, hrest, hlast, hget⟩ :=
      getElem?_extendChains values.length x [] (bestChains values.zipIdx)
    intro c hc
    obtain ⟨m, hm⟩ := List.getElem?_of_mem hc
    rcases c with - | ⟨⟨i, v⟩, c⟩
    · exact trivial
    have hplace := hm
    rw [bestChains_concat, hget] at hplace
    split at hplace
    · -- the new value stands at the last position, behind a chain that was best before
      cases hplace
      refine hnew.lowest hm (fun p c' hrun _ => ?_) ?_
      · have hp := hrun.lt_length
        rw [List.length_append] at hp
        exact Nat.le_of_lt_succ hp
      · rw [List.take_left]
        rcases List.mem_cons.mp (List.mem_of_getElem? hlast) with rfl | hmem
        · exact trivial
        · exact ih _ hmem
    · rename_i hmk
      have hmem := List.mem_of_getElem? hplace
      have hlow := ih _ hmem
      refine hnew.lowest hm (fun p c' => hlow.le_of_kept hbelow hrest hplace hmk) ?_
      have hrun := isRun_of_mem_bestChains _ _ hmem
      rw [List.take_append_of_le_length (Nat.le_of_lt hrun.lt_length)]
      exact hlow.2

/-! ### The positions that are found -/

/-- The positions that are found are those of a lowest chain. -/
theorem exists_lowest_longestIncreasing [StrictOrder α] (values : List α) :
    ∃ c, IsRun values.zipIdx c ∧ Lowest values c ∧ longestIncreasing values = (c.map Prod.fst).reverse := by
  refine ⟨(bestChains values.zipIdx).getLast?.getD [], ?_⟩
  rcases hlast : (bestChains values.zipIdx).getLast? with - | c
  · exact ⟨isRun_nil _, trivial, by rw [longestIncreasing, hlast]⟩
  · have hc := List.mem_of_getLast? hlast
    exact ⟨isRun_of_mem_bestChains _ c hc, lowest_of_mem_bestChains values c hc, by rw [longestIncreasing, hlast]⟩

/-- If the whole list increases, all positions are found. -/
theorem longestIncreasing_of_pairwise [StrictOrder α] {values : List α} (h : values.Pairwise (· < ·)) :
    longestIncreasing values = List.range values.length := by
  obtain ⟨-, -, -, hmax⟩ := exists_run_longestIncreasing values
  have hall : IsRun values.zipIdx (values.zipIdx.map Prod.swap).reverse := by
    have hswap : ((values.zipIdx.map Prod.swap).reverse.map Prod.swap).reverse = values.zipIdx := by
      rw [List.map_reverse, List.reverse_reverse, List.map_map, Prod.swap_swap_eq, List.map_id]
    have hvalues : (values.zipIdx.map Prod.fst).Pairwise (· < ·) := by rwa [List.zipIdx_map_fst]
    refine ⟨?_, hswap.symm ▸ List.Sublist.refl values.zipIdx⟩
    rw [List.pairwise_reverse, List.pairwise_map]
    exact List.pairwise_map.mp hvalues
  have hlength := hmax _ hall
  rw [List.length_reverse, List.length_map, List.length_zipIdx] at hlength
  obtain ⟨hordered, hinside⟩ := longestIncreasing_positions values
  have hnodup : (longestIncreasing values).Nodup := hordered.imp Nat.ne_of_lt
  have hsubperm := hnodup.subperm fun p hp => List.mem_range.mpr (hinside p hp)
  have : Std.Antisymm fun a b : Nat => a < b := ⟨fun a b h h' => absurd h (Nat.lt_asymm h')⟩
  have hsub := List.sublist_of_subperm_of_pairwise hsubperm hordered List.pairwise_lt_range
  exact hsub.eq_of_length_le (by rwa [List.length_range])

/-- **The longest increasing subsequence with the smallest values is found.**  Bisection and links find the
same positions.  For every list these go from left to right and the values at them increase; no other such positions
are more; and of any others that are as many, each value is at least the one that is found in its place.  All positions
are found exactly if the whole list increases. -/
theorem longestIncreasing_lowest [StrictOrder α] (values : List α) :
    patience values = some (longestIncreasing values) ∧
      IsIncreasing values (longestIncreasing values) ∧
      (∀ ps, IsIncreasing values ps → ps.length ≤ (longestIncreasing values).length) ∧
      (∀ ps, IsIncreasing values ps → ps.length = (longestIncreasing values).length →
        List.Forall₂ (fun v w => v < w ∨ v = w) (valuesAt values (longestIncreasing values)) (valuesAt values ps)) ∧
      (longestIncreasing values = List.range values.length ↔ values.Pairwise (· < ·)) := by
  obtain ⟨c, hc, hlow, heq⟩ := exists_lowest_longestIncreasing values
  obtain ⟨-, -, -, hmax⟩ := exists_run_longestIncreasing values
  refine ⟨patience_eq values, heq ▸ hc.isIncreasing, fun ps hps => ?_, fun ps hps hlong => ?_, fun h => ?_,
    longestIncreasing_of_pairwise⟩
  · obtain ⟨d, hd, rfl⟩ := hps.exists_run
    rw [List.length_reverse, List.length_map]
    exact hmax d hd
  · obtain ⟨d, hd, rfl⟩ := hps.exists_run
    rw [← hlong] at hmax
    rw [heq] at hlong ⊢
    simp only [List.length_reverse, List.length_map] at hmax hlong
    rw [valuesAt_positions fun a => hc.getElem?_of_mem, valuesAt_positions fun a => hd.getElem?_of_mem,
      List.forall₂_reverse_iff, List.forall₂_map_left_iff, List.forall₂_map_right_iff]
    rw [← List.take_length (l := values)] at hc hlow
    have hd' := hd
    rw [← List.take_length (l := values)] at hd'
    have hfront : IsRun values.zipIdx ([] ++ d) := hd
    exact hlow.forall₂ hc hfront hd' (Nat.le_refl _) hlong.symm hmax
  · apply pairwise_of_length_longestIncreasing
    rw [h, List.length_range]

/-- In a list with a repeated number, 1, 4, 5, 6 is found, and the subsequence 3, 4, 5, 9 is as long. -/
theorem longestIncreasing_repeatedDigit :
    patience [3, 1, 4, 1, 5, 9, 2, 6] = some [1, 2, 4, 7] ∧
      IsIncreasing [3, 1, 4, 1, 5, 9, 2, 6] [0, 2, 4, 5] ∧
      List.Forall₂ (fun v w : Nat => v < w ∨ v = w) [1, 4, 5, 6] [3, 4, 5, 9] := by
  have hfound : longestIncreasing [3, 1, 4, 1, 5, 9, 2, 6] = [1, 2, 4, 7] := by decide
  have hother : IsIncreasing [3, 1, 4, 1, 5, 9, 2, 6] [0, 2, 4, 5] := ⟨by decide, by decide, by decide⟩
  obtain ⟨hlinks, -, -, hlowest, -⟩ := longestIncreasing_lowest [3, 1, 4, 1, 5, 9, 2, 6]
  have hvalues := hlowest [0, 2, 4, 5] hother (by rw [hfound]; rfl)
  rw [hfound] at hlinks hvalues
  exact ⟨hlinks, hother, hvalues⟩

end GrammarInference
