/-
GrammarInference/Proofs/Trace/Repair.lean

What an ordered trace is made of: every position keeps a recorded read, its own or one of an earlier position.

Design.  Candidates are only ever given up or taken over.  A candidate of a position `stems` from a recorded read
of some position, and its offset is the distance between the two; taking it over makes both larger by one.  So it
is enough to know of each position whether its candidates are the reads of its record, the older ones among them,
or candidates that were taken over (`Follows`).  Filling and giving up keep this, and they never fail: the first
position keeps a read, and where positions are missed there is a later position that can give one up.  The only
way out without an order is thus that the rounds are used up (`Overrun`).
-/
import Mathlib.Data.List.Basic
import GrammarInference.Proofs.Trace.Increasing
import GrammarInference.Trace.Order

namespace GrammarInference

instance : StrictOrder ReadOrder where
  asymm := by
    intro a b (h : _ ∨ _) (h' : _ ∨ _)
    omega
  trans := by
    intro a b c (h : _ ∨ _) (h' : _ ∨ _)
    show _ ∨ _
    omega
  connex := by
    intro a b (h : ¬(_ ∨ _)) (h' : ¬(_ ∨ _))
    cases a
    cases b
    simp only [ReadOrder.mk.injEq] at h h' ⊢
    omega

/-! ### Recorded reads -/

namespace Trace

/-- Read number `i` of position `p` is read number `base` of the run, with the given call stack. -/
def Reads (t : Trace) (p i base : Nat) (context : CallStack) : Prop :=
  ∃ r o, t.positions[p]? = some r ∧ r.readOrders[i]? = some o ∧ o.toNat = base ∧ r.contexts[i]? = some context

/-- The number of reads of position `p`. -/
def readCount (t : Trace) (p : Nat) : Nat := ((t.positions[p]?).map fun r => r.readOrders.length).getD 0

end Trace

namespace Repair

variable {t : Trace} {s s' : Repair} {p : Nat} {r : PositionRecord} {c : Candidate} {cs : List Candidate}

/-- A read among those that are newest first has as many behind it as before it in that list. -/
theorem reads_of_mem_candidatesOf (hr : t.positions[p]? = some r) {k : Nat}
    (h : (candidatesOf r)[k]? = some c) :
    c.order.offset = 0 ∧ ∃ i, i + (k + 1) = t.readCount p ∧ t.Reads p i c.order.base c.context := by
  obtain ⟨hlength, -⟩ := t.consistent r (List.mem_of_getElem? hr)
  have hcount : t.readCount p = r.readOrders.length := by rw [Trace.readCount, hr]; rfl
  have hk : k < r.readOrders.length := by
    have hlt := (List.getElem?_eq_some_iff.mp h).1
    rw [candidatesOf, List.length_reverse, List.length_zipWith, ← hlength, Nat.min_self] at hlt
    exact hlt
  rw [candidatesOf, List.getElem?_reverse (by rwa [List.length_zipWith, ← hlength, Nat.min_self]),
    List.length_zipWith, ← hlength, Nat.min_self, List.getElem?_zipWith] at h
  split at h
  · rename_i o context ho hcontext
    cases h
    exact ⟨rfl, r.readOrders.length - 1 - k, by omega, r, o, hr, ho, rfl, hcontext⟩
  · cases h

/-- The candidate of position `p` is a recorded read of the position that its offset says. -/
def Stems (t : Trace) (p : Nat) (c : Candidate) : Prop :=
  ∃ q i, q + c.order.offset = p ∧ t.Reads q i c.order.base c.context

theorem Stems.next (h : Stems t p c) : Stems t (p + 1) ⟨c.order.next, c.context⟩ := by
  obtain ⟨q, i, hq, hreads⟩ := h
  exact ⟨q, i, by rw [← hq]; rfl, hreads⟩

theorem stems_of_mem_candidatesOf (hr : t.positions[p]? = some r) (h : c ∈ candidatesOf r) : Stems t p c := by
  obtain ⟨k, hk⟩ := List.mem_iff_getElem?.mp h
  obtain ⟨hzero, i, -, hreads⟩ := reads_of_mem_candidatesOf hr hk
  exact ⟨p, i, by rw [hzero, Nat.add_zero], hreads⟩

/-! ### What the repair keeps -/

/-- The candidates of one position, by the repairs that it went through. -/
structure Holds (t : Trace) (s : Repair) (p : Nat) (r : PositionRecord) (cs : List Candidate) : Prop where
  /-- Without a repair they are its reads. -/
  untouched : p ∉ s.inherited → p ∉ s.popped → cs = candidatesOf r
  /-- If it only gave up reads, they are its older reads. -/
  popped : p ∉ s.inherited → p ∈ s.popped → ∃ k, cs = (candidatesOf r).drop (k + 1)
  /-- If it took over a read, they were all taken over. -/
  inherited : p ∈ s.inherited → ∀ c ∈ cs, 1 ≤ c.order.offset ∧ Stems t p c

theorem Holds.stems (h : Holds t s p r cs) (hr : t.positions[p]? = some r) : ∀ c ∈ cs, Stems t p c := by
  intro c hc
  by_cases hi : p ∈ s.inherited
  · exact (h.inherited hi c hc).2
  · by_cases hp : p ∈ s.popped
    · obtain ⟨k, rfl⟩ := h.popped hi hp
      exact stems_of_mem_candidatesOf hr (List.mem_of_mem_drop hc)
    · exact stems_of_mem_candidatesOf hr (h.untouched hi hp ▸ hc)

/-- The state of a repair of `t`. -/
structure Follows (t : Trace) (s : Repair) : Prop where
  /-- There is a list of candidates for every position. -/
  length_eq : s.candidates.length = t.positions.length
  /-- The first position has a candidate. -/
  first : ∃ c cs, s.candidates[0]? = some (c :: cs)
  /-- The candidates of every position. -/
  holds : ∀ p cs r, s.candidates[p]? = some cs → t.positions[p]? = some r → Holds t s p r cs

theorem Follows.exists_record (h : Follows t s) (hcs : s.candidates[p]? = some cs) :
    ∃ r, t.positions[p]? = some r := by
  have hlt := (List.getElem?_eq_some_iff.mp hcs).1
  exact ⟨_, List.getElem?_eq_getElem (h.length_eq ▸ hlt)⟩

theorem Follows.stems (h : Follows t s) (hcs : s.candidates[p]? = some cs) : ∀ c ∈ cs, Stems t p c := by
  obtain ⟨r, hr⟩ := h.exists_record hcs
  exact (h.holds p cs r hcs hr).stems hr

theorem follows_start (h : t.readsFirst = true) : Follows t (start t) where
  length_eq := List.length_map _
  first := by
    rw [Trace.readsFirst] at h
    rcases hpos : t.positions with - | ⟨r, rest⟩
    · exact absurd hpos t.nonempty
    · rw [hpos] at h
      have hr : t.positions[0]? = some r := by rw [hpos]; rfl
      obtain ⟨hlength, -⟩ := t.consistent r (List.mem_of_getElem? hr)
      have hne : r.readOrders ≠ [] := by simpa using h
      rcases hcs : candidatesOf r with - | ⟨c, cs⟩
      · have hzero := congrArg List.length hcs
        rw [candidatesOf, List.length_reverse, List.length_zipWith, ← hlength, Nat.min_self] at hzero
        exact absurd (List.eq_nil_of_length_eq_zero hzero) hne
      · refine ⟨c, cs, ?_⟩
        rw [start, List.getElem?_map, hr, Option.map_some, hcs]
  holds := by
    intro p cs r hcs hr
    rw [start, List.getElem?_map, hr, Option.map_some] at hcs
    cases hcs
    exact ⟨fun _ _ => rfl, fun _ hp => absurd hp (SortedSet.not_mem_empty p),
      fun hi => absurd hi (SortedSet.not_mem_empty p)⟩

/-! ### Taking reads over -/

/-- What is taken over has the next offset, and everything else stays. -/
theorem inherit_spec {previous : Option Candidate} {l l' : List (List Candidate)} {ps : List Nat}
    (h : inherit previous p l = some (l', ps)) (hprevious : ∀ c ∈ previous, ∃ q, p = q + 1 ∧ Stems t q c)
    (hl : ∀ j cs, l[j]? = some cs → ∀ c ∈ cs, Stems t (p + j) c) :
    (∀ q ∈ ps, p ≤ q) ∧ l'.length = l.length ∧ ∀ j cs', l'[j]? = some cs' → ∃ cs, l[j]? = some cs ∧ cs' ≠ [] ∧
      (p + j ∉ ps ∧ cs' = cs ∨
        p + j ∈ ps ∧ cs = [] ∧ ∃ c, cs' = [c] ∧ 1 ≤ c.order.offset ∧ Stems t (p + j) c) := by
  induction l generalizing previous p l' ps with
  | nil =>
    cases h
    exact ⟨nofun, rfl, nofun⟩
  | cons cs rest ih =>
    have hrest : ∀ j cs, rest[j]? = some cs → ∀ c ∈ cs, Stems t (p + 1 + j) c := by
      intro j cs hcs
      have hj := hl (j + 1) cs hcs
      rwa [← Nat.add_assoc, Nat.add_right_comm] at hj
    cases cs with
    | cons c cs =>
      rw [inherit, Option.map_eq_some_iff] at h
      obtain ⟨⟨l₁, ps₁⟩, h₁, heq⟩ := h
      cases heq
      have hnext : ∀ a ∈ some c, ∃ q, p + 1 = q + 1 ∧ Stems t q a := by
        intro a ha
        cases ha
        exact ⟨p, rfl, hl 0 _ rfl c List.mem_cons_self⟩
      obtain ⟨hps, hlength, hall⟩ := ih h₁ hnext hrest
      refine ⟨fun q hq => Nat.le_of_succ_le (hps q hq), by rw [List.length_cons, hlength]; rfl, ?_⟩
      rintro (- | j) cs' hcs'
      · cases hcs'
        refine ⟨c :: cs, rfl, nofun, .inl ⟨fun hp => ?_, rfl⟩⟩
        exact absurd (hps p hp) (Nat.not_succ_le_self p)
      · rw [← Nat.add_assoc, Nat.add_right_comm]
        exact hall j cs' hcs'
    | nil =>
      cases previous with
      | none => cases h
      | some c =>
        rw [inherit, Option.map_eq_some_iff] at h
        obtain ⟨⟨l₁, ps₁⟩, h₁, heq⟩ := h
        cases heq
        obtain ⟨q, rfl, hstems⟩ := hprevious c rfl
        have hnext : ∀ a ∈ some (⟨c.order.next, c.context⟩ : Candidate), ∃ q', q + 1 + 1 = q' + 1 ∧ Stems t q' a := by
          intro a ha
          cases ha
          exact ⟨q + 1, rfl, hstems.next⟩
        obtain ⟨hps, hlength, hall⟩ := ih h₁ hnext hrest
        refine ⟨?_, by rw [List.length_cons, hlength]; rfl, ?_⟩
        · exact List.forall_mem_cons.mpr ⟨Nat.le_refl _, fun q' hq' => Nat.le_of_succ_le (hps q' hq')⟩
        · rintro (- | j) cs' hcs'
          · cases hcs'
            exact ⟨[], rfl, nofun, .inr ⟨List.mem_cons_self, rfl, _, rfl, Nat.le_add_left 1 _, hstems.next⟩⟩
          · obtain ⟨cs, hcs, hne, hor⟩ := hall j cs' hcs'
            refine ⟨cs, hcs, hne, ?_⟩
            rw [← Nat.add_assoc, Nat.add_right_comm]
            refine hor.imp (fun ⟨hno, heq⟩ => ⟨?_, heq⟩) (fun ⟨hyes, hrest⟩ => ⟨List.mem_cons_of_mem _ hyes, hrest⟩)
            rw [List.mem_cons, not_or]
            exact ⟨by omega, hno⟩

theorem isSome_inherit (c : Candidate) (p : Nat) (l : List (List Candidate)) : (inherit (some c) p l).isSome := by
  induction l generalizing c p with
  | nil => rfl
  | cons cs rest ih =>
    cases cs with
    | cons c' cs => rw [inherit, Option.isSome_map]; exact ih c' (p + 1)
    | nil => rw [inherit, Option.isSome_map]; exact ih _ (p + 1)

theorem mem_foldl_insert {set : SortedSet Nat} {ps : List Nat} {q : Nat} :
    q ∈ ps.foldl SortedSet.insert set ↔ q ∈ ps ∨ q ∈ set := by
  induction ps generalizing set with
  | nil => simp
  | cons p ps ih => rw [List.foldl_cons, ih, SortedSet.mem_insert, List.mem_cons, ← or_assoc, or_comm (a := q ∈ ps)]

/-- All positions have a candidate. -/
def Filled (s : Repair) : Prop :=
  ∀ (p : Nat) (cs : List Candidate), s.candidates[p]? = some cs → cs ≠ []

/-- Filling never fails, and then no position is without a candidate. -/
theorem Follows.fill (h : Follows t s) : ∃ s', s.fill = some s' ∧ Follows t s' ∧ s'.Filled := by
  obtain ⟨c, cs, hfirst⟩ := h.first
  obtain ⟨⟨l', ps⟩, hl'⟩ : ∃ x, inherit none 0 s.candidates = some x := by
    rcases hcandidates : s.candidates with - | ⟨cs', rest⟩
    · rw [hcandidates] at hfirst
      cases hfirst
    · rw [hcandidates] at hfirst
      cases hfirst
      rw [← Option.isSome_iff_exists, inherit, Option.isSome_map]
      exact isSome_inherit c 1 rest
  obtain ⟨-, hlength, hall⟩ := inherit_spec (t := t) hl' nofun fun j cs hcs => by
    rw [Nat.zero_add]
    exact h.stems hcs
  simp only [Nat.zero_add] at hall
  refine ⟨_, by rw [Repair.fill, hl']; rfl, ⟨hlength.trans h.length_eq, ?_, ?_⟩, ?_⟩
  · obtain ⟨cs', hcs'⟩ : ∃ cs', l'[0]? = some cs' := by
      have hlt := (List.getElem?_eq_some_iff.mp hfirst).1
      exact ⟨_, List.getElem?_eq_getElem (hlength ▸ hlt)⟩
    obtain ⟨-, -, hne, -⟩ := hall 0 cs' hcs'
    obtain ⟨c', rest, rfl⟩ := List.exists_cons_of_ne_nil hne
    exact ⟨c', rest, hcs'⟩
  · intro p cs' r hcs' hr
    obtain ⟨cs, hcs, -, hor⟩ := hall p cs' hcs'
    have hold := h.holds p cs r hcs hr
    rcases hor with ⟨hno, rfl⟩ | ⟨hyes, rfl, c', rfl, hoffset, hstems⟩
    · have hiff : p ∈ ps.foldl SortedSet.insert s.inherited ↔ p ∈ s.inherited := by
        rw [mem_foldl_insert]
        exact or_iff_right hno
      exact ⟨fun hi hp => hold.untouched (hiff.not.mp hi) hp, fun hi hp => hold.popped (hiff.not.mp hi) hp,
        fun hi => hold.inherited (hiff.mp hi)⟩
    · have hmem : p ∈ ps.foldl SortedSet.insert s.inherited := mem_foldl_insert.mpr (.inl hyes)
      refine ⟨fun hi => absurd hmem hi, fun hi => absurd hmem hi, fun _ => ?_⟩
      exact List.forall_mem_singleton.mpr ⟨hoffset, hstems⟩
  · intro p cs' hcs'
    obtain ⟨-, -, hne, -⟩ := hall p cs' hcs'
    exact hne

/-! ### Giving reads up -/

/-- The position is not the first one, or has another read. -/
def CanSpare (s : Repair) (p : Nat) : Prop := 0 < p ∨ 1 < (s.candidates[p]?.getD []).length

/-- Giving up the newest read of a position that can spare it. -/
theorem Follows.pop (h : Follows t s) {i : Nat} (hi : s.CanSpare i) : Follows t (s.pop i) where
  length_eq := by rw [Repair.pop, List.length_modify, h.length_eq]
  first := by
    obtain ⟨c, cs, hfirst⟩ := h.first
    rw [Repair.pop, List.getElem?_modify, hfirst]
    rcases Nat.eq_zero_or_pos i with rfl | hpos
    · rcases hi with hi | hi
      · exact absurd hi (Nat.lt_irrefl 0)
      · rw [hfirst] at hi
        obtain ⟨c', cs', rfl⟩ := List.exists_cons_of_length_pos (Nat.lt_of_succ_lt_succ hi)
        exact ⟨c', cs', rfl⟩
    · exact ⟨c, cs, by simp [Nat.ne_of_gt hpos]⟩
  holds := by
    intro p cs' r hcs' hr
    rw [Repair.pop, List.getElem?_modify] at hcs'
    obtain ⟨cs, hcs, rfl⟩ := Option.map_eq_some_iff.mp hcs'
    have hold := h.holds p cs r hcs hr
    by_cases hip : i = p
    · subst hip
      rw [if_pos rfl]
      have hpopped : i ∈ (s.pop i).popped := SortedSet.mem_insert.mpr (.inl rfl)
      refine ⟨fun _ hno => absurd hpopped hno, fun hinherited _ => ?_, fun hinherited c hc => ?_⟩
      · by_cases hp : i ∈ s.popped
        · obtain ⟨k, rfl⟩ := hold.popped hinherited hp
          exact ⟨k + 1, List.tail_drop⟩
        · rw [hold.untouched hinherited hp]
          exact ⟨0, List.drop_one.symm⟩
      · exact hold.inherited hinherited c ((List.tail_sublist cs).subset hc)
    · rw [if_neg hip]
      have hiff : p ∈ (s.pop i).popped ↔ p ∈ s.popped := by
        rw [Repair.pop, SortedSet.mem_insert]
        exact or_iff_right fun e => hip e.symm
      exact ⟨fun hinherited hp => hold.untouched hinherited (hiff.not.mp hp),
        fun hinherited hp => hold.popped hinherited (hiff.mp hp), hold.inherited⟩

/-- No listed order is smaller than the smallest one. -/
theorem smallest_spec {l : List (Nat × ReadOrder)} (h : smallest l = some p) :
    ∃ o, (p, o) ∈ l ∧ ∀ e ∈ l, ¬e.2 < o := by
  have hfold : ∀ (rest : List (Nat × ReadOrder)) (best : Nat × ReadOrder), ∃ e ∈ best :: rest,
      rest.foldl (fun best e => if e.2 < best.2 then e else best) best = e ∧ ∀ a ∈ best :: rest, ¬a.2 < e.2 := by
    intro rest
    induction rest with
    | nil =>
      refine fun best => ⟨best, List.mem_cons_self, rfl, List.forall_mem_singleton.mpr fun h => ?_⟩
      exact StrictOrder.asymm h h
    | cons a rest ih =>
      intro best
      rw [List.foldl_cons]
      by_cases ha : a.2 < best.2
      · obtain ⟨e, he, heq, hall⟩ := ih a
        refine ⟨e, List.mem_cons_of_mem best he, by rw [if_pos ha, heq], List.forall_mem_cons.mpr ⟨?_, hall⟩⟩
        exact fun hbest => hall a List.mem_cons_self (StrictOrder.trans ha hbest)
      · obtain ⟨e, he, heq, hall⟩ := ih best
        obtain ⟨hbest, hrest⟩ := List.forall_mem_cons.mp hall
        refine ⟨e, ?_, by rw [if_neg ha, heq], List.forall_mem_cons.mpr ⟨hbest, List.forall_mem_cons.mpr ⟨?_, hrest⟩⟩⟩
        · rcases List.mem_cons.mp he with rfl | he
          · exact List.mem_cons_self
          · exact List.mem_cons_of_mem best (List.mem_cons_of_mem a he)
        · intro hae
          by_cases hba : best.2 < a.2
          · exact hbest (StrictOrder.trans hba hae)
          · exact hbest (StrictOrder.connex ha hba ▸ hae)
  cases l with
  | nil => cases h
  | cons best rest =>
    obtain ⟨e, he, heq, hall⟩ := hfold rest best
    rw [smallest, heq] at h
    cases h
    exact ⟨e.2, he, hall⟩

theorem isSome_smallest {l : List (Nat × ReadOrder)} (h : l ≠ []) : (smallest l).isSome := by
  cases l with
  | nil => exact absurd rfl h
  | cons e rest => rfl

theorem mem_places {o : ReadOrder} : (p, o) ∈ (s.orders.zipIdx.map fun (o, p) => (p, o)) ↔ s.orders[p]? = some o := by
  constructor
  · intro h
    obtain ⟨⟨o', q⟩, hq, heq⟩ := List.mem_map.mp h
    cases heq
    exact List.mem_zipIdx_iff_getElem?.mp hq
  · exact fun h => List.mem_map.mpr ⟨(o, p), List.mem_zipIdx_iff_getElem?.mpr h, rfl⟩

/-- Which position gives up its read: the one with the smallest order among those outside the subsequence that can
spare a read, or without such positions among all but the first one. -/
theorem odd_cases {inside : List Nat} (h : s.odd inside = some p) : ∃ o, s.orders[p]? = some o ∧
    (p ∉ inside ∧ s.CanSpare p ∧
        (∀ q o', s.orders[q]? = some o' → q ∉ inside → s.CanSpare q → ¬o' < o) ∨
      0 < p ∧ (∀ q o', s.orders[q]? = some o' → q ∉ inside → ¬s.CanSpare q) ∧
        ∀ q o', s.orders[q]? = some o' → 0 < q → ¬o' < o) := by
  rw [odd] at h
  simp only at h
  have houtside : ∀ q o', (q, o') ∈ (s.orders.zipIdx.map fun (o, p) => (p, o)).filter (fun e =>
      !inside.contains e.1 && (decide (0 < e.1) || decide (1 < (s.candidates[e.1]?.getD []).length))) ↔
      s.orders[q]? = some o' ∧ q ∉ inside ∧ s.CanSpare q := by
    intro q o'
    rw [List.mem_filter, mem_places]
    simp [CanSpare]
  split at h
  · rename_i q hq
    cases h
    obtain ⟨o, ho, hmin⟩ := smallest_spec hq
    obtain ⟨hget, hinside, hspare⟩ := (houtside _ _).mp ho
    refine ⟨o, hget, .inl ⟨hinside, hspare, fun q o' hq' hno hcan => ?_⟩⟩
    exact hmin (q, o') ((houtside q o').mpr ⟨hq', hno, hcan⟩)
  · rename_i hnone
    have hempty := List.eq_nil_iff_forall_not_mem.mp
      (Decidable.not_not.mp (mt isSome_smallest (Option.not_isSome_iff_eq_none.mpr hnone)))
    -- leaving out the first place leaves out the first position
    have hlater : ∀ q o', (q, o') ∈ (s.orders.zipIdx.map fun (o, p) => (p, o)).drop 1 ↔
        s.orders[q]? = some o' ∧ 0 < q := by
      intro q o'
      rw [List.mem_iff_getElem?]
      constructor
      · rintro ⟨j, hj⟩
        rw [List.getElem?_drop, List.getElem?_map, List.getElem?_zipIdx, Option.map_map, Option.map_eq_some_iff] at hj
        obtain ⟨o'', ho'', heq⟩ := hj
        cases heq
        rw [Nat.zero_add]
        exact ⟨ho'', Nat.add_pos_left Nat.one_pos j⟩
      · rintro ⟨hq, hpos⟩
        obtain ⟨j, rfl⟩ := Nat.exists_eq_add_of_le hpos
        exact ⟨j, by rw [List.getElem?_drop, List.getElem?_map, List.getElem?_zipIdx, hq]; simp⟩
    obtain ⟨o, ho, hmin⟩ := smallest_spec h
    obtain ⟨hget, hpos⟩ := (hlater p o).mp ho
    refine ⟨o, hget, .inr ⟨hpos, fun q o' hq hno hcan => ?_, fun q o' hq hq' => ?_⟩⟩
    · exact hempty (q, o') ((houtside q o').mpr ⟨hq, hno, hcan⟩)
    · exact hmin (q, o') ((hlater q o').mpr ⟨hq, hq'⟩)

/-- Only a position that can spare its read gives it up. -/
theorem odd_eq_some {inside : List Nat} (h : s.odd inside = some p) : s.CanSpare p := by
  obtain ⟨o, -, ⟨-, hspare, -⟩ | ⟨hpos, -⟩⟩ := odd_cases h
  · exact hspare
  · exact .inl hpos

/-- Where there are two positions, one of them can give a read up. -/
theorem isSome_odd (h : 1 < s.orders.length) (inside : List Nat) : (s.odd inside).isSome := by
  rw [odd]
  simp only
  split
  · rfl
  · refine isSome_smallest fun hnil => ?_
    have hlength := congrArg List.length hnil
    rw [List.length_drop, List.length_map, List.length_zipIdx] at hlength
    simp only [List.length_nil] at hlength
    omega

/-! ### The orders of the candidates -/

theorem getElem?_filterMap_of_isSome {α β : Type} {f : α → Option β} {l : List α} (h : ∀ a ∈ l, (f a).isSome)
    (i : Nat) : (l.filterMap f)[i]? = l[i]?.bind f := by
  induction l generalizing i with
  | nil => rfl
  | cons a l ih =>
    obtain ⟨ha, hl⟩ := List.forall_mem_cons.mp h
    obtain ⟨b, hb⟩ := Option.isSome_iff_exists.mp ha
    rw [List.filterMap_cons_some hb]
    cases i with
    | zero => exact hb.symm
    | succ i => exact ih hl i

theorem Filled.isSome_head? (h : s.Filled) : ∀ cs ∈ s.candidates, (cs.head?.map Candidate.order).isSome := by
  intro cs hcs
  obtain ⟨i, hi⟩ := List.mem_iff_getElem?.mp hcs
  obtain ⟨c, rest, rfl⟩ := List.exists_cons_of_ne_nil (h i cs hi)
  rfl

theorem Filled.getElem?_orders (h : s.Filled) (p : Nat) :
    s.orders[p]? = s.candidates[p]?.bind fun cs => cs.head?.map Candidate.order :=
  getElem?_filterMap_of_isSome h.isSome_head? p

theorem Filled.length_orders (h : s.Filled) : s.orders.length = s.candidates.length := by
  rw [orders, List.length_filterMap_eq_countP, List.countP_eq_length]
  exact h.isSome_head?

theorem length_longestIncreasing_singleton (o : ReadOrder) : (longestIncreasing [o]).length = 1 := rfl

/-! ### Rounds -/

/-- Filled up, the candidates do not all belong to an increasing subsequence. -/
def Misses (s : Repair) : Prop :=
  ∃ s', s.fill = some s' ∧ (longestIncreasing s'.orders).length ≠ s'.candidates.length

/-- One round of repair: filling, and giving up the read of one position. -/
def Round (s s' : Repair) : Prop :=
  ∃ filled p, s.fill = some filled ∧
    (longestIncreasing filled.orders).length ≠ filled.candidates.length ∧
    filled.odd (longestIncreasing filled.orders) = some p ∧ s' = filled.pop p

/-- A number of rounds lead from one state to another one. -/
inductive Rounds : Nat → Repair → Repair → Prop
  | zero {s : Repair} : Rounds 0 s s
  | succ {k : Nat} {s s₁ s' : Repair} : Round s s₁ → Rounds k s₁ s' → Rounds (k + 1) s s'

/-- A filled state that is not in order has two positions. -/
theorem Follows.one_lt_length (h : Follows t s) (hfilled : s.Filled)
    (hmisses : (longestIncreasing s.orders).length ≠ s.candidates.length) : 1 < s.orders.length := by
  obtain ⟨c, cs, hfirst⟩ := h.first
  have hpos := (List.getElem?_eq_some_iff.mp hfirst).1
  rw [← hfilled.length_orders] at hpos hmisses
  rcases horders : s.orders with - | ⟨o, - | ⟨o', rest⟩⟩
  · rw [horders] at hpos
    exact absurd hpos (Nat.lt_irrefl 0)
  · rw [horders] at hmisses
    exact absurd (length_longestIncreasing_singleton o) hmisses
  · simp

/-- Repairing ends in order, or by the bound on the rounds. -/
theorem Follows.run (h : Follows t s) (rounds left : Nat) :
    (∃ s', s.run rounds left = .ok s' ∧ Follows t s' ∧ s'.Filled ∧
      (longestIncreasing s'.orders).length = s'.candidates.length) ∨
    (s.run rounds left = .error (.unorderableTrace (rounds + left + 1)) ∧ ∃ s', Rounds left s s' ∧ s'.Misses) := by
  induction left generalizing s rounds with
  | zero =>
    obtain ⟨s', hfill, hfollows, hfilled⟩ := h.fill
    rw [Repair.run, hfill]
    by_cases hdone : (longestIncreasing s'.orders).length = s'.candidates.length
    · exact .inl ⟨s', by simp only [if_pos hdone], hfollows, hfilled, hdone⟩
    · exact .inr ⟨by simp only [if_neg hdone, Nat.add_zero], s, .zero, s', hfill, hdone⟩
  | succ left ih =>
    obtain ⟨s', hfill, hfollows, hfilled⟩ := h.fill
    rw [Repair.run, hfill]
    by_cases hdone : (longestIncreasing s'.orders).length = s'.candidates.length
    · exact .inl ⟨s', by simp only [if_pos hdone], hfollows, hfilled, hdone⟩
    · obtain ⟨p, hodd⟩ := Option.isSome_iff_exists.mp
        (isSome_odd (hfollows.one_lt_length hfilled hdone) (longestIncreasing s'.orders))
      have hround : Round s (s'.pop p) := ⟨s', p, hfill, hdone, hodd, rfl⟩
      simp only [if_neg hdone, hodd]
      rcases ih (hfollows.pop (odd_eq_some hodd)) (rounds + 1) with hok | ⟨herror, s'', hrounds, hmisses⟩
      · exact .inl hok
      · exact .inr ⟨by rw [herror]; congr 2; omega, s'', .succ hround hrounds, hmisses⟩

end Repair

end GrammarInference
