/-
GrammarInference/Proofs/Trace/Kept.lean

The positions of an ordered trace.

Design.  When the repair ends, every position has a candidate, and their orders are one increasing subsequence.
What is left is to read off what each position keeps, by the repairs it went through, and which positions are
dropped at the end of the input.  `IsOrderOf` puts this together.
-/
import GrammarInference.Proofs.Trace.Repair

namespace GrammarInference

/-! ### The end of the input -/

/-- The values of positions at the end of an input that may be dropped: an almost unconstrained one, a null one, or
a null one before an almost unconstrained one. -/
inductive Droppable (config : OrderConfig) : List (List Nat) → Prop
  | nothing : Droppable config []
  | unconstrained {values : List Nat} : config.dropTrailingLookahead = true →
      config.unconstrainedSolutionCount < values.length → Droppable config [values]
  | null : config.dropTrailingLookahead = true → Droppable config [[0]]
  | both {values : List Nat} : config.dropTrailingLookahead = true →
      config.unconstrainedSolutionCount < values.length → Droppable config [[0], values]

theorem Droppable.length_le {config : OrderConfig} {l : List (List Nat)} (h : Droppable config l) :
    l.length ≤ 2 := by
  cases h <;> simp

theorem dropLastIf_cases {α : Type} (p : α → Bool) (l : List α) :
    dropLastIf p l = l ∨ ∃ init a, l = init ++ [a] ∧ init ≠ [] ∧ p a = true ∧ dropLastIf p l = init := by
  rw [dropLastIf]
  rcases List.eq_nil_or_concat l with rfl | ⟨init, a, rfl⟩
  · exact .inl rfl
  · rw [List.concat_eq_append, List.getLast?_concat]
    by_cases hcond : 1 < (init ++ [a]).length ∧ p a = true
    · refine .inr ⟨init, a, rfl, ?_, hcond.2, ?_⟩
      · rintro rfl
        exact absurd hcond.1 (Nat.lt_irrefl 1)
      · simp only [if_pos hcond, List.dropLast_concat]
    · exact .inl (by simp only [if_neg hcond])

/-- What is dropped at the end may be dropped, and something is left. -/
theorem dropTrailing_spec {α : Type} (config : OrderConfig) (solutions : α → List Nat) {l : List α} (hl : l ≠ []) :
    ∃ rest, l = dropTrailing config solutions l ++ rest ∧ dropTrailing config solutions l ≠ [] ∧
      Droppable config (rest.map solutions) := by
  by_cases hdrop : config.dropTrailingLookahead = true
  · rw [dropTrailing, if_pos hdrop]
    rcases dropLastIf_cases (fun a => decide (config.unconstrainedSolutionCount < (solutions a).length)) l with
      hsame | ⟨init, a, hinit, hne, ha, hdropped⟩
    · rw [hsame]
      rcases dropLastIf_cases (fun a => decide (solutions a = [0])) l with hsame | ⟨init, a, hinit, hne, ha, hdropped⟩
      · exact ⟨[], by rw [hsame, List.append_nil], by rwa [hsame], .nothing⟩
      · refine ⟨[a], by rw [hdropped, hinit], by rwa [hdropped], ?_⟩
        rw [List.map_singleton, of_decide_eq_true ha]
        exact .null hdrop
    · rw [hdropped]
      have ha' := of_decide_eq_true ha
      rcases dropLastIf_cases (fun a => decide (solutions a = [0])) init with
        hsame | ⟨init', b, hinit', hne', hb, hdropped'⟩
      · exact ⟨[a], by rw [hsame, hinit], by rwa [hsame], .unconstrained hdrop ha'⟩
      · refine ⟨[b, a], by rw [hdropped', hinit, hinit', List.append_assoc]; rfl, by rwa [hdropped'], ?_⟩
        rw [List.map_cons, List.map_singleton, of_decide_eq_true hb]
        exact .both hdrop ha'
  · refine ⟨[], ?_, ?_, .nothing⟩
    · rw [dropTrailing, if_neg hdrop, List.append_nil]
    · rwa [dropTrailing, if_neg hdrop]

/-! ### What a position keeps -/

namespace OrderedTrace

/-- What position `p` of an ordered trace keeps. -/
structure Keeps (o : OrderedTrace) (t : Trace) (p : Nat) (kept : OrderedPosition) : Prop where
  /-- It keeps the values of its record. -/
  solutions : ∃ r, t.positions[p]? = some r ∧ kept.solutions = r.values
  /-- Without a repair it keeps its last read. -/
  untouched : p ∉ o.inherited → p ∉ o.popped → kept.order.offset = 0 ∧
    ∃ i, i + 1 = t.readCount p ∧ t.Reads p i kept.order.base kept.context
  /-- If it only gave up reads, it keeps an earlier one of its own. -/
  popped : p ∉ o.inherited → p ∈ o.popped → kept.order.offset = 0 ∧
    ∃ i context, i + 1 < t.readCount p ∧ t.Reads p i kept.order.base context ∧ kept.context = pruneExternal context
  /-- If it took over a read, it keeps one of an earlier position. -/
  inherited : p ∈ o.inherited → 0 < p ∧ 1 ≤ kept.order.offset ∧ kept.order.offset ≤ p ∧
    ∃ q i context, q < p ∧ t.Reads q i kept.order.base context ∧ kept.context = pruneExternal context

/-- The ordered trace is an order of `t`. -/
structure IsOrderOf (o : OrderedTrace) (t : Trace) (config : OrderConfig) : Prop where
  /-- Some position is kept. -/
  nonempty : o.positions ≠ []
  /-- The positions that are kept are the first ones. -/
  length_le : o.positions.length ≤ t.size
  /-- At most two positions are missing. -/
  size_le : t.size ≤ o.positions.length + 2
  /-- What is missing was dropped by a rule for the end of the input. -/
  dropped : Droppable config ((t.positions.drop o.positions.length).map PositionRecord.values)
  /-- The read orders increase. -/
  increasing : o.positions.Pairwise fun a b => a.order < b.order
  /-- What each position keeps. -/
  keeps : ∀ p kept, o.positions[p]? = some kept → o.Keeps t p kept

end OrderedTrace

namespace Repair

variable {t : Trace} {s : Repair} {p : Nat} {r : PositionRecord} {c : Candidate} {cs : List Candidate}

/-- The position that keeps a candidate of a record. -/
def keeping (s : Repair) (p : Nat) (r : PositionRecord) (c : Candidate) : OrderedPosition where
  order := c.order
  context := if p ∈ s.inherited.toList ∨ p ∈ s.popped.toList then pruneExternal c.context else c.context
  solutions := r.values

/-- Every position keeps the newest of its candidates. -/
theorem Filled.getElem?_chosen (h : s.Filled) (t : Trace) (p : Nat) :
    (s.chosen t)[p]? = t.positions[p]?.bind fun r => s.candidates[p]?.bind fun cs =>
      cs.head?.map (s.keeping p r) := by
  have hsome : ∀ e ∈ (t.positions.zip s.candidates).zipIdx, (e.1.2.head?.map (s.keeping e.2 e.1.1)).isSome := by
    rintro ⟨⟨r, cs⟩, i⟩ he
    obtain ⟨j, hj⟩ := List.mem_iff_getElem?.mp (List.of_mem_zip (List.fst_mem_of_mem_zipIdx he)).2
    obtain ⟨c, rest, rfl⟩ := List.exists_cons_of_ne_nil (h j cs hj)
    rfl
  refine (getElem?_filterMap_of_isSome hsome p).trans ?_
  rw [List.getElem?_zipIdx, List.zip_eq_zipWith, List.getElem?_zipWith]
  rcases t.positions[p]? with - | r
  · rfl
  · rcases s.candidates[p]? with - | cs
    · rfl
    · simp

theorem Follows.map_order_chosen (h : Follows t s) (hfilled : s.Filled) :
    (s.chosen t).map OrderedPosition.order = s.orders := by
  refine List.ext_getElem? fun p => ?_
  rw [List.getElem?_map, hfilled.getElem?_chosen, hfilled.getElem?_orders]
  rcases hcs : s.candidates[p]? with - | cs
  · rcases t.positions[p]? with - | r <;> rfl
  · obtain ⟨r, hr⟩ := h.exists_record hcs
    rw [hr]
    cases cs <;> rfl

theorem Follows.map_solutions_chosen (h : Follows t s) (hfilled : s.Filled) :
    (s.chosen t).map OrderedPosition.solutions = t.positions.map PositionRecord.values := by
  refine List.ext_getElem? fun p => ?_
  rw [List.getElem?_map, hfilled.getElem?_chosen, List.getElem?_map]
  rcases hr : t.positions[p]? with - | r
  · rfl
  · have hlt := (List.getElem?_eq_some_iff.mp hr).1
    obtain ⟨cs, hcs⟩ : ∃ cs, s.candidates[p]? = some cs := ⟨_, List.getElem?_eq_getElem (h.length_eq ▸ hlt)⟩
    obtain ⟨c, rest, rfl⟩ := List.exists_cons_of_ne_nil (hfilled p cs hcs)
    rw [hcs]
    rfl

/-- What a position keeps, by the repairs it went through. -/
theorem Follows.keeps (h : Follows t s) (hfilled : s.Filled) {positions : List OrderedPosition}
    {kept : OrderedPosition} (hkept : (s.chosen t)[p]? = some kept) :
    OrderedTrace.Keeps ⟨positions, s.inherited, s.popped⟩ t p kept := by
  rw [hfilled.getElem?_chosen, Option.bind_eq_some_iff] at hkept
  obtain ⟨r, hr, hkept⟩ := hkept
  obtain ⟨cs, hcs, hkept⟩ := Option.bind_eq_some_iff.mp hkept
  obtain ⟨c, hhead, rfl⟩ := Option.map_eq_some_iff.mp hkept
  have hold := h.holds p cs r hcs hr
  have hc : c ∈ cs := List.mem_of_mem_head? hhead
  have hrepaired : p ∈ s.inherited ∨ p ∈ s.popped → (s.keeping p r c).context = pruneExternal c.context :=
    fun hor => if_pos hor
  refine ⟨⟨r, hr, rfl⟩, fun hi hp => ?_, fun hi hp => ?_, fun hi => ?_⟩
  · rw [hold.untouched hi hp, List.head?_eq_getElem?] at hhead
    obtain ⟨hzero, i, hlast, hreads⟩ := reads_of_mem_candidatesOf hr hhead
    have hcontext : (s.keeping p r c).context = c.context := if_neg (not_or.mpr ⟨hi, hp⟩)
    exact ⟨hzero, i, hlast, by rwa [hcontext]⟩
  · obtain ⟨k, hk⟩ := hold.popped hi hp
    rw [hk, List.head?_drop] at hhead
    obtain ⟨hzero, i, hearlier, hreads⟩ := reads_of_mem_candidatesOf hr hhead
    exact ⟨hzero, i, c.context, by omega, hreads, hrepaired (.inr hp)⟩
  · obtain ⟨hoffset, q, i, hq, hreads⟩ := hold.inherited hi c hc
    have hkeeping : (s.keeping p r c).order = c.order := rfl
    rw [hkeeping]
    exact ⟨by omega, hoffset, by omega, q, i, c.context, by omega, hreads, hrepaired (.inl hi)⟩

/-- A repair that ended in order gives an order. -/
theorem Follows.isOrderOf (h : Follows t s) (hfilled : s.Filled)
    (hdone : (longestIncreasing s.orders).length = s.candidates.length) (config : OrderConfig) :
    OrderedTrace.IsOrderOf
      ⟨dropTrailing config OrderedPosition.solutions (s.chosen t), s.inherited, s.popped⟩ t config := by
  have hsolutions := h.map_solutions_chosen hfilled
  have hsize : (s.chosen t).length = t.size := by
    have hlength := congrArg List.length hsolutions
    rwa [List.length_map, List.length_map] at hlength
  have hne : s.chosen t ≠ [] := by
    intro hnil
    rw [hnil] at hsize
    exact t.nonempty (List.eq_nil_of_length_eq_zero hsize.symm)
  have hincreasing : (s.chosen t).Pairwise fun a b => a.order < b.order := by
    rw [← List.pairwise_map (f := OrderedPosition.order) (R := (· < ·)), h.map_order_chosen hfilled]
    exact pairwise_of_length_longestIncreasing (hdone.trans hfilled.length_orders.symm)
  obtain ⟨rest, happend, hkept, hdropped⟩ := dropTrailing_spec config OrderedPosition.solutions hne
  generalize dropTrailing config OrderedPosition.solutions (s.chosen t) = kept at happend hkept ⊢
  have hrest := hdropped.length_le
  rw [List.length_map] at hrest
  have hlength : kept.length + rest.length = t.size := by rw [← hsize, happend, List.length_append]
  refine ⟨hkept, ?_, ?_, ?_, ?_, fun p position hp => ?_⟩
  · exact Nat.le_of_add_right_le (Nat.le_of_eq hlength)
  · exact Nat.le_trans (Nat.le_of_eq hlength.symm) (Nat.add_le_add_left hrest _)
  · rw [List.map_drop, ← hsolutions, happend, ← List.map_drop, List.drop_left]
    exact hdropped
  · rw [happend] at hincreasing
    exact hincreasing.sublist (List.sublist_append_left kept rest)
  · have hlt := (List.getElem?_eq_some_iff.mp hp).1
    exact h.keeps hfilled (by rw [happend, List.getElem?_append_left hlt, hp])

end Repair

/-! ### Ordering -/

/-- The rounds of repair were used up, and the candidates still miss positions. -/
def Trace.Overruns (t : Trace) (config : OrderConfig) : Prop :=
  ∃ s, Repair.Rounds (config.maxRounds t.size) (Repair.start t) s ∧ s.Misses

/-- **Ordering keeps recorded reads.**  An ordered trace is a beginning of the trace with increasing read orders,
and each position keeps a recorded read, its own or that of an earlier position.  A trace whose first position has a
read remains without an order only if the bound on the rounds is exceeded. -/
theorem orderTrace_keeps_recorded_reads (t : Trace) (config : OrderConfig) :
    (∀ o, orderTrace t config = .ok o → o.IsOrderOf t config) ∧
      ∀ e, orderTrace t config = .error e → (e = .unreadFirstPosition ∧ t.readsFirst = false) ∨
        (e = .unorderableTrace (config.maxRounds t.size + 1) ∧ t.Overruns config) := by
  rw [orderTrace]
  rcases hfirst : t.readsFirst with - | -
  · refine ⟨nofun, fun e he => ?_⟩
    cases he
    exact .inl ⟨rfl, rfl⟩
  · simp only [Bool.not_true, Bool.false_eq_true, if_false]
    rcases (Repair.follows_start hfirst).run 0 (config.maxRounds t.size) with
      ⟨s, hrun, hfollows, hfilled, hdone⟩ | ⟨hrun, hover⟩
    · rw [hrun]
      refine ⟨fun o ho => ?_, nofun⟩
      cases ho
      exact hfollows.isOrderOf hfilled hdone config
    · rw [hrun]
      refine ⟨nofun, fun e he => ?_⟩
      cases he
      exact .inr ⟨by rw [Nat.zero_add], hover⟩

/-- The first position was read once more after the others, and the last one never. -/
def rereadTrace : Trace where
  positions := [⟨[1, 6], [[], []], [65]⟩, ⟨[4], [[]], [66]⟩, ⟨[5], [[]], [67]⟩, ⟨[], [], [68]⟩]
  nonempty := List.cons_ne_nil _ _
  consistent := by simp [PositionRecord.Consistent]
  size_le := by decide

/-- The first position gives up its last read, and the last one takes over a read. -/
theorem orderTrace_rereadTrace : ∃ o, orderTrace rereadTrace {} = .ok o ∧ o.popped.toList = [0] ∧
    o.inherited.toList = [3] ∧ o.IsOrderOf rereadTrace {} := by
  obtain ⟨o, ho, hpopped, hinherited⟩ : ∃ o, orderTrace rereadTrace {} = .ok o ∧ o.popped.toList = [0] ∧
      o.inherited.toList = [3] := ⟨_, rfl, rfl, rfl⟩
  exact ⟨o, ho, hpopped, hinherited, (orderTrace_keeps_recorded_reads rereadTrace {}).1 o ho⟩

end GrammarInference
