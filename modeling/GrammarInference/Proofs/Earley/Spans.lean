/-
GrammarInference/Proofs/Earley/Spans.lean

What the spans of a chart say about the chart.

Design.  The spans are filled by one addition for each complete item, and an addition puts one pair at the end
of one list.  So a nonterminal has a span exactly where the chart has a complete item for it
(`mem_completions_ofChart_iff`).  In a finished chart these are the derivations of the nonterminals that were
begun: whatever an alternative that was begun derives is among the spans, and whatever is among the spans is
derived.
-/
import GrammarInference.Earley.Extraction
import GrammarInference.Proofs.Earley.Recognizer

namespace GrammarInference

namespace Earley

namespace Spans

/-! ### Filling the spans -/

variable {s : Spans} {t : Table} {n : String} {first : Nat} {e : Nat × Nat}

theorem mem_completions_replicate (size : Nat) : e ∉ completions (Array.replicate size ∅) n first := by
  rw [completions, Array.getElem?_replicate]
  by_cases h : first < size <;> simp [h, Std.TreeMap.get?_eq_getElem?]

@[simp] theorem size_add (s : Spans) (origin : Nat) (n : String) (last production : Nat) :
    (s.add origin n last production).size = s.size := by
  simp [add]

theorem mem_completions_add {origin last production : Nat} {m : String} (horigin : origin < s.size) :
    e ∈ (s.add origin m last production).completions n first ↔
      (origin = first ∧ m = n ∧ e = (last, production)) ∨ e ∈ s.completions n first := by
  rw [completions, completions, add, Array.getElem?_modify]
  by_cases hf : origin = first
  · subst hf
    rw [if_pos rfl, Array.getElem?_eq_getElem horigin]
    by_cases hm : m = n
    · subst hm
      simp [Std.TreeMap.get?_eq_getElem?, or_comm]
    · simp [Std.TreeMap.get?_eq_getElem?, Std.TreeMap.getElem?_alter, hm]
  · rw [if_neg hf]
    simp [hf]

/-- The item is complete and belongs to the span of `n` from `first` that is described by `e`, if it stands at
position `last`. -/
def IsCompletion (t : Table) (n : String) (first last : Nat) (e : Nat × Nat) (i : Item) : Prop :=
  t.part? i.production i.dot = none ∧ i.origin = first ∧ t.lhs i.production = n ∧ e = (last, i.production)

@[simp] theorem size_addItems (t : Table) (last : Nat) (s : Spans) (items : Array Item) :
    (addItems t last s items).size = s.size := by
  rw [addItems, ← Array.foldl_toList]
  generalize items.toList = l
  induction l generalizing s with
  | nil => rfl
  | cons i l ih =>
    rw [List.foldl_cons, ih]
    split
    · exact size_add _ _ _ _ _
    · rfl

theorem mem_completions_addItems {last : Nat} {items : Array Item}
    (horigin : ∀ i ∈ items.toList, i.origin < s.size) :
    e ∈ (addItems t last s items).completions n first ↔
      (∃ i ∈ items.toList, IsCompletion t n first last e i) ∨ e ∈ s.completions n first := by
  rw [addItems, ← Array.foldl_toList]
  generalize items.toList = l at horigin ⊢
  induction l generalizing s with
  | nil => simp
  | cons i l ih =>
    obtain ⟨hi, hl⟩ := List.forall_mem_cons.mp horigin
    rw [List.foldl_cons]
    by_cases hnone : t.part? i.production i.dot = none
    · rw [if_pos (Option.isNone_iff_eq_none.mpr hnone), ih (by rw [size_add]; exact hl),
        mem_completions_add hi, List.exists_mem_cons_iff, or_assoc, or_left_comm]
      simp only [IsCompletion, hnone, true_and]
    · have hnot : ¬ IsCompletion t n first last e i := fun h => hnone h.1
      rw [if_neg (fun h => hnone (Option.isNone_iff_eq_none.mp h)), ih hl, List.exists_mem_cons_iff]
      simp only [hnot, false_or]

/-- Sets with their positions are added one after the other. -/
theorem mem_completions_foldl_addItems {sets : List (ItemSet × Nat)}
    (horigin : ∀ p ∈ sets, ∀ i ∈ p.1.items.toList, i.origin < s.size) :
    e ∈ (sets.foldl (fun s (set, last) => addItems t last s set.items) s).completions n first ↔
      (∃ p ∈ sets, ∃ i ∈ p.1.items.toList, IsCompletion t n first p.2 e i) ∨ e ∈ s.completions n first := by
  induction sets generalizing s with
  | nil => simp
  | cons p sets ih =>
    obtain ⟨hp, hsets⟩ := List.forall_mem_cons.mp horigin
    rw [List.foldl_cons, ih (by rw [size_addItems]; exact hsets), mem_completions_addItems hp,
      List.exists_mem_cons_iff, or_assoc, or_left_comm]

/-- The spans of a chart are its complete items. -/
theorem mem_completions_ofChart_iff {chart : Chart} (horigin : ∀ j, ∀ i ∈ chart.listAt j, i.origin < chart.size) :
    e ∈ (ofChart t chart).completions n first ↔
      ∃ i ∈ chart.listAt e.1, t.part? i.production i.dot = none ∧ i.origin = first ∧
        t.lhs i.production = n ∧ i.production = e.2 := by
  -- each set is numbered by its position
  have hset : ∀ p ∈ chart.toList.zipIdx, chart.listAt p.2 = p.1.items.toList := by
    rintro ⟨set, j⟩ hp
    have hget : chart.toList[j]? = some set := List.mem_zipIdx_iff_getElem?.mp hp
    rw [Array.getElem?_toList] at hget
    exact Chart.listAt_of_getElem? hget
  have hsize : ∀ p ∈ chart.toList.zipIdx, ∀ i ∈ p.1.items.toList,
      i.origin < (Array.replicate chart.size ∅ : Spans).size := by
    intro p hp i hi
    rw [Array.size_replicate]
    exact horigin p.2 i (hset p hp ▸ hi)
  have hnone : e ∉ completions (Array.replicate chart.size ∅) n first := mem_completions_replicate chart.size
  rw [ofChart]
  refine (mem_completions_foldl_addItems hsize).trans ?_
  constructor
  · rintro (⟨p, hp, i, hi, hpart, hfirst, hlhs, rfl⟩ | h)
    · exact ⟨i, hset p hp ▸ hi, hpart, hfirst, hlhs, rfl⟩
    · exact absurd h hnone
  · rintro ⟨i, hi, hpart, hfirst, hlhs, he⟩
    have hj : e.1 < chart.size := Chart.lt_size_of_mem hi
    have hget : chart[e.1]? = some chart[e.1] := Array.getElem?_eq_getElem hj
    rw [Chart.listAt_of_getElem? hget] at hi
    have hp : (chart[e.1], e.1) ∈ chart.toList.zipIdx := by
      rw [List.mem_zipIdx_iff_getElem?, Array.getElem?_toList]
      exact hget
    exact .inl ⟨_, hp, i, hi, hpart, hfirst, hlhs, Prod.ext rfl he.symm⟩

/-! ### Reading the spans -/

theorem mem_productions_iff {q : Span} {k : Nat} :
    k ∈ s.productions q ↔ (q.last, k) ∈ s.completions q.name q.first := by
  rw [productions, List.mem_map]
  constructor
  · rintro ⟨⟨e, m⟩, hm, rfl⟩
    obtain ⟨hmem, he⟩ := List.mem_filter.mp hm
    obtain rfl : e = q.last := of_decide_eq_true he
    exact hmem
  · intro h
    exact ⟨(q.last, k), List.mem_filter.mpr ⟨h, decide_eq_true rfl⟩, rfl⟩

theorem mem_dropRepeats_iff {l : List Nat} {a : Nat} : a ∈ dropRepeats l ↔ a ∈ l := by
  induction l with
  | nil => rw [dropRepeats]
  | cons b l ih =>
    rw [List.mem_cons, ← ih, dropRepeats]
    rcases dropRepeats l with - | ⟨d, rest⟩
    · simp
    · by_cases hbd : b = d
      · simp [hbd]
      · simp [hbd]

theorem mem_ends_iff {last a : Nat} {exactly : Bool} :
    a ∈ s.ends n first last exactly ↔
      (∃ k, (a, k) ∈ s.completions n first) ∧ (if exactly then a = last else a ≤ last) := by
  rw [ends, mem_dropRepeats_iff, List.mem_filter, List.mem_map]
  refine and_congr ⟨?_, ?_⟩ ?_
  · rintro ⟨⟨b, k⟩, h, rfl⟩
    exact ⟨k, h⟩
  · rintro ⟨k, h⟩
    exact ⟨(a, k), h, rfl⟩
  · cases exactly <;> simp

end Spans

/-! ### The spans of a finished chart -/

namespace Chart

variable {g : Grammar} {input : Array Char} {start : String} {c : Chart}

/-- A span is an alternative that was recognized from its first to its last position. -/
theorem Sound.mem_completions_iff (h : Sound g input c) {n : String} {first last k : Nat} :
    (last, k) ∈ (Spans.ofChart (.ofGrammar g) c).completions n first ↔
      ∃ p, (Table.ofGrammar g).productions[k]? = some p ∧ p.lhs = n ∧
        ⟨k, p.rule.length, first⟩ ∈ c.listAt last := by
  have horigin : ∀ j, ∀ i ∈ c.listAt j, i.origin < c.size := fun j i hi =>
    h.lt_size (Nat.le_trans (h.derived j i hi).origin_le (h.le_of_mem hi))
  rw [Spans.mem_completions_ofChart_iff horigin]
  constructor
  · rintro ⟨⟨m, dot, o⟩, hi, hpart, rfl, rfl, rfl⟩
    obtain ⟨p, hp, hdot, -, -⟩ := h.derived last _ hi
    have hp' : (Table.ofGrammar g).productions[m]? = some p := hp
    obtain rfl : dot = p.rule.length := by
      rw [Table.part?_of_production hp', Array.getElem?_eq_none_iff, ← p.length_rule] at hpart
      exact Nat.le_antisymm hdot hpart
    exact ⟨p, hp', (Table.lhs_of_production hp').symm, hi⟩
  · rintro ⟨p, hp, rfl, hi⟩
    exact ⟨_, hi, part?_length_rule hp, rfl, Table.lhs_of_production hp, rfl⟩

end Chart

end Earley

end GrammarInference
