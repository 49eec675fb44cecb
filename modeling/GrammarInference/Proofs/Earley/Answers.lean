/-
GrammarInference/Proofs/Earley/Answers.lean

What a search for trees keeps, and what its answers mean.

Design.  A search is `Ready` if no dead end was remembered without reason and the questions that are being
answered are different and among finitely many; `left` bounds how many more can be asked inside them.  A search
`Leads` to another one if that one is ready, has the same questions, and keeps all nodes.  An answer is a
`Reply`: what is found is right, and what is absent is absent in a sense that depends on the cuts.  Nothing is
there that repeats no question (`Free`); if nothing was cut off, then nothing is there at all (`Any`).  Only the
second may be remembered (`Leads.fail`), and only the first is what completeness needs.
-/
import GrammarInference.Proofs.Earley.Fits
import GrammarInference.Proofs.Earley.Table
import GrammarInference.Proofs.Tree.Stored

namespace GrammarInference

namespace Earley

/-! ### Gaps in a look-up tree -/

theorem Gap.compare_eq (a b : Gap) : compare a b =
    compareLex (compareOn Gap.first) (compareLex (compareOn Gap.last)
      (compareLex (compareOn Gap.production) (compareOn Gap.part))) a b := rfl

instance : Std.TransOrd Gap := inferInstanceAs <| Std.TransCmp
  (compareLex (compareOn Gap.first) (compareLex (compareOn Gap.last)
    (compareLex (compareOn Gap.production) (compareOn Gap.part))))

instance : Std.LawfulEqOrd Gap where
  compare_self := by
    intro a
    rw [Gap.compare_eq]
    simp [compareLex, compareOn]
  eq_of_compare := by
    intro a b h
    rw [Gap.compare_eq] at h
    obtain ⟨f, l, p, k⟩ := a
    obtain ⟨f', l', p', k'⟩ := b
    simp only [compareLex, compareOn, Ordering.then_eq_eq, Nat.compare_eq_eq] at h
    obtain ⟨rfl, rfl, rfl, rfl⟩ := h
    rfl

/-! ### Questions -/

/-- All questions for trees that the productions of a grammar can raise over an input. -/
def questions (g : Grammar) (input : Array Char) : List Span :=
  (Table.productionList g).flatMap fun p => (List.range (input.size + 1)).flatMap fun a =>
    (List.range (input.size + 1)).map fun b => ⟨a, b, p.lhs⟩

variable {g : Grammar} {input : Array Char}

theorem length_questions : (questions g input).length =
    (Table.ofGrammar g).productions.size * ((input.size + 1) * (input.size + 1)) := by
  simp [questions, Table.ofGrammar, List.length_flatMap]

theorem mem_questions {q : Span} {k : Nat} {p : Production}
    (hp : (Table.ofGrammar g).productions[k]? = some p) (hlhs : p.lhs = q.name) (hfirst : q.first ≤ q.last)
    (hlast : q.last ≤ input.size) : q ∈ questions g input := by
  have hmem : p ∈ Table.productionList g := List.mem_of_getElem? (Table.productions_ofGrammar_eq_some.mp hp)
  refine List.mem_flatMap.mpr ⟨p, hmem, List.mem_flatMap.mpr ⟨q.first, List.mem_range.mpr (by omega), ?_⟩⟩
  exact List.mem_map.mpr ⟨q.last, List.mem_range.mpr (by omega), by rw [hlhs]⟩

/-- The parts of the production from the part of the gap on derive what the gap spans. -/
def Gap.Derived (g : Grammar) (input : Array Char) (gap : Gap) : Prop :=
  ∃ p, (Table.ofGrammar g).productions[gap.production]? = some p ∧
    Grammar.Derives g (p.rule.drop gap.part) (segment input gap.first gap.last)

/-! ### Searches -/

namespace Search

/-- The search holds right dead ends and open questions, and fewer than `left` questions can be asked inside
those. -/
structure Ready (g : Grammar) (input : Array Char) (left : Nat) (s : Search) : Prop where
  /-- The deadline never comes. -/
  deadline : s.checkpoint.deadline = .never
  /-- A dead end is one. -/
  dead : ∀ gap, s.failed.contains gap = true → ¬ gap.Derived g input
  /-- No question is asked inside itself. -/
  nodup : s.active.Nodup
  /-- There are only so many questions. -/
  known : s.active ⊆ questions g input
  /-- The questions that are left. -/
  lt_left : (questions g input).length < s.active.length + left

variable {left : Nat} {s s' s'' : Search}

theorem Ready.pos (h : Ready g input left s) : 0 < left := by
  have hle := (h.nodup.subperm h.known).length_le
  have hlt := h.lt_left
  omega

theorem Ready.checkpoint (h : Ready g input left s) {cp : Checkpoint} (hcp : cp.deadline = .never) :
    Ready g input left { s with checkpoint := cp } :=
  ⟨hcp, h.dead, h.nodup, h.known, h.lt_left⟩

/-- A new question is asked. -/
theorem Ready.ask (h : Ready g input (left + 1) s) {q : Span} (hq : q ∈ questions g input)
    (hnew : q ∉ s.active) : Ready g input left { s with active := q :: s.active } where
  deadline := h.deadline
  dead := h.dead
  nodup := List.nodup_cons.mpr ⟨hnew, h.nodup⟩
  known := List.cons_subset.mpr ⟨hq, h.known⟩
  lt_left := by
    have hlt := h.lt_left
    rw [List.length_cons]
    omega

/-- The search `s` goes on to `s'`, at the same questions. -/
structure Leads (g : Grammar) (input : Array Char) (left : Nat) (s s' : Search) : Prop where
  /-- The later search is ready. -/
  ready : Ready g input left s'
  /-- The questions are the same. -/
  active_eq : s'.active = s.active
  /-- The nodes are kept. -/
  arena : s.arena.Extends s'.arena
  /-- Cuts are counted. -/
  cuts_le : s.cuts ≤ s'.cuts

theorem Ready.leads_refl (h : Ready g input left s) : Leads g input left s s :=
  ⟨h, rfl, Arena.Extends.refl _, Nat.le_refl _⟩

theorem Leads.trans (h : Leads g input left s s') (h' : Leads g input left s' s'') : Leads g input left s s'' :=
  ⟨h'.ready, h'.active_eq.trans h.active_eq, h.arena.trans h'.arena, Nat.le_trans h.cuts_le h'.cuts_le⟩

/-- If nothing was cut off on the whole way, then nothing was cut off on its two parts. -/
theorem Leads.cuts_eq (h : Leads g input left s s') (h' : Leads g input left s' s'') (hcuts : s''.cuts = s.cuts) :
    s'.cuts = s.cuts ∧ s''.cuts = s'.cuts := by
  have hle := h.cuts_le
  have hle' := h'.cuts_le
  omega

theorem Leads.alloc (h : Leads g input left s s') (x : Symbol) (ids : List NodeId) :
    Leads g input left s (s'.alloc x ids).2 where
  ready := ⟨h.ready.deadline, h.ready.dead, h.ready.nodup, h.ready.known, h.ready.lt_left⟩
  active_eq := h.active_eq
  arena := h.arena.trans (Arena.extends_alloc s'.arena x ids)
  cuts_le := h.cuts_le

/-- A question that was asked and answered is taken back. -/
theorem Leads.answer {q : Span} (hs : Ready g input (left + 1) s)
    (h : Leads g input left { s with active := q :: s.active } s') :
    Leads g input (left + 1) s { s' with active := s'.active.erase q } := by
  have hactive : s'.active.erase q = s.active := by
    rw [h.active_eq]
    exact List.erase_cons_head q s.active
  refine ⟨⟨h.ready.deadline, h.ready.dead, ?_, ?_, ?_⟩, hactive, h.arena, h.cuts_le⟩
  · show (s'.active.erase q).Nodup
    rw [hactive]
    exact hs.nodup
  · show s'.active.erase q ⊆ questions g input
    rw [hactive]
    exact hs.known
  · show (questions g input).length < (s'.active.erase q).length + (left + 1)
    rw [hactive]
    exact hs.lt_left

@[simp] theorem cuts_fail (s : Search) (gap : Gap) (cuts : Nat) : (s.fail gap cuts).cuts = s.cuts := by
  rw [fail]
  split <;> rfl

/-- A dead end may be remembered if it is one whenever nothing was cut off. -/
theorem Leads.fail (h : Leads g input left s s') {gap : Gap} (hgap : s'.cuts = s.cuts → ¬ gap.Derived g input) :
    Leads g input left s (s'.fail gap s.cuts) := by
  rw [Search.fail]
  by_cases hcuts : s'.cuts = s.cuts
  · rw [if_pos hcuts]
    refine ⟨⟨h.ready.deadline, ?_, h.ready.nodup, h.ready.known, h.ready.lt_left⟩, h.active_eq, h.arena,
      h.cuts_le⟩
    intro d hd
    rw [Std.TreeSet.contains_insert, Bool.or_eq_true, beq_iff_eq, Std.compare_eq_iff_eq] at hd
    rcases hd with rfl | hd
    · exact hgap hcuts
    · exact h.ready.dead d hd
  · rw [if_neg hcuts]
    exact h

/-! ### Answers -/

/-- What an answer to a question tells that was asked in the search `s`. -/
inductive Reply {α : Type} (g : Grammar) (input : Array Char) (left : Nat) (s : Search)
    (Found : α → Arena → Prop) (Free Any : Prop) : Answer α × Search → Prop
  | found {a : α} {s' : Search} : Leads g input left s s' → Found a s'.arena →
      Reply g input left s Found Free Any (.found a, s')
  | absent {s' : Search} : Leads g input left s s' → ¬ Free → (s'.cuts = s.cuts → ¬ Any) →
      Reply g input left s Found Free Any (.absent, s')

theorem Reply.leads {α : Type} {Found : α → Arena → Prop} {Free Any : Prop} {r : Answer α × Search}
    (h : Reply g input left s Found Free Any r) : Leads g input left s r.2 := by
  cases h with
  | found hleads _ => exact hleads
  | absent hleads _ _ => exact hleads

theorem Reply.imp {α : Type} {Found Found' : α → Arena → Prop} {Free Free' Any Any' : Prop}
    {r : Answer α × Search} (h : Reply g input left s Found Free Any r) (hfound : ∀ a b, Found a b → Found' a b)
    (hfree : Free' → Free) (hany : Any' → Any) : Reply g input left s Found' Free' Any' r := by
  cases h with
  | found hleads ha => exact .found hleads (hfound _ _ ha)
  | absent hleads hnot hnone => exact .absent hleads (fun hf => hnot (hfree hf)) fun hc ha => hnone hc (hany ha)

variable {α β : Type} {Found : β → Arena → Prop} {Free Any : α → Prop}

/-- The choices are tried one after the other, so none is there if each of them is absent. -/
theorem firstFound_reply {attempt : α → Search → Answer β × Search} {l : List α} (hs : Ready g input left s)
    (h : ∀ a ∈ l, ∀ s', Leads g input left s s' →
      Reply g input left s' Found (Free a) (Any a) (attempt a s')) :
    Reply g input left s Found (∃ a ∈ l, Free a) (∃ a ∈ l, Any a) (firstFound attempt l s) := by
  induction l generalizing s with
  | nil => exact .absent hs.leads_refl (by simp) fun _ => by simp
  | cons a l ih =>
    obtain ⟨ha, hl⟩ := List.forall_mem_cons.mp h
    have hreply := ha s hs.leads_refl
    rw [firstFound]
    generalize attempt a s = r at hreply ⊢
    cases hreply with
    | found hleads hfound => exact .found hleads hfound
    | @absent s' hleads hfree hany =>
      have hrest := ih hleads.ready fun b hb s'' hs'' => hl b hb s'' (hleads.trans hs'')
      show Reply g input left s Found _ _ (firstFound attempt l s')
      generalize firstFound attempt l s' = r at hrest ⊢
      cases hrest with
      | found hleads' hfound => exact .found (hleads.trans hleads') hfound
      | absent hleads' hfree' hany' =>
        refine .absent (hleads.trans hleads') ?_ fun hcuts => ?_
        · rw [List.exists_mem_cons_iff]
          exact fun hor => hor.elim hfree hfree'
        · -- no cut in all means none for the first choice and none for the others
          obtain ⟨hcuts₁, hcuts₂⟩ := hleads.cuts_eq hleads' hcuts
          rw [List.exists_mem_cons_iff]
          exact fun hor => hor.elim (hany hcuts₁) (hany' hcuts₂)

end Search

end Earley

end GrammarInference
