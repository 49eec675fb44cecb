/-
GrammarInference/Proofs/Trace/Order.lean

Ordering a trace makes up no calls.

Design.  The repair only moves and drops reads: a position that takes over a read takes over its call stack, and
a call stack is only ever cut.  So whatever holds of all frames of a trace holds of all frames of its ordered
positions.  `Frames P` says this for the reads that are left during the repair.
-/
import GrammarInference.Trace.Order

namespace GrammarInference

variable {P : Frame → Prop}

/-- All frames of all call stacks of a trace have the property. -/
def Trace.Frames (P : Frame → Prop) (t : Trace) : Prop :=
  ∀ r ∈ t.positions, ∀ context ∈ r.contexts, ∀ f ∈ context, P f

instance [DecidablePred P] (t : Trace) : Decidable (t.Frames P) :=
  inferInstanceAs (Decidable (∀ r ∈ t.positions, ∀ context ∈ r.contexts, ∀ f ∈ context, P f))

/-- A call stack is only cut where an unobserved call is dropped. -/
theorem pruneExternal_subset (context : CallStack) : pruneExternal context ⊆ context := by
  rw [pruneExternal]
  rcases context.getLast? with - | f
  · exact List.Subset.refl _
  · show (if f.isUnobserved then context.dropLast else context) ⊆ context
    split
    · exact List.dropLast_subset context
    · exact List.Subset.refl _

namespace Repair

variable {s s' : Repair}

/-- All frames of the reads that are left have the property. -/
def Frames (P : Frame → Prop) (candidates : List (List Candidate)) : Prop :=
  ∀ cs ∈ candidates, ∀ c ∈ cs, ∀ f ∈ c.context, P f

theorem frames_start {t : Trace} (h : t.Frames P) : Frames P (start t).candidates := by
  intro cs hcs c hc f hf
  obtain ⟨r, hr, rfl⟩ := List.mem_map.mp hcs
  rw [candidatesOf, List.mem_reverse, ← List.map_uncurry_zip_eq_zipWith] at hc
  obtain ⟨⟨o, context⟩, hmem, rfl⟩ := List.mem_map.mp hc
  exact h r hr context (List.of_mem_zip hmem).2 f hf

theorem frames_inherit {previous : Option Candidate} {p : Nat} {l l' : List (List Candidate)} {ps : List Nat}
    (hprevious : ∀ c ∈ previous, ∀ f ∈ c.context, P f) (hl : Frames P l)
    (h : inherit previous p l = some (l', ps)) : Frames P l' := by
  induction l generalizing previous p l' ps with
  | nil =>
    cases h
    exact hl
  | cons cs rest ih =>
    obtain ⟨hcs, hrest⟩ := List.forall_mem_cons.mp hl
    cases cs with
    | cons c cs =>
      -- the first read is the one that a position without reads takes over
      rw [inherit, Option.map_eq_some_iff] at h
      obtain ⟨⟨l₁, ps₁⟩, h₁, heq⟩ := h
      cases heq
      refine List.forall_mem_cons.mpr ⟨hcs, ih ?_ hrest h₁⟩
      intro a ha
      cases ha
      exact hcs c List.mem_cons_self
    | nil =>
      cases previous with
      | none => cases h
      | some c =>
        have hc : ∀ f ∈ c.context, P f := hprevious c rfl
        rw [inherit, Option.map_eq_some_iff] at h
        obtain ⟨⟨l₁, ps₁⟩, h₁, heq⟩ := h
        cases heq
        refine List.forall_mem_cons.mpr ⟨List.forall_mem_singleton.mpr hc, ih ?_ hrest h₁⟩
        intro a ha
        cases ha
        exact hc

theorem frames_fill (hs : Frames P s.candidates) (h : s.fill = some s') : Frames P s'.candidates := by
  rw [fill, Option.map_eq_some_iff] at h
  obtain ⟨⟨l, ps⟩, hl, rfl⟩ := h
  exact frames_inherit (fun c hc => by cases hc) hs hl

theorem frames_pop (hs : Frames P s.candidates) (p : Nat) : Frames P (s.pop p).candidates := by
  intro cs hcs c hc
  obtain ⟨i, hi⟩ := List.mem_iff_getElem?.mp hcs
  rw [pop, List.getElem?_modify] at hi
  obtain ⟨cs', hcs', rfl⟩ := Option.map_eq_some_iff.mp hi
  have hsub : (if p = i then cs'.tail else cs') ⊆ cs' := by
    split
    · exact (List.tail_sublist cs').subset
    · exact List.Subset.refl _
  exact hs cs' (List.mem_of_getElem? hcs') c (hsub hc)

/-- Repairing keeps the property of all frames. -/
theorem frames_run {rounds left : Nat} (hs : Frames P s.candidates) (h : s.run rounds left = .ok s') :
    Frames P s'.candidates := by
  induction left generalizing s rounds with
  | zero =>
    rw [run] at h
    rcases hfill : s.fill with - | s₁
    · simp only [hfill] at h
      cases h
    · simp only [hfill] at h
      split at h
      · cases h
        exact frames_fill hs hfill
      · cases h
  | succ left ih =>
    rw [run] at h
    rcases hfill : s.fill with - | s₁
    · simp only [hfill] at h
      cases h
    · have hs₁ := frames_fill hs hfill
      simp only [hfill] at h
      split at h
      · cases h
        exact hs₁
      · rcases hodd : s₁.odd (longestIncreasing s₁.orders) with - | p
        · simp only [hodd] at h
          cases h
        · simp only [hodd] at h
          exact ih (frames_pop hs₁ p) h

theorem frames_chosen (t : Trace) (hs : Frames P s.candidates) : ∀ p ∈ s.chosen t, ∀ f ∈ p.context, P f := by
  intro p hp f hf
  obtain ⟨⟨⟨r, cs⟩, i⟩, hmem, hsome⟩ := List.mem_filterMap.mp hp
  obtain ⟨c, hc, rfl⟩ := Option.map_eq_some_iff.mp hsome
  have hcs : cs ∈ s.candidates := (List.of_mem_zip (List.fst_mem_of_mem_zipIdx hmem)).2
  refine hs cs hcs c (List.mem_of_mem_head? hc) f ?_
  by_cases hcut : i ∈ s.inherited.toList ∨ i ∈ s.popped.toList
  · exact pruneExternal_subset c.context (by simpa [hcut] using hf)
  · simpa [hcut] using hf

end Repair

theorem dropLastIf_subset {α : Type} (p : α → Bool) (l : List α) : dropLastIf p l ⊆ l := by
  rw [dropLastIf]
  rcases l.getLast? with - | a
  · exact List.Subset.refl _
  · show (if 1 < l.length ∧ p a then l.dropLast else l) ⊆ l
    split
    · exact List.dropLast_subset l
    · exact List.Subset.refl _

theorem dropTrailing_subset {α : Type} (config : OrderConfig) (solutions : α → List Nat) (l : List α) :
    dropTrailing config solutions l ⊆ l := by
  rw [dropTrailing]
  split
  · exact List.Subset.trans (dropLastIf_subset _ _) (dropLastIf_subset _ _)
  · exact List.Subset.refl _

/-- Ordering a trace makes up no frames. -/
theorem frames_orderTrace {t : Trace} {config : OrderConfig} {o : OrderedTrace} (ht : t.Frames P)
    (h : orderTrace t config = .ok o) : ∀ p ∈ o.positions, ∀ f ∈ p.context, P f := by
  rw [orderTrace] at h
  split at h
  · cases h
  · rcases hrun : (Repair.start t).run 0 (config.maxRounds t.size) with e | s
    · simp only [hrun] at h
      cases h
    · simp only [hrun] at h
      cases h
      intro p hp
      refine Repair.frames_chosen t (Repair.frames_run (Repair.frames_start ht) hrun) p ?_
      exact dropTrailing_subset config OrderedPosition.solutions _ hp

end GrammarInference
