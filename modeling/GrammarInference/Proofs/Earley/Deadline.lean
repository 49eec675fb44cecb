/-
GrammarInference/Proofs/Earley/Deadline.lean

A deadline cuts a parse short, and changes nothing else.

Design.  An operation with a deadline goes through the same states as the one without, up to the deadline that
it carries along, until it gives up.  So each loop is compared with itself: from a state and from the same state
with all the time in the world (`patient`) it comes to the same results, unless it is interrupted (`Agrees`).
What is known about parses that never end too soon thus holds for all that end at all.

    parseFrom t arena start input deadline  =  parseFrom t arena start input .never,  or it times out
-/
import GrammarInference.Proofs.Earley.Parse

namespace GrammarInference

/-- The same count of steps, without a deadline. -/
def Checkpoint.patient (c : Checkpoint) : Checkpoint := { c with deadline := .never }

theorem Checkpoint.tick_patient (c : Checkpoint) : c.patient.tick = (false, c.tick.2.patient) := by
  simp [tick, patient, Deadline.hasPassed]

namespace Earley

/-! ### The chart -/

namespace Chart

variable {t : Table} {input : Array Char}

theorem fillSet_patient {j fuel i : Nat} {c c' : Chart} {cp cp' : Checkpoint}
    (h : fillSet t input j fuel i c cp = some (c', cp')) :
    fillSet t input j fuel i c cp.patient = some (c', cp'.patient) := by
  induction fuel generalizing i c cp with
  | zero =>
    cases h
    rfl
  | succ fuel ih =>
    rw [fillSet] at h ⊢
    rcases hitem : c.item? j i with - | item
    · simp only [hitem] at h
      cases h
      rfl
    · simp only [hitem] at h
      simp only [cp.tick_patient]
      rcases htick : cp.tick with ⟨- | -, cp₁⟩
      · simp only [htick] at h
        exact ih h
      · simp only [htick] at h
        cases h

theorem fillSets_patient {left j : Nat} {c c' : Chart} {cp : Checkpoint}
    (h : fillSets t input left j c cp = some c') : fillSets t input left j c cp.patient = some c' := by
  induction left generalizing j c cp with
  | zero => exact h
  | succ left ih =>
    rw [fillSets] at h ⊢
    rcases hset : fillSet t input j (capacity t j) 0 c cp with - | ⟨c₁, cp₁⟩
    · simp only [hset] at h
      cases h
    · simp only [hset] at h
      simp only [fillSet_patient hset]
      exact ih h

/-- A chart that is finished in time is the one without a deadline. -/
theorem build_never_of_build {start : String} {deadline : Deadline} {c : Chart}
    (h : build t input start deadline = some c) : build t input start .never = some c :=
  fillSets_patient h

end Chart

/-! ### The search for a tree -/

namespace Search

variable {α β : Type} {ctx : Context}

/-- The same search, without a deadline. -/
def patient (s : Search) : Search := { s with checkpoint := s.checkpoint.patient }

/-- Without a deadline the answer is the same, unless the search gave up. -/
def Agrees (f : Search → Answer α × Search) : Prop :=
  ∀ s a s', f s = (a, s') → a = .interrupted ∨ f s.patient = (a, s'.patient)

theorem agrees_firstFound {attempt : α → Search → Answer β × Search} (h : ∀ a, Agrees (attempt a)) (l : List α) :
    Agrees (firstFound attempt l) := by
  induction l with
  | nil =>
    intro s a s' hs
    cases hs
    exact .inr rfl
  | cons x l ih =>
    intro s a s' hs
    rw [firstFound] at hs ⊢
    rcases hx : attempt x s with ⟨y | - | -, s₁⟩
    · simp only [hx] at hs
      cases hs
      rcases h x s _ _ hx with hno | hsame
      · cases hno
      · exact .inr (by rw [hsame])
    · simp only [hx] at hs
      rcases h x s _ _ hx with hno | hsame
      · cases hno
      · rw [hsame]
        exact ih s₁ a s' hs
    · simp only [hx] at hs
      cases hs
      exact .inl rfl

theorem fail_patient (s : Search) (gap : Gap) (cuts : Nat) : s.patient.fail gap cuts = (s.fail gap cuts).patient := by
  rw [fail, fail]
  split
  · rename_i h
    rw [if_pos (show s.cuts = cuts from h)]
    rfl
  · rename_i h
    rw [if_neg (show ¬s.cuts = cuts from h)]

theorem agrees_derive_succ {fuel : Nat} (hfit : ∀ gap, Agrees (fit ctx fuel gap)) (q : Span) :
    Agrees (derive ctx (fuel + 1) q) := by
  intro s a s' hs
  by_cases hactive : q ∈ s.active
  · rw [derive_of_active hactive] at hs
    cases hs
    exact .inr (derive_of_active (s := s.patient) hactive)
  · have hopen : q ∉ s.patient.active := hactive
    rw [derive_of_not_active hactive] at hs
    rw [derive_of_not_active hopen]
    rcases hfirst : firstFound (fun k s => fit ctx fuel ⟨q.first, q.last, k, 0⟩ s) (ctx.spans.productions q)
        { s with active := q :: s.active } with ⟨answer, s₁⟩
    rw [hfirst] at hs
    rcases agrees_firstFound (fun k => hfit _) _ _ _ _ hfirst with rfl | hsame
    · cases hs
      exact .inl rfl
    · right
      refine (congrArg (closeQuestion q) hsame).trans ?_
      cases answer <;> cases hs <;> rfl

theorem agrees_fitText {fuel : Nat} (hfit : ∀ gap, Agrees (fit ctx fuel gap)) (gap : Gap) (w : List Char) :
    Agrees (fitText ctx fuel gap w) := by
  intro s a s' hs
  rw [fitText] at hs ⊢
  split at hs
  · rename_i hmatch
    rw [if_pos hmatch]
    rcases hrest : fit ctx fuel ⟨gap.first + w.length, gap.last, gap.production, gap.part + 1⟩ s with ⟨answer, s₁⟩
    rw [hrest] at hs
    rcases hfit _ s _ _ hrest with rfl | hsame
    · cases hs
      exact .inl rfl
    · right
      rw [hsame]
      cases answer with
      | absent =>
        cases hs
        exact congrArg (Prod.mk _) (fail_patient s₁ gap s.cuts)
      | _ =>
        cases hs
        rfl
  · rename_i hmatch
    rw [if_neg hmatch]
    cases hs
    exact .inr (congrArg (Prod.mk _) (fail_patient s gap s.cuts))

theorem agrees_fitEnd {fuel : Nat} (hfit : ∀ gap, Agrees (fit ctx fuel gap))
    (hderive : ∀ q, Agrees (derive ctx fuel q)) (gap : Gap) (n : String) (e : Nat) :
    Agrees (fitEnd ctx fuel gap n e) := by
  intro s a s' hs
  rw [fitEnd] at hs ⊢
  rcases hrest : fit ctx fuel ⟨e, gap.last, gap.production, gap.part + 1⟩ s with ⟨answer, s₁⟩
  rw [hrest] at hs
  rcases hfit _ s _ _ hrest with rfl | hsame
  · cases hs
    exact .inl rfl
  · rw [hsame]
    cases answer with
    | found rest =>
      simp only at hs ⊢
      rcases htree : derive ctx fuel ⟨gap.first, e, n⟩ s₁ with ⟨answer, s₂⟩
      rw [htree] at hs
      rcases hderive _ s₁ _ _ htree with rfl | hsame'
      · cases hs
        exact .inl rfl
      · right
        rw [hsame']
        cases answer <;> cases hs <;> rfl
    | _ =>
      cases hs
      exact .inr rfl

theorem agrees_fitName {fuel : Nat} (hfit : ∀ gap, Agrees (fit ctx fuel gap))
    (hderive : ∀ q, Agrees (derive ctx fuel q)) (gap : Gap) (n : String) : Agrees (fitName ctx fuel gap n) := by
  intro s a s' hs
  rw [fitName] at hs ⊢
  rcases hfirst : firstFound (fitEnd ctx fuel gap n) (ctx.spans.ends n gap.first gap.last
    (ctx.table.part? gap.production (gap.part + 1)).isNone) s with ⟨answer, s₁⟩
  rw [hfirst] at hs
  rcases agrees_firstFound (agrees_fitEnd hfit hderive gap n) _ _ _ _ hfirst with rfl | hsame
  · cases hs
    exact .inl rfl
  · right
    rw [hsame]
    cases answer with
    | absent =>
      cases hs
      exact congrArg (Prod.mk _) (fail_patient s₁ gap s.cuts)
    | _ =>
      cases hs
      rfl

/-- A question for a fit that does not give up at once goes by the part that stands at the gap. -/
theorem fit_of_tick {fuel : Nat} {gap : Gap} {s : Search} {cp : Checkpoint}
    (htick : s.checkpoint.tick = (false, cp)) :
    fit ctx (fuel + 1) gap s =
      let s₁ := { s with checkpoint := cp }
      match ctx.table.part? gap.production gap.part with
      | none => if gap.first = gap.last then (.found [], s₁) else (.absent, s₁)
      | some part =>
        if s.failed.contains gap then (.absent, s₁)
        else
          match part with
          | .text w => fitText ctx fuel gap w s₁
          | .name n => fitName ctx fuel gap n s₁ := by
  rw [fit, htick]
  rfl

theorem agrees_fit_succ {fuel : Nat} (hfit : ∀ gap, Agrees (fit ctx fuel gap))
    (hderive : ∀ q, Agrees (derive ctx fuel q)) (gap : Gap) : Agrees (fit ctx (fuel + 1) gap) := by
  intro s a s' hs
  rcases htick : s.checkpoint.tick with ⟨- | -, cp⟩
  · have htick' : s.patient.checkpoint.tick = (false, cp.patient) := by
      show s.checkpoint.patient.tick = _
      rw [Checkpoint.tick_patient, htick]
    rw [fit_of_tick htick] at hs
    rw [fit_of_tick htick']
    simp only at hs ⊢
    rcases hpart : ctx.table.part? gap.production gap.part with - | part
    · simp only [hpart] at hs
      right
      split at hs
      · rename_i hend
        cases hs
        exact if_pos hend
      · rename_i hend
        cases hs
        exact if_neg hend
    · simp only [hpart] at hs
      by_cases hdead : s.failed.contains gap = true
      · rw [if_pos hdead] at hs
        cases hs
        exact .inr (if_pos hdead)
      · have hdead' : ¬s.patient.failed.contains gap = true := hdead
        rw [if_neg hdead] at hs
        simp only
        rw [if_neg hdead']
        cases part with
        | text w => exact agrees_fitText hfit gap w { s with checkpoint := cp } a s' hs
        | name n => exact agrees_fitName hfit hderive gap n { s with checkpoint := cp } a s' hs
  · rw [fit, htick] at hs
    cases hs
    exact .inl rfl

theorem agrees_derive_and_fit (ctx : Context) (fuel : Nat) :
    (∀ q, Agrees (derive ctx fuel q)) ∧ ∀ gap, Agrees (fit ctx fuel gap) := by
  -- both at once, since each asks the other with one step of fuel less
  induction fuel with
  | zero =>
    constructor
    · intro q s a s' hs
      cases hs
      exact .inr rfl
    · intro gap s a s' hs
      cases hs
      exact .inr rfl
  | succ fuel ih => exact ⟨agrees_derive_succ ih.2, agrees_fit_succ ih.2 ih.1⟩

end Search

/-! ### Parsing -/

/-- A parse with a deadline times out, or it is the one without a deadline. -/
theorem parseFrom_timeout_or_eq_never (t : Table) (arena : Arena) (start input : String) (deadline : Deadline) :
    (parseFrom t arena start input deadline).1 = .timeout ∨
      parseFrom t arena start input deadline = parseFrom t arena start input .never := by
  rw [parseFrom, parseFrom]
  rcases hbuild : Chart.build t input.toList.toArray start deadline with - | c
  · exact .inl rfl
  · rw [Chart.build_never_of_build hbuild]
    simp only
    split
    · exact .inr rfl
    · rcases hderive : Search.derive ⟨t, input.toList.toArray, .ofChart t c⟩
        (Search.depthBound t input.toList.toArray.size) ⟨0, input.toList.toArray.size, start⟩
        ⟨arena, [], ∅, 0, .start deadline Search.period⟩ with ⟨answer, s⟩
      rcases (Search.agrees_derive_and_fit _ _).1 _ _ _ _ hderive with rfl | hsame
      · exact .inl rfl
      · right
        have hsame : Search.derive _ _ _ ⟨arena, [], ∅, 0, .start .never Search.period⟩ = _ := hsame
        rw [hsame]
        cases answer <;> rfl

/-- Whatever the deadline, a tree that is found is a derivation of the input. -/
theorem isTree_of_parseFrom {g : Grammar} {arena arena' : Arena} {start input : String} {deadline : Deadline}
    {root : NodeId} (h : parseFrom (.ofGrammar g) arena start input deadline = (.tree root, arena')) :
    Span.IsTree g input.toList.toArray ⟨0, input.toList.toArray.size, start⟩ root arena' := by
  rcases parseFrom_timeout_or_eq_never (.ofGrammar g) arena start input deadline with htimeout | hnever
  · rw [h] at htimeout
    cases htimeout
  · rw [h] at hnever
    by_cases hlang : Grammar.InLanguage g start input.toList
    · obtain ⟨root', arena'', hparse, -, htree⟩ := parseFrom_of_inLanguage hlang arena
      rw [hparse] at hnever
      cases hnever
      exact htree
    · rw [parseFrom_of_not_inLanguage hlang arena] at hnever
      cases hnever

end Earley

end GrammarInference
