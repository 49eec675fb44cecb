/-
GrammarInference/Proofs/Refinement/Log.lean

What an oracle was asked, and what it answered.

Design.  An oracle is a step of a state, so the questions that were put to it are not visible in a result.  A log
lists them with their answers, in order, and `Answers` says that the oracle goes from one state to another by
exactly these.  It holds for every type of states, so nothing can be asked behind the back of a log: with the
oracle that keeps a record, the record grows by the log (`Answers.recording`).
-/
import GrammarInference.Refinement.Oracle

namespace GrammarInference

namespace Oracle

variable {σ : Type} {o : Oracle σ} {s s' s'' : σ}

/-- Questions with their answers, oldest first. -/
abbrev Log := List (String × Verdict)

variable {log log' : Log}

/-- Asked the questions of the log in order, the oracle gives its answers and goes from one state to the other. -/
def Answers (o : Oracle σ) (log : Log) (s s' : σ) : Prop :=
  o.classifyAll (log.map Prod.fst) s = (log.map Prod.snd, s')

theorem answers_nil (o : Oracle σ) (s : σ) : o.Answers [] s s := rfl

theorem answers_cons_iff {input : String} {v : Verdict} :
    o.Answers ((input, v) :: log) s s' ↔ (o.classify input s).1 = v ∧ o.Answers log (o.classify input s).2 s' := by
  show ((o.classify input s).1 :: (o.classifyAll (log.map Prod.fst) (o.classify input s).2).1,
    (o.classifyAll (log.map Prod.fst) (o.classify input s).2).2) = (v :: log.map Prod.snd, s') ↔ _
  rw [Prod.mk.injEq, List.cons.injEq, Answers, Prod.ext_iff, and_assoc]

theorem Answers.append (h : o.Answers log s s') (h' : o.Answers log' s' s'') : o.Answers (log ++ log') s s'' := by
  induction log generalizing s with
  | nil =>
    obtain rfl : s = s' := congrArg Prod.snd h
    exact h'
  | cons e log ih =>
    obtain ⟨input, v⟩ := e
    obtain ⟨hv, hlog⟩ := answers_cons_iff.mp h
    exact answers_cons_iff.mpr ⟨hv, ih hlog⟩

/-- The log of a list of questions. -/
def logOf (o : Oracle σ) (inputs : List String) (s : σ) : Log := inputs.zip (o.classifyAll inputs s).1

theorem length_classifyAll (o : Oracle σ) (inputs : List String) (s : σ) :
    (o.classifyAll inputs s).1.length = inputs.length := by
  induction inputs generalizing s with
  | nil => rfl
  | cons input rest ih => exact congrArg (· + 1) (ih (o.classify input s).2)

theorem map_fst_logOf (o : Oracle σ) (inputs : List String) (s : σ) : (o.logOf inputs s).map Prod.fst = inputs :=
  List.map_fst_zip (Nat.le_of_eq (length_classifyAll o inputs s).symm)

theorem map_snd_logOf (o : Oracle σ) (inputs : List String) (s : σ) :
    (o.logOf inputs s).map Prod.snd = (o.classifyAll inputs s).1 :=
  List.map_snd_zip (Nat.le_of_eq (length_classifyAll o inputs s))

theorem answers_logOf (o : Oracle σ) (inputs : List String) (s : σ) :
    o.Answers (o.logOf inputs s) s (o.classifyAll inputs s).2 := by
  rw [Answers, map_fst_logOf, map_snd_logOf]

/-- The oracle that keeps a record answers as before, and its record grows by the log. -/
theorem Answers.recording {record record' : Record} (h : o.recording.Answers log (s, record) (s', record')) :
    o.Answers log s s' ∧ record' = log.reverse ++ record := by
  induction log generalizing s record with
  | nil =>
    cases h
    exact ⟨rfl, rfl⟩
  | cons e log ih =>
    obtain ⟨input, v⟩ := e
    obtain ⟨hv, hlog⟩ := answers_cons_iff.mp h
    obtain ⟨hanswers, hrecord⟩ := ih (s := (o.classify input s).2) hlog
    refine ⟨answers_cons_iff.mpr ⟨hv, hanswers⟩, ?_⟩
    have hv' : (o.classify input s).1 = v := hv
    rw [hrecord, List.reverse_cons, List.append_assoc, hv']
    rfl

end Oracle

end GrammarInference
