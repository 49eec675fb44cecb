/-
GrammarInference/Refinement/Oracle.lean

Oracles: does a program accept an input?

Design.  An oracle may change with every question, so it is a step of a state.  An oracle with a memory keeps
its first answer to every input and gives it again without asking.
-/
import GrammarInference.Collection.OrderedMap

namespace GrammarInference

/-- What a program does with an input. -/
inductive Verdict where
  /-- It accepts it. -/
  | accept
  /-- It rejects it. -/
  | reject
  /-- It crashes or does not answer in time. -/
  | inconclusive
  deriving DecidableEq, Repr

/-- An oracle with states in `σ`. -/
structure Oracle (σ : Type) where
  /-- The verdict on an input, and the state behind it. -/
  classify : String → σ → Verdict × σ

namespace Oracle

variable {σ : Type}

/-- The verdicts on a list of inputs, asked for in order. -/
def classifyAll (o : Oracle σ) : List String → σ → List Verdict × σ
  | [], s => ([], s)
  | input :: rest, s =>
    let (v, s) := o.classify input s
    let (vs, s) := classifyAll o rest s
    (v :: vs, s)

/-- Every input that was asked for, with the answer. -/
abbrev Memory := OrderedMap String Verdict

/-- The oracle with a memory. -/
def cached (o : Oracle σ) : Oracle (σ × Memory) :=
  ⟨fun input (s, memory) =>
    match memory.get? input with
    | some v => (v, (s, memory))
    | none =>
      let (v, s) := o.classify input s
      (v, (s, memory.insert input v))⟩

/-- Questions with their answers, newest first. -/
abbrev Record := List (String × Verdict)

/-- The oracle that also keeps a record of its questions. -/
def recording (o : Oracle σ) : Oracle (σ × Record) :=
  ⟨fun input (s, record) =>
    let (v, s) := o.classify input s
    (v, (s, (input, v) :: record))⟩

/-- The oracle of a function, which has no state. -/
def ofFunction (f : String → Verdict) : Oracle Unit := ⟨fun input s => (f input, s)⟩

end Oracle

/-- The bytes of an input: one for each character if all of them are at most U+00FF, and UTF-8 otherwise. -/
def encodeLatin1 (input : String) : List Nat :=
  if input.toList.all fun c => decide (c.toNat ≤ 0xFF) then input.toList.map Char.toNat
  else input.toUTF8.toList.map UInt8.toNat

end GrammarInference
