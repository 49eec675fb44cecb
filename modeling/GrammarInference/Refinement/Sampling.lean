/-
GrammarInference/Refinement/Sampling.lean

Measuring how many of the strings that a grammar derives a program accepts.

Design.  Inputs are derived in batches and classified, until enough of them were classified and enough of these
are valid, or until the number of derivations reaches its budget.  A batch has as many inputs as are still to be
classified, but at least one.  Derivations that were interrupted use up budget and give no input; inconclusive
verdicts are counted on their own.
-/
import GrammarInference.Collection.SortedSet
import GrammarInference.Config
import GrammarInference.Derivation.Generator
import GrammarInference.Refinement.Oracle

namespace GrammarInference

/-- Classified inputs. -/
structure Sample where
  /-- The distinct inputs that were accepted. -/
  valid : SortedSet String
  /-- The distinct inputs that were rejected. -/
  invalid : SortedSet String
  /-- The number of inconclusive verdicts. -/
  inconclusive : Nat
  deriving DecidableEq

namespace Sample

/-- No inputs. -/
def empty : Sample := ⟨∅, ∅, 0⟩

/-- The share of valid inputs among the distinct classified ones; none if there are none. -/
def precision (s : Sample) : Option Float :=
  let total := s.valid.size + s.invalid.size
  if total = 0 then none else some (Float.ofNat s.valid.size / Float.ofNat total)

/-- Strings in the order of their lengths, those of one length in the order given. -/
def byLength (l : List String) : List String := l.mergeSort fun a b => decide (a.length ≤ b.length)

/-- The `k` shortest rejected inputs. -/
def shortestInvalid (s : Sample) (k : Nat) : List String := (byLength s.invalid.toList).take k

/-- The sample with one more verdict, and whether the input was classified by it. -/
def record (s : Sample) (input : String) : Verdict → Sample × Bool
  | .accept => ({ s with valid := s.valid.insert input }, true)
  | .reject => ({ s with invalid := s.invalid.insert input }, true)
  | .inconclusive => ({ s with inconclusive := s.inconclusive + 1 }, false)

end Sample

/-! ### Rounds of sampling -/

namespace Sampling

variable {σ : Type}

/-- What is known during a round. -/
structure Tally where
  /-- The inputs so far. -/
  sample : Sample
  /-- The number of verdicts that were not inconclusive. -/
  classified : Nat
  /-- The number of derivations. -/
  attempts : Nat

/-- Adds the verdicts on some inputs. -/
def recordAll (t : Tally) (l : List (String × Verdict)) : Tally :=
  l.foldl (fun t (input, v) =>
    let (sample, counts) := t.sample.record input v
    { t with sample := sample, classified := if counts then t.classified + 1 else t.classified }) t

/-- A number of derivations from the start symbol; those that are interrupted are left out. -/
def drawBatch (deadline : Deadline) : Nat → Generator → Except Error (List String) × Generator
  | 0, gen => (.ok [], gen)
  | wanted + 1, gen =>
    match gen.generateString startName deadline with
    | (.ok s, gen) =>
      match drawBatch deadline wanted gen with
      | (.ok rest, gen) => (.ok (s :: rest), gen)
      | (.error e, gen) => (.error e, gen)
    | (.error .interrupted, gen) => drawBatch deadline wanted gen
    | (.error e, gen) => (.error e, gen)

/-- The largest number of derivations in a round. -/
def budget (config : RefinementConfig) : Nat :=
  max 1 (config.samplesPerRound * config.maxAttemptsFactor)

/-- Is there more to do, and budget for it? -/
def isUnfinished (config : RefinementConfig) (t : Tally) : Bool :=
  (decide (t.classified < config.samplesPerRound) || decide (t.sample.valid.size < config.minValid)) &&
    decide (t.attempts < budget config)

/-- The size of the next batch. -/
def batchSize (config : RefinementConfig) (t : Tally) : Nat :=
  min (max (config.samplesPerRound - t.classified) 1) (budget config - t.attempts)

/-- Batches until the round is finished. -/
def run (oracle : Oracle σ) (config : RefinementConfig) (cancelled : Bool) :
    Nat → Generator → Tally → σ → Except Error Tally × σ
  | 0, _, t, s => (.ok t, s)
  | fuel + 1, gen, t, s =>
    if !isUnfinished config t || cancelled then (.ok t, s)
    else
      let wanted := batchSize config t
      match drawBatch (Deadline.orCancelled (.after config.generationTimeout) cancelled) wanted gen with
      | (.error e, _) => (.error e, s)
      | (.ok batch, gen) =>
        let (verdicts, s) := oracle.classifyAll batch s
        run oracle config cancelled fuel gen
          (recordAll { t with attempts := t.attempts + wanted } (batch.zip verdicts)) s

end Sampling

variable {σ : Type}

/-- Derives inputs from a grammar and classifies them. -/
def sampleAndClassify (g : Grammar) (oracle : Oracle σ) (config : RefinementConfig) (seed : Nat)
    (cancelled : Bool) (s : σ) : Except Error Sample × σ :=
  let (result, s) := Sampling.run oracle config cancelled (Sampling.budget config)
    (.new g config.maxDepth seed) ⟨.empty, 0, 0⟩ s
  (result.map Sampling.Tally.sample, s)

/-- The precision of a grammar; none if no input could be classified. -/
def precision (g : Grammar) (oracle : Oracle σ) (config : RefinementConfig) (s : σ) :
    Except Error (Option Float) × σ :=
  let (result, s) := sampleAndClassify g oracle config config.seed false s
  (result.map Sample.precision, s)

end GrammarInference
