/-
GrammarInference/Config.lean

The settings of mining, generalization and refinement, and how they are read from JSON.

Design.  Every group of settings has defaults, and a JSON value only names the settings that it changes.
Counts are natural numbers of 64 bits.  Times are written in seconds and kept in nanoseconds.
-/
import GrammarInference.Error
import GrammarInference.Json.Decode
import GrammarInference.Json.Reader

namespace GrammarInference

/-- How call frames are told apart when traces are merged. -/
inductive ContextMode where
  /-- By the callee alone. -/
  | none
  /-- By the callee and the call site of the frame. -/
  | caller
  /-- By the callee and the call sites from the outermost frame on. -/
  | callPath
  /-- By the callee and the last `k` call sites. -/
  | window (k : Nat)
  deriving DecidableEq, Repr

/-- Settings for putting the reads of a trace into order. -/
structure OrderConfig where
  /-- Drop an almost unconstrained or a null read at the last position? -/
  dropTrailingLookahead : Bool := true
  /-- A set of more solutions counts as unconstrained. -/
  unconstrainedSolutionCount : Nat := 10
  /-- The bound on repair rounds, for each input position. -/
  maxRepairRoundsPerPosition : Nat := 256
  deriving DecidableEq, Repr

/-- Settings for the generalization of tokens. -/
structure GeneralizeConfig where
  /-- Derivations sampled for each nonterminal. -/
  samples : Nat := 1000
  /-- The depth from which sampling takes the cheapest alternatives. -/
  maxDepth : Nat := 10
  /-- A set of at most this many samples stays literal. -/
  thresholdGeneralization : Nat := 10
  /-- The share of samples behind white space from which leading white space is allowed. -/
  spaceRatio : Float := 0.05
  /-- The share of samples that a pattern need not match. -/
  allowedMismatchRate : Float := 0.05
  /-- The seed of the random numbers. -/
  seed : Nat := 0

/-- Settings for mining. -/
structure MinerConfig where
  /-- How call frames are told apart. -/
  context : ContextMode := .callPath
  /-- Tidy the generalized grammar? -/
  simplify : Bool := true
  /-- Where intermediate grammars are written. -/
  snapshotDir : Option String := Option.none
  /-- How traces are put into order. -/
  order : OrderConfig := {}
  /-- How tokens are generalized. -/
  generalize : GeneralizeConfig := {}

/-- Nanoseconds in a second. -/
def nanosPerSecond : Nat := 1000000000

/-- Settings for refinement. -/
structure RefinementConfig where
  /-- The time for one parse, in nanoseconds. -/
  parseTimeout : Nat := 60 * nanosPerSecond
  /-- The time for one derivation, in nanoseconds. -/
  generationTimeout : Nat := nanosPerSecond
  /-- The number of parse timeouts in a row after which validation gives up. -/
  stopAfterTimeouts : Nat := 1
  /-- The precision at which refinement stops. -/
  precisionThreshold : Float := 0.99
  /-- The largest number of refinements. -/
  maxRefinements : Nat := 100
  /-- The time for the whole refinement, in nanoseconds. -/
  maxRefinementTime : Nat := 3600 * nanosPerSecond
  /-- The number of shortest rejected inputs tried as counterexamples. -/
  shortestCount : Nat := 100
  /-- Samples classified in each round. -/
  samplesPerRound : Nat := 1000
  /-- Sampling goes on until this many inputs are accepted. -/
  minValid : Nat := 1
  /-- Probes for each alternative. -/
  probesPerAlternative : Nat := 10
  /-- The depth from which derivations take the cheapest alternatives. -/
  maxDepth : Nat := 10
  /-- The bound on derivations in a round, as a multiple of the samples. -/
  maxAttemptsFactor : Nat := 10
  /-- May inputs be classified side by side? -/
  parallel : Bool := true
  /-- The seed of the random numbers. -/
  seed : Nat := 0
  /-- Where accepted refinements are written. -/
  snapshotDir : Option String := Option.none

/-! ### Reading -/

namespace Json

/-- A text, or nothing for `null`. -/
def toOptionalText? : Json → Option (Option String)
  | .null => some Option.none
  | v => v.toText?.map some

/-- A time in seconds, rounded to nanoseconds; it must be positive or zero and fit into 64 bits of seconds. -/
def toDuration? (v : Json) : Option Nat :=
  match v.toDouble? with
  | Option.none => Option.none
  | some x =>
    if x < 0.0 then Option.none
    else
      let nanos := (Binary.ofDouble x).roundTimes nanosPerSecond
      if nanos < UInt64.size * nanosPerSecond then some nanos else Option.none

/-- The mode of a given name. -/
def contextModeNamed? (name : String) : Option ContextMode :=
  if name = "none" then some .none
  else if name = "caller" then some .caller
  else if name = "call_path" then some .callPath
  else Option.none

/-- A mode: its name, its name with `null`, or a window with its length. -/
def toContextMode? : Json → Option ContextMode
  | .string (some s) => contextModeNamed? s
  | .object [(some "window", v)] => v.toWord?.map ContextMode.window
  | .object [(some name, .null)] => contextModeNamed? name
  | _ => Option.none

end Json

/-- Settings of ordering from a JSON value. -/
def OrderConfig.ofJson? (v : Json) : Option OrderConfig := do
  let d : OrderConfig := {}
  let [drop, count, rounds] ← v.toRecord?
    ["drop_trailing_lookahead", "unconstrained_solution_count", "max_repair_rounds_per_position"]
    | Option.none
  return {
    dropTrailingLookahead := ← Json.orDefault Json.toBool? d.dropTrailingLookahead drop
    unconstrainedSolutionCount := ← Json.orDefault Json.toWord? d.unconstrainedSolutionCount count
    maxRepairRoundsPerPosition := ← Json.orDefault Json.toWord? d.maxRepairRoundsPerPosition rounds }

/-- Settings of generalization from a JSON value. -/
def GeneralizeConfig.ofJson? (v : Json) : Option GeneralizeConfig := do
  let d : GeneralizeConfig := {}
  let [samples, depth, threshold, ratio, rate, seed] ← v.toRecord?
    ["samples", "max_depth", "threshold_generalization", "ws_ratio", "allowed_token_mismatch_rate", "seed"]
    | Option.none
  return {
    samples := ← Json.orDefault Json.toWord? d.samples samples
    maxDepth := ← Json.orDefault Json.toWord? d.maxDepth depth
    thresholdGeneralization := ← Json.orDefault Json.toWord? d.thresholdGeneralization threshold
    spaceRatio := ← Json.orDefault Json.toDouble? d.spaceRatio ratio
    allowedMismatchRate := ← Json.orDefault Json.toDouble? d.allowedMismatchRate rate
    seed := ← Json.orDefault Json.toWord? d.seed seed }

/-- Settings of mining from a JSON value. -/
def MinerConfig.ofJson? (v : Json) : Option MinerConfig := do
  let d : MinerConfig := {}
  let [context, simplify, dir, order, generalize] ← v.toRecord?
    ["context", "simplify", "snapshot_dir", "order", "generalize"]
    | Option.none
  return {
    context := ← Json.orDefault Json.toContextMode? d.context context
    simplify := ← Json.orDefault Json.toBool? d.simplify simplify
    snapshotDir := ← Json.orDefault Json.toOptionalText? d.snapshotDir dir
    order := ← Json.orDefault OrderConfig.ofJson? d.order order
    generalize := ← Json.orDefault GeneralizeConfig.ofJson? d.generalize generalize }

/-- Settings of refinement from a JSON value. -/
def RefinementConfig.ofJson? (v : Json) : Option RefinementConfig := do
  let d : RefinementConfig := {}
  let [parseTime, generationTime, timeouts, threshold, refinements, time, shortest, samples, minValid,
      probes, depth, factor, parallel, seed, dir] ← v.toRecord?
    ["parse_timeout", "generation_timeout", "stop_after_k_timeouts", "precision_threshold",
      "max_refinements", "max_refinement_time", "k_shortest", "cnt_inputs_refinement", "min_count_valid",
      "k_subtrees", "max_depth", "max_sampling_attempts_factor", "parallel", "seed", "snapshot_dir"]
    | Option.none
  return {
    parseTimeout := ← Json.orDefault Json.toDuration? d.parseTimeout parseTime
    generationTimeout := ← Json.orDefault Json.toDuration? d.generationTimeout generationTime
    stopAfterTimeouts := ← Json.orDefault Json.toWord? d.stopAfterTimeouts timeouts
    precisionThreshold := ← Json.orDefault Json.toDouble? d.precisionThreshold threshold
    maxRefinements := ← Json.orDefault Json.toWord? d.maxRefinements refinements
    maxRefinementTime := ← Json.orDefault Json.toDuration? d.maxRefinementTime time
    shortestCount := ← Json.orDefault Json.toWord? d.shortestCount shortest
    samplesPerRound := ← Json.orDefault Json.toWord? d.samplesPerRound samples
    minValid := ← Json.orDefault Json.toWord? d.minValid minValid
    probesPerAlternative := ← Json.orDefault Json.toWord? d.probesPerAlternative probes
    maxDepth := ← Json.orDefault Json.toWord? d.maxDepth depth
    maxAttemptsFactor := ← Json.orDefault Json.toWord? d.maxAttemptsFactor factor
    parallel := ← Json.orDefault Json.toBool? d.parallel parallel
    seed := ← Json.orDefault Json.toWord? d.seed seed
    snapshotDir := ← Json.orDefault Json.toOptionalText? d.snapshotDir dir }

/-- Reads settings from the text of a file. -/
def readConfig {α : Type} (ofJson? : Json → Option α) (text : String) : Except Error α :=
  match (Json.read? text).bind ofJson? with
  | some c => .ok c
  | Option.none => .error .malformedJson

end GrammarInference
