/-
GrammarInference/Mining/Miner.lean

From traces to a grammar.

Design.  Every trace is put into order, turned into an execution tree and extracted into the grammar under
construction; labels are shared, so that traces of one program are merged.  A trace that cannot be ordered is
skipped.  At the end loops are mended, tokens are generalized or a token grammar is merged in, the grammar is
tidied if that is wanted, pruned and checked.  The grammars between these stages are kept as files, if that is
wanted.
-/
import GrammarInference.Execution.Build
import GrammarInference.Generalization.Generalizer
import GrammarInference.Grammar.Reachable
import GrammarInference.Grammar.Snapshot
import GrammarInference.Grammar.Tidy
import GrammarInference.Mining.Extraction
import GrammarInference.Trace.Json

namespace GrammarInference

/-- Counts of what was mined. -/
structure MiningStats where
  /-- The traces that were put into order. -/
  traces : Nat
  /-- Those among them that needed a repair. -/
  fixedTraces : Nat
  /-- The positions that were repaired. -/
  fixedPositions : Nat
  /-- The traces that could not be ordered. -/
  skipped : Nat
  deriving DecidableEq, Repr

/-- The counts as a line of text. -/
def MiningStats.display (s : MiningStats) : String :=
  toString s.traces ++ " traces, " ++ toString s.fixedTraces ++ " fixed traces, " ++
    toString s.fixedPositions ++ " fixed positions, " ++ toString s.skipped ++ " skipped"

/-- A grammar under construction. -/
structure Miner where
  /-- The settings. -/
  config : MinerConfig
  /-- The definitions of tokens, where buckets hold tokens. -/
  tokens? : Option Grammar
  /-- The labels that were given out. -/
  labels : LabelState
  /-- The grammar so far. -/
  grammar : Grammar
  /-- The counts so far. -/
  stats : MiningStats

namespace Miner

/-- Nothing was mined. -/
def new (config : MinerConfig) (tokens? : Option Grammar) : Miner := ⟨config, tokens?, ∅, ∅, ⟨0, 0, 0, 0⟩⟩

/-- What the values of buckets stand for. -/
def mode (m : Miner) : TerminalMode :=
  match m.tokens? with
  | some tokens => .tokens tokens
  | none => .bytes

/-- The counts with one more trace. -/
def countTrace (s : MiningStats) (t : OrderedTrace) : MiningStats :=
  if t.wasFixed then
    { s with
      traces := s.traces + 1
      fixedTraces := s.fixedTraces + 1
      fixedPositions := s.fixedPositions + t.fixedPositions }
  else { s with traces := s.traces + 1 }

/-- Adds one trace; gives its execution tree, or none if the trace was skipped. -/
def addTrace (m : Miner) (t : Trace) : Except Error (Option ExecutionTree) × Miner :=
  match orderTrace t m.config.order with
  | .error (.unorderableTrace _) =>
    (.ok none, { m with stats := { m.stats with skipped := m.stats.skipped + 1 } })
  | .error e => (.error e, m)
  | .ok ordered =>
    let (root?, labels) := ExecutionTree.build ordered m.labels m.config.context m.tokens?.isSome
    let m := { m with labels := labels, stats := countTrace m.stats ordered }
    match root? with
    | none => (.ok none, m)
    | some root =>
      let (g, result) := extractInto m.mode m.grammar root
      (result.map fun _ => some root, { m with grammar := g })

/-- Where the grammars between the stages are kept. -/
def snapshots (m : Miner) (directories : List String) : Snapshots := .inDirectory directories m.config.snapshotDir

/-- Brings tokens into the grammar: generalizes them, or merges their definitions in. -/
def withTokens (m : Miner) (g : Grammar) : Except Error Grammar :=
  match m.tokens? with
  | some tokens => .ok (g.overlay tokens)
  | none => (Generalizer.new m.config.generalize).generalize g ∅

/-- Tidies the grammar if that is wanted, prunes and checks it. -/
def polish (m : Miner) (g : Grammar) : Except Error Grammar :=
  let tidied? := if m.config.simplify then Grammar.tidy g else some g
  match tidied? with
  | none => .error .unsettledTidying
  | some g =>
    let g := Grammar.pruneUnreachable g startName
    match Grammar.validate g with
    | .error e => .error e
    | .ok () => .ok g

/-- The final grammar, with the files for the stages on the way to it; files can be written in `directories`. -/
def finish (m : Miner) (directories : List String) : Except Error Grammar × List File :=
  if m.grammar.isEmpty then (.error .missingStart, [])
  else
    let fixed := (fixLoops m.grammar).1
    let kept := ((m.snapshots directories).save "raw_grammar.json" m.grammar).bind fun s =>
      s.save "loop_fixed_grammar.json" fixed
    match kept with
    | .error e => (.error e, [])
    | .ok s =>
      match m.withTokens fixed with
      | .error e => (.error e, s.files)
      | .ok g =>
        match s.save "generalized_grammar.json" g with
        | .error e => (.error e, s.files)
        | .ok s => (m.polish g, s.files)

/-- Adds the traces of some files, up to the first error. -/
def addFiles (m : Miner) : List File → Except Error Unit × Miner
  | [] => (.ok (), m)
  | (_, text) :: rest =>
    match Trace.ofJsonText text with
    | .error e => (.error e, m)
    | .ok t =>
      match m.addTrace t with
      | (.error e, m) => (.error e, m)
      | (.ok _, m) => addFiles m rest

end Miner

/-- The files of a directory in the order in which they are read, by their names. -/
def sortFiles (files : List File) : List File := files.mergeSort fun a b => !decide (b.1 < a.1)

/-- Mines a grammar from the traces in the files of a directory, which may not exist; files can be written in
`directories`. -/
def mine (files? : Option (List File)) (config : MinerConfig) (tokens? : Option Grammar) (directories : List String) :
    Except Error Grammar × List File :=
  match files? with
  | none => (.error .unreadable, [])
  | some files =>
    match (Miner.new config tokens?).addFiles (sortFiles files) with
    | (.error e, _) => (.error e, [])
    | (.ok (), m) => m.finish directories

end GrammarInference
