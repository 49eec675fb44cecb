/-
GrammarInference/Refinement/Refiner.lean

Narrowing a grammar by counterexamples.

Design.  In every round inputs are sampled and classified.  The shortest rejected ones are parsed, and the tree
of each is searched from its leaves up.  At a node whose children offer nothing better, every alternative is
scored by the number of accepted inputs that arise when random derivations by it take the place of the subtree.
The best alternatives become the rule set of the node if the grammar then still derives every input that is
known to be valid.  Otherwise they are kept under a fresh name and handed to the parent, which uses that name in
its own rule.  An input that refutes a candidate is remembered and checked first from then on.  An accepted
candidate is merged into the grammar, equal definitions are collapsed, what became unreachable is dropped, and
the next round starts.

Limit.  Neither the time nor the cancellation changes while refinement goes on: a run is out of time, or cancelled, at
its first look or not at all.  Each of its stages is thus one at which a running clock could have ended it.
-/
import GrammarInference.Collection.OrderedSet
import GrammarInference.Earley.Extraction
import GrammarInference.Grammar.Dedup
import GrammarInference.Grammar.Reachable
import GrammarInference.Grammar.Snapshot
import GrammarInference.Refinement.Sampling

namespace GrammarInference

/-- Why refinement stopped. -/
inductive Termination where
  /-- The precision reached its threshold. -/
  | converged
  /-- No counterexample among the shortest ones could be used. -/
  | exhausted
  /-- The number of refinements reached its bound. -/
  | iterationBudget
  /-- The time was spent. -/
  | timeBudget
  /-- It was cancelled. -/
  | cancelled
  deriving DecidableEq, Repr

/-- The reason as a text. -/
def Termination.display : Termination → String
  | .converged => "precision threshold reached"
  | .exhausted => "no refineable counterexample"
  | .iterationBudget => "refinement budget spent"
  | .timeBudget => "time budget spent"
  | .cancelled => "cancelled"

/-- What one round shows the next. -/
structure Refiner (σ : Type) where
  /-- The oracle. -/
  oracle : Oracle σ
  /-- The state of the oracle. -/
  oracleState : σ
  /-- The settings. -/
  config : RefinementConfig
  /-- Was refinement cancelled? -/
  isCancelled : Bool
  /-- The inputs that refuted candidates, oldest first. -/
  discriminating : OrderedSet String
  /-- The inputs known to be valid. -/
  confirmed : SortedSet String
  /-- The next number of a fresh name, for each nonterminal. -/
  names : OrderedMap String Nat
  /-- Where refined grammars are kept. -/
  snapshots : Snapshots

namespace Refiner

variable {σ : Type}

/-- Nothing is known; files can be written in `directories`. -/
def new (oracle : Oracle σ) (s : σ) (config : RefinementConfig) (isCancelled : Bool) (directories : List String) :
    Refiner σ :=
  ⟨oracle, s, config, isCancelled, ∅, ∅, ∅, .inDirectory directories config.snapshotDir⟩

/-- Adds inputs that are known to be valid. -/
def addValid (r : Refiner σ) (inputs : List String) : Refiner σ :=
  { r with confirmed := inputs.foldl SortedSet.insert r.confirmed }

/-- The deadline of a parse. -/
def parseDeadline (r : Refiner σ) : Deadline := Deadline.orCancelled (.after r.config.parseTimeout) r.isCancelled

/-- The deadline of a derivation. -/
def generationDeadline (r : Refiner σ) : Deadline :=
  Deadline.orCancelled (.after r.config.generationTimeout) r.isCancelled

/-! ### Fresh names -/

/-- The numbered name for a refined `n`. -/
def refinedName (n : String) (k : Nat) : String := "<" ++ bareName n ++ "_refined_" ++ toString k ++ ">"

/-- The first number from `k` on whose name is undefined in `g`. -/
def firstFree (g : Grammar) (n : String) : Nat → Nat → Nat
  | 0, k => k
  | tries + 1, k => if g.contains (refinedName n k) then firstFree g n tries (k + 1) else k

/-- A name for a refined `n` that is not defined in `g` and was not given out before. -/
def freshName (r : Refiner σ) (g : Grammar) (n : String) : String × Refiner σ :=
  let k := firstFree g n (g.size + 1) ((r.names.get? n).getD 0)
  (refinedName n k, { r with names := r.names.insert n (k + 1) })

/-! ### Validation -/

/-- What a check of inputs finds. -/
inductive Finding where
  /-- All inputs are derived, as far as the parses ended. -/
  | derivesAll
  /-- This input is not derived. -/
  | rejects (input : String)
  /-- Too many parses in a row did not end. -/
  | gaveUp
  deriving DecidableEq, Repr

/-- Checks some inputs; `timeouts` parses in a row did not end before. -/
def checkInputs (t : Earley.Table) (deadline : Deadline) (limit : Nat) : Nat → List String → Finding
  | _, [] => .derivesAll
  | timeouts, input :: rest =>
    match Earley.recognize t input deadline with
    | .accepted => checkInputs t deadline limit 0 rest
    | .rejected => .rejects input
    | .timeout => if limit ≤ timeouts + 1 then .gaveUp else checkInputs t deadline limit (timeouts + 1) rest

/-- The inputs that a candidate has to derive, in the order in which they are checked. -/
def checklist (r : Refiner σ) : List String := r.discriminating.toList ++ Sample.byLength r.confirmed.toList

/-- Does the grammar with the update merged in fail to derive a valid input?  An input that shows this is
remembered. -/
def isUnderapproximating (r : Refiner σ) (g update : Grammar) : Bool × Refiner σ :=
  let t := Earley.Table.ofGrammar (g.overlay update)
  match checkInputs t r.parseDeadline (max r.config.stopAfterTimeouts 1) 0 r.checklist with
  | .derivesAll => (false, r)
  | .gaveUp => (true, r)
  | .rejects input => (true, { r with discriminating := r.discriminating.insert input })

/-! ### Candidates -/

/-- A refinement proposed at a node. -/
structure Candidate where
  /-- The definitions to merge into the grammar. -/
  update : Grammar
  /-- The nonterminal that the update stands for. -/
  name : String
  /-- The number of accepted inputs for the best alternatives. -/
  quality : Nat
  /-- Does the grammar with the update derive all valid inputs? -/
  accepted : Bool
  deriving DecidableEq

/-- What changes during the search of a tree. -/
structure Search (σ : Type) where
  /-- The refiner. -/
  refiner : Refiner σ
  /-- The source of derivations. -/
  generator : Generator
  /-- The nodes. -/
  arena : Arena

/-- Is there an alternative that does not mention `n`, or no alternative at all? -/
def terminates (n : String) (rs : List Rule) : Bool :=
  rs.isEmpty || rs.any fun r => !r.names.contains n

/-- Checks an update; if it fails, `fallback` is proposed under a fresh name. -/
def propose (s : Search σ) (g : Grammar) (n : String) (quality : Nat) (update : Grammar)
    (fallback : String → Grammar) : Candidate × Search σ :=
  match s.refiner.isUnderapproximating g update with
  | (false, r) => (⟨update, n, quality, true⟩, { s with refiner := r })
  | (true, r) =>
    let (name, r) := r.freshName g n
    (⟨fallback name, name, quality, false⟩, { s with refiner := r })

/-- Uses the refinement of child `i` inside the rule that a node applies. -/
def refineInParent (s : Search σ) (g : Grammar) (n : String) (current : Rule) (i : Nat) (child : Candidate) :
    Candidate × Search σ :=
  let updated := current.set i (.nonterminal child.name)
  let rules := distinct ((g.alternatives n).map fun r => if r = current then updated else r)
  propose s g n child.quality (child.update.insert n rules) fun name => child.update.insert name rules

/-- The inputs that arise when derivations by one alternative take the place of a subtree. -/
def probe (root : NodeId) (path : List Nat) (n : String) (choice : Nat) (deadline : Deadline) :
    Nat → Search σ → Except Error (List String) × Search σ
  | 0, s => (.ok [], s)
  | count + 1, ⟨refiner, generator, arena⟩ =>
    let skip := probe root path n choice deadline count
    match generator.generate arena n (some choice) deadline with
    | (.error .interrupted, arena, generator) => skip ⟨refiner, generator, arena⟩
    | (.error (.unproductive _), arena, generator) => skip ⟨refiner, generator, arena⟩
    | (.error e, arena, generator) => (.error e, ⟨refiner, generator, arena⟩)
    | (.ok subtree, arena, generator) =>
      match arena.splice root path subtree with
      | (none, arena) => skip ⟨refiner, generator, arena⟩
      | (some spliced, arena) =>
        let input := arena.yieldString spliced
        match skip ⟨refiner, generator, arena⟩ with
        | (.ok rest, s) => (.ok (input :: rest), s)
        | (.error e, s) => (.error e, s)

/-- The inputs for `count` alternatives from `choice` on, each with its alternative. -/
def probes (root : NodeId) (path : List Nat) (n : String) :
    Nat → Nat → Search σ → Except Error (List (Nat × String)) × Search σ
  | 0, _, s => (.ok [], s)
  | count + 1, choice, s =>
    match probe root path n choice s.refiner.generationDeadline s.refiner.config.probesPerAlternative s with
    | (.error e, s) => (.error e, s)
    | (.ok inputs, s) =>
      match probes root path n count (choice + 1) s with
      | (.error e, s) => (.error e, s)
      | (.ok rest, s) => (.ok (inputs.map (fun input => (choice, input)) ++ rest), s)

/-- For each alternative, the number of accepted inputs. -/
def ruleQualities (root : NodeId) (path : List Nat) (n : String) (count : Nat) (s : Search σ) :
    Except Error (List Nat) × Search σ :=
  match probes root path n count 0 s with
  | (.error e, s) => (.error e, s)
  | (.ok owned, s) =>
    let r := s.refiner
    let (verdicts, state) := r.oracle.classifyAll (owned.map Prod.snd) r.oracleState
    let accepted := ((owned.map Prod.fst).zip verdicts).filter fun p => decide (p.2 = .accept)
    (.ok ((List.range count).map fun choice => (accepted.filter fun p => p.1 == choice).length),
     { s with refiner := { r with oracleState := state } })

/-- Scores every alternative of `n` and proposes the best ones. -/
def refineAlternatives (g : Grammar) (root : NodeId) (path : List Nat) (n : String) (s : Search σ) :
    Except Error (Option Candidate) × Search σ :=
  let alternatives := g.alternatives n
  match ruleQualities root path n alternatives.length s with
  | (.error e, s) => (.error e, s)
  | (.ok qualities, s) =>
    let quality := qualities.foldl max 0
    let best := ((alternatives.zip qualities).filter fun p => decide (p.2 = quality)).map Prod.fst
    if quality = 0 || Grammar.sameAlternatives best alternatives || !terminates n best then (.ok none, s)
    else
      let (candidate, s) := propose s g n quality (.ofList [(n, best)]) fun name => .ofList [(name, best)]
      (.ok (some candidate), s)

/-! ### Search -/

/-- What the children of a node offer. -/
inductive Offer where
  /-- A candidate that needs nothing more. -/
  | accepted (c : Candidate)
  /-- The best of the others, with the number of its child. -/
  | best (c : Option (Nat × Candidate))

/-- The better of two candidates; the earlier one if both are equally good. -/
def better (best : Option (Nat × Candidate)) (i : Nat) (c : Candidate) : Option (Nat × Candidate) :=
  match best with
  | none => some (i, c)
  | some (j, b) => if b.quality < c.quality then some (i, c) else some (j, b)

mutual

/-- Searches a tree that stands at `path` below the root, from its leaves up. -/
def searchTree (g : Grammar) (root : NodeId) (path : List Nat) :
    Tree → Search σ → Except Error (Option Candidate) × Search σ
  | .node (.terminal _) _, s => (.ok none, s)
  | .node (.nonterminal n) ts, s =>
    match searchChildren g root path 0 none ts s with
    | (.error e, s) => (.error e, s)
    | (.ok (.accepted c), s) => (.ok (some c), s)
    | (.ok (.best (some (i, c))), s) =>
      if 0 < c.quality then
        let (candidate, s) := refineInParent s g n (ts.map Tree.symbol) i c
        (.ok (some candidate), s)
      else refineAlternatives g root path n s
    | (.ok (.best none), s) => refineAlternatives g root path n s

/-- Searches the children of a node from number `i` on. -/
def searchChildren (g : Grammar) (root : NodeId) (path : List Nat) (i : Nat)
    (best : Option (Nat × Candidate)) : List Tree → Search σ → Except Error Offer × Search σ
  | [], s => (.ok (.best best), s)
  | t :: ts, s =>
    match searchTree g root (path ++ [i]) t s with
    | (.error e, s) => (.error e, s)
    | (.ok none, s) => searchChildren g root path (i + 1) best ts s
    | (.ok (some c), s) =>
      if c.accepted then (.ok (.accepted c), s)
      else searchChildren g root path (i + 1) (better best i c) ts s

end

/-- Merges an update, collapses equal definitions and drops what became unreachable. -/
def commit (g update : Grammar) : Grammar :=
  Grammar.pruneUnreachable (Grammar.dedup (g.overlay update)) startName

/-- Tries to refine a grammar so that it no longer derives an input; none if the input could not be parsed or
no candidate was accepted. -/
def refineForInput (r : Refiner σ) (g : Grammar) (input : String) (seed : Nat) :
    Except Error (Option Grammar) × Refiner σ :=
  match Earley.parse (.ofGrammar g) ∅ input r.parseDeadline with
  | (.noParse, _) => (.ok none, r)
  | (.timeout, _) => (.ok none, r)
  | (.tree root, arena) =>
    let s : Search σ := ⟨r, .new g r.config.maxDepth seed, arena⟩
    match searchTree g root [] (arena.treeAt root) s with
    | (.error e, s) => (.error e, s.refiner)
    | (.ok none, s) => (.ok none, s.refiner)
    | (.ok (some c), s) => (.ok (if c.accepted then some (commit g c.update) else none), s.refiner)

/-! ### Rounds -/

/-- The outcome of a round, with the precision that was measured. -/
inductive Round where
  /-- The precision reached its threshold. -/
  | converged (p : Option Float)
  /-- No counterexample could be used. -/
  | exhausted (p : Option Float)
  /-- The grammar was refined. -/
  | refined (g : Grammar) (p : Option Float)

/-- The precision measured in a round. -/
def Round.precision : Round → Option Float
  | .converged p => p
  | .exhausted p => p
  | .refined _ p => p

/-- The first counterexample from number `i` on that yields another grammar. -/
def firstRefined (g : Grammar) (seed : Nat) :
    Nat → List String → Refiner σ → Except Error (Option Grammar) × Refiner σ
  | _, [], r => (.ok none, r)
  | i, input :: rest, r =>
    if r.isCancelled then (.ok none, r)
    else
      match r.refineForInput g input ((seed * 31 + i) % UInt64.size) with
      | (.error e, r) => (.error e, r)
      | (.ok none, r) => firstRefined g seed (i + 1) rest r
      | (.ok (some refined), r) =>
        if refined.sameEntries g then firstRefined g seed (i + 1) rest r else (.ok (some refined), r)

/-- One round: samples inputs, then tries the shortest rejected ones. -/
def refineOnce (r : Refiner σ) (g : Grammar) (round : Nat) : Except Error Round × Refiner σ :=
  let seed := (r.config.seed + round) % UInt64.size
  match sampleAndClassify g r.oracle r.config seed r.isCancelled r.oracleState with
  | (.error e, state) => (.error e, { r with oracleState := state })
  | (.ok sample, state) =>
    let r := { r with oracleState := state, confirmed := r.confirmed.union sample.valid }
    match sample.precision with
    | none => (.ok (.exhausted none), r)
    | some p =>
      if r.config.precisionThreshold ≤ p then (.ok (.converged (some p)), r)
      else
        match firstRefined g seed 0 (sample.shortestInvalid r.config.shortestCount) r with
        | (.error e, r) => (.error e, r)
        | (.ok none, r) => (.ok (.exhausted (some p)), r)
        | (.ok (some refined), r) => (.ok (.refined refined (some p)), r)

/-- The result of refinement. -/
structure Report where
  /-- The refined grammar. -/
  grammar : Grammar
  /-- Why refinement stopped. -/
  termination : Termination
  /-- The number of refinements. -/
  refinements : Nat
  /-- The precisions measured in the rounds. -/
  precisionHistory : List Float

/-- Keeps a grammar in a file, if that is wanted. -/
def save (r : Refiner σ) (name : String) (g : Grammar) : Except Error (Refiner σ) :=
  match r.snapshots.save name g with
  | .error e => .error e
  | .ok s => .ok { r with snapshots := s }

/-- Keeps the final grammar and reports. -/
def conclude (r : Refiner σ) (g : Grammar) (why : Termination) (refinements : Nat) (history : List Float) :
    Except Error Report × Refiner σ :=
  match r.save "refined_grammar_final.json" g with
  | .error e => (.error e, r)
  | .ok r => (.ok ⟨g, why, refinements, history⟩, r)

/-- Rounds until a reason to stop is found; `left` more refinements are allowed.  No time passes from round to round, so
the time is spent before the first one or never. -/
def refineWithin : Nat → Refiner σ → Grammar → Nat → List Float → Except Error Report × Refiner σ
  | left, r, g, refinements, history =>
    if r.isCancelled then r.conclude g .cancelled refinements history
    else
      match left with
      | 0 => r.conclude g .iterationBudget refinements history
      | left + 1 =>
        if r.config.maxRefinementTime = 0 then r.conclude g .timeBudget refinements history
        else
          match r.refineOnce g refinements with
          | (.error e, r) => (.error e, r)
          | (.ok round, r) =>
            let history := history ++ round.precision.toList
            match round with
            | .converged _ => r.conclude g .converged refinements history
            | .exhausted _ => r.conclude g .exhausted refinements history
            | .refined g' _ =>
              match r.save ("refined_grammar_" ++ toString (refinements + 1) ++ ".json") g' with
              | .error e => (.error e, r)
              | .ok r => refineWithin left r g' (refinements + 1) history

/-- Refines a grammar. -/
def refine (r : Refiner σ) (g : Grammar) : Except Error Report × Refiner σ :=
  refineWithin r.config.maxRefinements r g 0 []

end Refiner

end GrammarInference
