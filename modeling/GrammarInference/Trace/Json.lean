/-
GrammarInference/Trace/Json.lean

Traces as JSON texts.

Design.  A trace is an object from position keys to records.  Call sites and loop headers are identifiers,
written as texts or as numbers.  When a trace is written, the keys are sorted as texts.  The trace of a token
also has a member with the identifier of the token; it is read as a whole before its records, so of repeated
members only the last one counts anywhere in it.
-/
import GrammarInference.Json.Decode
import GrammarInference.Json.Printer
import GrammarInference.Json.Reader
import GrammarInference.Trace.Basic

namespace GrammarInference

/-! ### Reading -/

/-- A loop iteration from a JSON value. -/
def LoopIteration.ofJson? (v : Json) : Option LoopIteration := do
  let [some header, some count] ← v.toRecord? ["loopheader", "iterationcount"] | none
  return { header := ← header.toIdentifier?, count := ← count.toUInt64? }

/-- A frame from a JSON value. -/
def Frame.ofJson? (v : Json) : Option Frame := do
  let [some callee, some callsite, loops] ← v.toRecord? ["callee", "callsite", "loopiterations"] | none
  return {
    callee := ← callee.toText?
    callsite := ← callsite.toIdentifier?
    loops := ← Json.orDefault (Json.toList? LoopIteration.ofJson?) [] loops }

/-- A record from a JSON value. -/
def PositionRecord.ofJson? (v : Json) : Option PositionRecord := do
  let [orders, contexts, some solutions] ← v.toRecord? ["readorders", "executioncontexts", "solutions"]
    | none
  return {
    readOrders := ← Json.orDefault (Json.toList? Json.toUInt64?) [] orders
    contexts := ← Json.orDefault (Json.toList? (Json.toList? Frame.ofJson?)) [] contexts
    solutions := ← solutions.toList? Json.toUInt32? }

namespace Trace

/-- A trace from a JSON value. -/
def ofJson (v : Json) : Except Error Trace :=
  match v.toMembers? PositionRecord.ofJson? with
  | none => .error .malformedJson
  | some members => ofRecords (.ofList members)

/-- Reads a trace from a text. -/
def ofJsonText (text : String) : Except Error Trace :=
  match Json.read? text with
  | none => .error .malformedJson
  | some v => ofJson v

end Trace

/-- The trace of one run of a lexer, with the token that the run produced. -/
structure TokenTrace where
  /-- The identifier of the token. -/
  tokenId : String
  /-- What the lexer read. -/
  trace : Trace

namespace TokenTrace

/-- The depth to which values may nest where a text is read as a whole. -/
def maxDepth : Nat := 127

/-- Reads the trace of a token from a text. -/
def ofJsonText (text : String) : Except Error TokenTrace :=
  match Json.read? text with
  | none => .error .malformedJson
  | some v =>
    if !v.isRepresentable maxDepth then .error .malformedJson
    else
      match v.collapse with
      | .object members =>
        match members.find? fun m => decide (m.1 = some "token_id") with
        | none => .error .missingTokenId
        | some (_, id) =>
          match id.toIdentifier? with
          | none => .error .malformedJson
          | some tokenId =>
            match Trace.ofJson (.object (members.filter fun m => decide (m.1 ≠ some "token_id"))) with
            | .error e => .error e
            | .ok trace => .ok ⟨tokenId, trace⟩
      | _ => .error .malformedJson

end TokenTrace

/-! ### Writing -/

/-- A loop iteration as a JSON value. -/
def LoopIteration.toJson (l : LoopIteration) : Json :=
  .object [(some "loopheader", .ofString l.header), (some "iterationcount", .ofNat l.count.toNat)]

/-- A frame as a JSON value. -/
def Frame.toJson (f : Frame) : Json :=
  .object
    [(some "callee", .ofString f.callee), (some "callsite", .ofString f.callsite),
     (some "loopiterations", .array (f.loops.map LoopIteration.toJson))]

/-- A record as a JSON value. -/
def PositionRecord.toJson (r : PositionRecord) : Json :=
  .object
    [(some "readorders", .array (r.readOrders.map fun o => .ofNat o.toNat)),
     (some "executioncontexts", .array (r.contexts.map fun c => .array (c.map Frame.toJson))),
     (some "solutions", .array (r.solutions.map fun v => .ofNat v.toNat))]

/-- Writes a trace as a text. -/
def Trace.toJsonText (t : Trace) : String :=
  let sorted := t.toRecords.mergeSort fun a b => !decide (b.1 < a.1)
  Json.pretty (.object (sorted.map fun e => (some e.1, e.2.toJson)))

end GrammarInference
