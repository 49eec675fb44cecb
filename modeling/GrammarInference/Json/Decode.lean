/-
GrammarInference/Json/Decode.lean

Reading typed values out of JSON values.

Design.  A decoder gives nothing for a value of the wrong type.  A record is an object whose known members
occur at most once and whose other members are passed over, or an array that lists the members in their order.
An identifier may be written as a string or as a number.
-/
import GrammarInference.Json.Value

namespace GrammarInference

namespace Json

/-- A natural number below `bound`. -/
def toNatural? (bound : Nat) : Json → Option Nat
  | .number l =>
    match l.value with
    | some (.natural n) => if n < bound then some n else none
    | _ => none
  | _ => none

/-- A natural number of 64 bits. -/
def toWord? : Json → Option Nat := toNatural? UInt64.size

/-- A word of 64 bits. -/
def toUInt64? (v : Json) : Option UInt64 := (toNatural? UInt64.size v).map UInt64.ofNat

/-- A word of 32 bits. -/
def toUInt32? (v : Json) : Option UInt32 := (toNatural? UInt32.size v).map UInt32.ofNat

/-- A double; integers are rounded. -/
def toDouble? : Json → Option Float
  | .number l => l.value.map Number.toDouble
  | _ => none

/-- A text. -/
def toText? : Json → Option String
  | .string s => s
  | _ => none

/-- A truth value. -/
def toBool? : Json → Option Bool
  | .boolean b => some b
  | _ => none

/-- An identifier, written as a text or as a number. -/
def toIdentifier? : Json → Option String
  | .string s => s
  | .number l => l.value.map Number.text
  | _ => none

/-- A list of values of one type. -/
def toList? {α : Type} (decode : Json → Option α) : Json → Option (List α)
  | .array items => items.mapM decode
  | _ => none

/-- The members of an object with their keys, repeated ones too. -/
def toMembers? {α : Type} (decode : Json → Option α) : Json → Option (List (String × α))
  | .object members => members.mapM fun (k, v) => do
    let k ← k
    let a ← decode v
    return (k, a)
  | _ => none

/-- The only member called `name`, if there is one; fails if there are two. -/
def member? (name : String) (members : List (Option String × Json)) : Option (Option Json) :=
  match members.filter fun m => decide (m.1 = some name) with
  | [] => some none
  | [m] => some (some m.2)
  | _ => none

/-- The members of a record, in the order of `names`; a missing one is none. -/
def toRecord? (names : List String) : Json → Option (List (Option Json))
  | .object members =>
    if members.all fun m => m.1.isSome then names.mapM fun n => member? n members else none
  | .array items =>
    if items.length ≤ names.length then
      some (items.map some ++ List.replicate (names.length - items.length) none)
    else none
  | _ => none

/-- A member that may be missing, with the value it then has. -/
def orDefault {α : Type} (decode : Json → Option α) (fallback : α) : Option Json → Option α
  | none => some fallback
  | some v => decode v

end Json

end GrammarInference
