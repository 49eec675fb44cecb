/-
GrammarInference/Json/Value.lean

JSON values, as a text shows them.

Design.  A value keeps what a reader may still have to judge: numbers stay literals, objects keep every member
in order, repeated ones too, and a string is absent if one of its escapes is half of a surrogate pair, since no
text has such a character.  Values that nobody looks at may be out of range; the shape of the text alone
decides whether they can be passed over.
-/
import GrammarInference.Json.Number

namespace GrammarInference

/-- A JSON value. -/
inductive Json where
  /-- The literal `null`. -/
  | null
  /-- A truth value. -/
  | boolean (b : Bool)
  /-- A number. -/
  | number (l : Json.Literal)
  /-- A string; none if it is no text. -/
  | string (s : Option String)
  /-- A list of values. -/
  | array (items : List Json)
  /-- A list of members. -/
  | object (members : List (Option String × Json))

namespace Json

/-- The value of a text. -/
def ofString (s : String) : Json := .string (some s)

/-- The value of a natural number. -/
def ofNat (n : Nat) : Json := .number (.ofNat n)

mutual

/-- Can every number and string be represented, with at most `depth` arrays and objects inside each other? -/
def isRepresentable : Nat → Json → Bool
  | _, .null => true
  | _, .boolean _ => true
  | _, .number l => l.value.isSome
  | _, .string s => s.isSome
  | 0, .array _ => false
  | 0, .object _ => false
  | depth + 1, .array items => areRepresentable depth items
  | depth + 1, .object members => membersRepresentable depth members

/-- The same for all values of a list. -/
def areRepresentable : Nat → List Json → Bool
  | _, [] => true
  | depth, v :: rest => isRepresentable depth v && areRepresentable depth rest

/-- The same for all members of an object. -/
def membersRepresentable : Nat → List (Option String × Json) → Bool
  | _, [] => true
  | depth, (k, v) :: rest => k.isSome && isRepresentable depth v && membersRepresentable depth rest

end

/-- Drops a member if its key is repeated later. -/
def lastMembers : List (Option String × Json) → List (Option String × Json)
  | [] => []
  | (k, v) :: rest =>
    if rest.any fun m => decide (m.1 = k) then lastMembers rest else (k, v) :: lastMembers rest

mutual

/-- Keeps the last of repeated members, at every depth. -/
def collapse : Json → Json
  | .array items => .array (collapseItems items)
  | .object members => .object (lastMembers (collapseMembers members))
  | v => v

/-- The same for a list of values. -/
def collapseItems : List Json → List Json
  | [] => []
  | v :: rest => collapse v :: collapseItems rest

/-- The same for the values of members. -/
def collapseMembers : List (Option String × Json) → List (Option String × Json)
  | [] => []
  | (k, v) :: rest => (k, collapse v) :: collapseMembers rest

end

end Json

end GrammarInference
