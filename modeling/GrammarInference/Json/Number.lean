/-
GrammarInference/Json/Number.lean

Numbers in JSON texts: how they are written, and the values they stand for.

Design.  A literal keeps the parts that the text shows.  A number without fraction and exponent that fits into
64 bits is an integer.  Any other number is a double: its digits are collected into a 64-bit natural number for
as long as they fit, and that number is multiplied or divided once by the power of ten that is left; so the
double can be the neighbour of the one nearest to the decimal.  A number beyond the range of doubles has no
value.
-/
import GrammarInference.Decimal.Double
import GrammarInference.Text.Natural

namespace GrammarInference

namespace Json

/-- A number as it is written. -/
structure Literal where
  /-- Is there a minus sign? -/
  negative : Bool
  /-- The digits before the point. -/
  whole : List Char
  /-- The digits behind the point, if there is a point. -/
  fraction : Option (List Char)
  /-- The exponent, with whether it is negative, if there is one. -/
  exponent : Option (Bool × List Char)
  deriving DecidableEq, Repr

/-- The value of a number. -/
inductive Number where
  /-- A natural number of 64 bits. -/
  | natural (n : Nat)
  /-- The negation of a positive number; the result fits into 64 bits. -/
  | negative (n : Nat)
  /-- A double. -/
  | double (x : Float)

/-! ### Digits -/

/-- The largest natural number of 64 bits. -/
def maxNatural : Nat := UInt64.size - 1

/-- Collected digits and the power of ten that is left. -/
structure Significand where
  /-- The number that the collected digits denote. -/
  value : Nat
  /-- The power of ten. -/
  exponent : Int
  /-- Did every digit fit? -/
  complete : Bool

/-- Collects digits before the point; from the first one that does not fit, digits only raise the power. -/
def collectWhole (s : Significand) : List Char → Significand
  | [] => s
  | c :: rest =>
    let next := s.value * 10 + digitValue c
    if s.complete ∧ next ≤ maxNatural then collectWhole { s with value := next } rest
    else collectWhole { s with exponent := s.exponent + 1, complete := false } rest

/-- Collects digits behind the point, up to the first one that does not fit. -/
def collectFraction (s : Significand) : List Char → Significand
  | [] => s
  | c :: rest =>
    let next := s.value * 10 + digitValue c
    if next ≤ maxNatural then
      collectFraction { s with value := next, exponent := s.exponent - 1 } rest
    else s

/-! ### Doubles -/

/-- The double nearest to a power of ten of at most 308. -/
def powerOfTen (k : Nat) : Float := Float.ofScientific 1 false k

/-- Divides by powers of ten of at most 308 until the exponent is used up. -/
def divideBy (x : Float) : Nat → Nat → Float
  | 0, _ => x
  | fuel + 1, k =>
    if k ≤ 308 then x / powerOfTen k
    else if x == 0.0 then x
    else divideBy (x / powerOfTen 308) fuel (k - 308)

/-- The double for `value * 10 ^ exponent`; none if it is too large. -/
def scaled (value : Nat) (exponent : Int) : Option Float :=
  let x := Float.ofNat value
  if 0 ≤ exponent then
    if exponent ≤ 308 then
      let y := x * powerOfTen exponent.toNat
      if y.isInf then none else some y
    else if x == 0.0 then some x else none
  else some (divideBy x 4 exponent.natAbs)

/-- The largest exponent that is counted. -/
def maxExponent : Nat := 2147483647

/-- The double that a literal stands for, without its sign; none if it is too large. -/
def Literal.magnitude (l : Literal) : Option Float :=
  let whole := collectWhole ⟨0, 0, true⟩ l.whole
  let all := collectFraction whole (l.fraction.getD [])
  match l.exponent with
  | none => scaled all.value all.exponent
  | some (isNegative, digits) =>
    let e := naturalOfDigits digits
    if maxExponent < e then
      if all.value ≠ 0 ∧ !isNegative then none else some 0.0
    else scaled all.value (if isNegative then all.exponent - e else all.exponent + e)

/-- The value of a literal; none if it is beyond the range of doubles. -/
def Literal.value (l : Literal) : Option Number :=
  let whole := collectWhole ⟨0, 0, true⟩ l.whole
  if l.fraction.isNone ∧ l.exponent.isNone ∧ whole.complete ∧
      (!l.negative ∨ (0 < whole.value ∧ 2 * whole.value ≤ UInt64.size)) then
    if l.negative then some (.negative whole.value) else some (.natural whole.value)
  else l.magnitude.map fun x => .double (if l.negative then -x else x)

/-- The literal of a natural number. -/
def Literal.ofNat (n : Nat) : Literal := ⟨false, Nat.toDigits 10 n, none, none⟩

/-- The text of a number: an integer as it is, a double by its shortest decimal. -/
def Number.text : Number → String
  | .natural n => toString n
  | .negative n => "-" ++ toString n
  | .double x => doubleText x

/-- The double nearest to a number. -/
def Number.toDouble : Number → Float
  | .natural n => Float.ofNat n
  | .negative n => -Float.ofNat n
  | .double x => x

end Json

end GrammarInference
