/-
GrammarInference/Decimal/Double.lean

The exact value of a double, and the shortest decimal that reads back as it.

Design.  A positive double is `m * 2 ^ q` for natural `m`.  The reals that round to it form an interval whose
ends belong to it exactly if `m` is even.  For one, two and up to seventeen digits the two neighbours of the
value on that decimal grid are tested against the interval; the first grid with a hit wins, and of two hits
the nearer one.  All comparisons are made between natural numbers.
-/

namespace GrammarInference

/-- The number `mantissa * 2 ^ exponent`. -/
structure Binary where
  /-- The significant bits. -/
  mantissa : Nat
  /-- The power of two. -/
  exponent : Int
  deriving DecidableEq, Repr

namespace Binary

/-- The magnitude of a finite double. -/
def ofDouble (x : Float) : Binary :=
  let bits : Nat := x.toBits.toNat
  let fraction : Nat := bits % Nat.pow 2 52
  let field : Nat := bits / Nat.pow 2 52 % Nat.pow 2 11
  if field = 0 then ⟨fraction, -1074⟩ else ⟨Nat.pow 2 52 + fraction, (field : Int) - 1075⟩

/-- Is the sign bit of a double set? -/
def isNegative (x : Float) : Bool := decide (Nat.pow 2 63 ≤ x.toBits.toNat)

/-- The value as a quotient of natural numbers, times `4`. -/
def fraction4 (b : Binary) : Nat × Nat :=
  let e := b.exponent - 2
  if 0 ≤ e then (4 * b.mantissa * Nat.pow 2 e.toNat, 1) else (4 * b.mantissa, Nat.pow 2 (-e).toNat)

/-- The quotient of two natural numbers, rounded to the nearest, ties to even. -/
def roundDiv (num den : Nat) : Nat :=
  let q := num / den
  let r := num % den
  if 2 * r < den then q else if den < 2 * r then q + 1 else if q % 2 = 0 then q else q + 1

/-- The value times `scale`, rounded to the nearest natural number, ties to even. -/
def roundTimes (b : Binary) (scale : Nat) : Nat :=
  if 0 ≤ b.exponent then b.mantissa * Nat.pow 2 b.exponent.toNat * scale
  else roundDiv (b.mantissa * scale) (Nat.pow 2 (-b.exponent).toNat)

end Binary

/-- The number `digits * 10 ^ exponent`. -/
structure Decimal where
  /-- The digits, as one natural number. -/
  digits : Nat
  /-- The power of ten. -/
  exponent : Int
  deriving DecidableEq, Repr

namespace Decimal

/-- The quotient `num / den` divided by `10 ^ e`, as a quotient again. -/
def scaleDown (num den : Nat) (e : Int) : Nat × Nat :=
  if 0 ≤ e then (num, den * Nat.pow 10 e.toNat) else (num * Nat.pow 10 (-e).toNat, den)

/-- The least power of ten, from `k` on, that lifts `num / den` to one or more. -/
def leadingZeros (num den : Nat) : Nat → Nat → Nat
  | 0, k => k
  | fuel + 1, k => if den ≤ num * Nat.pow 10 k then k else leadingZeros num den fuel (k + 1)

/-- The exponent of the leading decimal digit of `num / den`. -/
def leadingExponent (num den : Nat) : Int :=
  if den ≤ num then ((Nat.toDigits 10 (num / den)).length : Int) - 1
  else -((leadingZeros num den 400 1 : Nat) : Int)

/-- Moves trailing zeros of the digits into the exponent. -/
def strip : Nat → Decimal → Decimal
  | 0, d => d
  | fuel + 1, d =>
    if d.digits ≠ 0 ∧ d.digits % 10 = 0 then strip fuel ⟨d.digits / 10, d.exponent + 1⟩ else d

/-- The multiple of `10 ^ e` that rounds to the double `b`, if there is one; of two the nearer. -/
def onGrid? (b : Binary) (e : Int) : Option Nat :=
  let exact := b.mantissa % 2 = 0
  let lowerGap := if b.mantissa = Nat.pow 2 52 ∧ -1074 < b.exponent then 1 else 2
  let unit := if 0 ≤ b.exponent - 2 then Nat.pow 2 (b.exponent - 2).toNat else 1
  let (v, den) := b.fraction4
  let lo := v - lowerGap * unit
  let hi := v + 2 * unit
  let (num, d) := scaleDown v den e
  let c := num / d
  let inside (k : Nat) : Bool :=
    let (lo', d') := scaleDown lo den e
    let (hi', _) := scaleDown hi den e
    if exact then decide (lo' ≤ k * d') && decide (k * d' ≤ hi')
    else decide (lo' < k * d') && decide (k * d' < hi')
  match inside c && decide (0 < c), inside (c + 1) with
  | true, true =>
    let r := num % d
    if 2 * r < d then some c else if d < 2 * r then some (c + 1)
    else if c % 2 = 0 then some c else some (c + 1)
  | true, false => some c
  | false, true => some (c + 1)
  | false, false => none

/-- The first grid from `n` digits on with a number that rounds to `b`. -/
def shortestFrom (b : Binary) (lead : Int) : Nat → Nat → Decimal
  | 0, _ => ⟨0, 0⟩
  | fuel + 1, n =>
    let e := lead + 1 - (n : Int)
    match onGrid? b e with
    | some k => strip 20 ⟨k, e⟩
    | none => shortestFrom b lead fuel (n + 1)

/-- The decimal with the fewest digits that reads back as `b`. -/
def shortest (b : Binary) : Decimal :=
  if b.mantissa = 0 then ⟨0, 0⟩
  else
    let (v, den) := b.fraction4
    shortestFrom b (leadingExponent v den) 17 1

/-- The characters of a number, with a point after the first `point` digits, or zeros where it has none. -/
def positional (digits : List Char) (point : Int) : List Char :=
  if point ≤ 0 then ['0', '.'] ++ List.replicate (-point).toNat '0' ++ digits
  else if (digits.length : Int) ≤ point then
    digits ++ List.replicate (point.toNat - digits.length) '0' ++ ['.', '0']
  else digits.take point.toNat ++ '.' :: digits.drop point.toNat

/-- The characters of a number with one digit in front of the point and an exponent with its sign. -/
def scientific (digits : List Char) (point : Int) : List Char :=
  let e := point - 1
  let front :=
    match digits with
    | [] => []
    | [c] => [c]
    | c :: rest => c :: '.' :: rest
  front ++ 'e' :: (if e < 0 then '-' else '+') :: Nat.toDigits 10 e.natAbs

end Decimal

/-- The text of a positive double with the given number of places behind the point, the last one rounded to the
nearest, ties to even. -/
def fixedText (x : Float) (places : Nat) : String :=
  let digits := Nat.toDigits 10 ((Binary.ofDouble x).roundTimes (Nat.pow 10 places))
  let padded := List.replicate (places + 1 - digits.length) '0' ++ digits
  let whole := padded.length - places
  String.ofList (padded.take whole ++ '.' :: padded.drop whole)

/-- The text of a finite double: the fewest digits that read back, positional from `1e-5` on and below `1e16`,
always with a point or an exponent. -/
def doubleText (x : Float) : String :=
  let d := Decimal.shortest (.ofDouble x)
  let digits := Nat.toDigits 10 d.digits
  let point := (digits.length : Int) + d.exponent
  let body :=
    if d.digits = 0 then ['0', '.', '0']
    else if -5 < point ∧ point ≤ 16 then Decimal.positional digits point
    else Decimal.scientific digits point
  String.ofList (if Binary.isNegative x then '-' :: body else body)

end GrammarInference
