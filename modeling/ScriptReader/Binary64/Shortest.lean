import ScriptReader.Binary64

/-!
# The shortest decimal text of a binary number

A finite number is written with the fewest decimal digits that read back as the
same number, and among those with the digits nearest to it.  The numbers that
read back as `x` fill the interval between the midpoints to its two neighbours,
ends included when the fraction of `x` is even.  `Binary64.shortest` tries one,
two, up to seventeen digits: on each decimal grid only the two points next to
the number can lie nearest, and both tests are comparisons of whole numbers.

`Binary64.text` writes these digits down, positionally for moderate exponents
and with a power of ten otherwise; `TextStyle` holds the choices.
-/

namespace ScriptReader

/-- The decimal number `digits * 10 ^ scale`. -/
structure Decimal where
  /-- The significant digits, as one whole number. -/
  digits : Nat
  /-- The power of ten of the last digit. -/
  scale : Int
deriving DecidableEq, Repr, Inhabited

/-- How decimal digits are written down. -/
structure TextStyle where
  /-- The least decimal exponent that is written positionally. -/
  leastPlain : Int
  /-- The greatest decimal exponent that is written positionally. -/
  greatestPlain : Int
  /-- The least number of digits of a written exponent. -/
  exponentDigits : Nat

namespace Decimal

/-- The same number with no zero behind its last digit; `fuel` bounds how many
are dropped. -/
def trim : Nat → Decimal → Decimal
  | 0, d => d
  | fuel + 1, d =>
    if d.digits % 10 = 0 then trim fuel ⟨d.digits / 10, d.scale + 1⟩ else d

/-- The digits of an exponent, with zeros in front up to `width`. -/
def padded (width n : Nat) : List Char :=
  let ds := Nat.toDigits 10 n
  List.replicate (width - ds.length) '0' ++ ds

/-- A decimal number written in a style.  A whole number keeps one zero behind
its point, and a number below one a zero before it. -/
def text (style : TextStyle) (d : Decimal) : List Char :=
  let ds := Nat.toDigits 10 d.digits
  let exponent : Int := d.scale + ds.length - 1
  if style.leastPlain ≤ exponent ∧ exponent ≤ style.greatestPlain then
    if exponent < 0 then
      '0' :: '.' :: List.replicate (-exponent - 1).toNat '0' ++ ds
    else if 0 ≤ d.scale then
      ds ++ List.replicate d.scale.toNat '0' ++ ['.', '0']
    else
      ds.take (exponent + 1).toNat ++ '.' :: ds.drop (exponent + 1).toNat
  else
    let mantissa := match ds with
      | [] => []
      | [c] => [c]
      | c :: cs => c :: '.' :: cs
    mantissa ++ 'e' :: (if exponent < 0 then '-' else '+') ::
      padded style.exponentDigits exponent.natAbs

end Decimal

namespace Binary64

/-- Numbers are written positionally from `0.0001` up to sixteen digits before
the point, and an exponent has at least two digits. -/
def style : TextStyle := ⟨-4, 15, 2⟩

/-- The numbers that read back as one number, in quarters of `2 ^ -1074`. -/
structure Neighbourhood where
  /-- The midpoint to the next smaller number. -/
  lower : Nat
  /-- The number itself. -/
  middle : Nat
  /-- The midpoint to the next larger number. -/
  upper : Nat
  /-- Whether the midpoints read back as the number too. -/
  closed : Bool
deriving DecidableEq, Repr

/-- The neighbourhood of a finite number.  Below a power of two the numbers lie
twice as dense, so the midpoint there is half as far. -/
def neighbourhood (x : Binary64) : Neighbourhood :=
  let u := 4 * x.units
  let below := if x.fraction = 0 ∧ 1 < x.exponent then x.spacing else 2 * x.spacing
  ⟨u - below, u, u + 2 * x.spacing, x.fraction % 2 == 0⟩

/-- The number of quarters of `2 ^ -1074` in one. -/
def quartersOfOne : Nat := Nat.pow 2 1076

/-- The exponent of the leading decimal digit of a positive size given in
quarters.  Every positive size is at least `10 ^ -324`. -/
def decimalExponent (middle : Nat) : Int :=
  (Nat.toDigits 10 (Nat.pow 10 324 * middle / quartersOfOne)).length - 325

/-- Whether `c` points of a grid lie in a neighbourhood, all sizes being scaled
so that one point is `step`. -/
def reaches (n : Neighbourhood) (step factor c : Nat) : Bool :=
  let size := c * step
  if n.closed then n.lower * factor ≤ size && size ≤ n.upper * factor
  else n.lower * factor < size && size < n.upper * factor

/-- The point of the grid with `count` digits that reads back as the number,
the nearer of two, and the even one of two that are equally near. -/
def onGrid? (n : Neighbourhood) (count : Nat) : Option Decimal :=
  let scale : Int := decimalExponent n.middle - (count - 1 : Nat)
  let step := quartersOfOne * Nat.pow 10 scale.toNat
  let factor := Nat.pow 10 (-scale).toNat
  let c := n.middle * factor / step
  let r := n.middle * factor % step
  match reaches n step factor c, reaches n step factor (c + 1) with
  | false, false => none
  | true, false => some ⟨c, scale⟩
  | false, true => some ⟨c + 1, scale⟩
  | true, true =>
    if 2 * r < step ∨ 2 * r = step ∧ c % 2 = 0 then some ⟨c, scale⟩
    else some ⟨c + 1, scale⟩

/-- The fewest decimal digits that read back as a positive finite number.
Seventeen always do. -/
def shortest (x : Binary64) : Decimal :=
  let n := x.neighbourhood
  let found := (List.range 17).findSome? fun i => onGrid? n (i + 1)
  (found.getD ⟨0, 0⟩).trim 17

/-- A number as it is written. -/
def text (x : Binary64) : String :=
  let sign := if x.negative then "-" else ""
  if x.isUndefined then "nan"
  else if x.isFinite then
    if x.magnitude = 0 then sign ++ "0.0"
    else sign ++ String.ofList (x.shortest.text style)
  else sign ++ "inf"

/-- One and a half is written with two digits. -/
example : text ⟨0x3ff8000000000000⟩ = "1.5" := by decide +kernel

/-- The least positive number is written with one digit. -/
example : text ⟨1⟩ = "5e-324" := by decide +kernel

/-- The two zeros are told apart in writing. -/
example : text ⟨0x8000000000000000⟩ = "-0.0" := by decide +kernel

end Binary64

end ScriptReader
