/-!
# Binary floating-point numbers

A `Binary64` is a double-precision number given by its 64 bits: a sign, eleven
bits of exponent and fifty-two bits of fraction.  Every finite number is a whole
multiple of the smallest positive one, `2 ^ -1074`, and `Binary64.units` is that
multiple, so that numbers are compared and rounded in exact integer arithmetic.

Main definitions:

* `Binary64.units`: the size of a finite number in units of `2 ^ -1074`;
* `Binary64.spacing`: the distance to the next larger size, in the same units;
* `Binary64.same`: equality of numbers, for which the two zeros are one.
-/

namespace ScriptReader

/-- A double-precision number, by its bit pattern. -/
structure Binary64 where
  /-- The sign, the exponent and the fraction, from the highest bit down. -/
  bits : UInt64
deriving DecidableEq, Repr, Inhabited

namespace Binary64

/-- The number of fractions that share one exponent. -/
def fractions : Nat := Nat.pow 2 52

/-- The pattern of positive infinity; the finite patterns lie below it. -/
def infinityPattern : Nat := 2047 * fractions

/-- The pattern without its sign. -/
def magnitude (x : Binary64) : Nat :=
  x.bits.toNat % Nat.pow 2 63

/-- Whether the sign bit is set. -/
def negative (x : Binary64) : Bool :=
  decide (Nat.pow 2 63 ≤ x.bits.toNat)

/-- Whether the number is neither infinite nor undefined. -/
def isFinite (x : Binary64) : Bool :=
  decide (x.magnitude < infinityPattern)

/-- Whether the pattern stands for no number at all. -/
def isUndefined (x : Binary64) : Bool :=
  decide (infinityPattern < x.magnitude)

/-- The exponent field. -/
def exponent (x : Binary64) : Nat :=
  x.magnitude / fractions

/-- The fraction field. -/
def fraction (x : Binary64) : Nat :=
  x.magnitude % fractions

/-- The distance from a size to the next larger one, in units of `2 ^ -1074`. -/
def spacing (x : Binary64) : Nat :=
  Nat.pow 2 (x.exponent - 1)

/-- The size of a finite number in units of `2 ^ -1074`: the fraction alone below
the least normal number, and the fraction with its leading one above it. -/
def units (x : Binary64) : Nat :=
  if x.exponent = 0 then x.fraction
  else (fractions + x.fraction) * x.spacing

/-- Equality of numbers: the two zeros are one number, and an undefined number
equals none. -/
def same (x y : Binary64) : Bool :=
  !x.isUndefined && (x.bits == y.bits || x.magnitude == 0 && y.magnitude == 0)

theorem same_self {x : Binary64} (h : x.isUndefined = false) : x.same x = true := by
  simp [same, h]

/-- The number one. -/
def one : Binary64 := ⟨0x3ff0000000000000⟩

/-- One is `2 ^ 1074` units. -/
example : one.units = Nat.pow 2 1074 := by decide +kernel

end Binary64

end ScriptReader
