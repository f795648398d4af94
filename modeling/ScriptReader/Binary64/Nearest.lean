import ScriptReader.Binary64

/-!
# The binary number nearest to a rational one

`Binary64.nearest? n d` is the double-precision number nearest to the rational
number `n / d`, a tie going to the number with the even fraction, and nothing
when the rational number is too large.  The quotient is measured in units of
`2 ^ -1074`; its power of two says how many of the low binary digits are lost,
and the number of steps that remain is the bit pattern: carrying into the next
power of two is the ordinary carry of an addition.

`Binary64.ofDecimal?` reads the digits of a decimal text.

Main statement: `roundHalfEven_le` and `le_roundHalfEven`, which hold a rounded
quotient within half a unit of the exact one.
-/

namespace ScriptReader

/-- The whole number nearest to `n / d`; of two that are equally near, the even one. -/
def roundHalfEven (n d : Nat) : Nat :=
  let q := n / d
  let r := n % d
  if 2 * r < d then q
  else if d < 2 * r then q + 1
  else if q % 2 = 0 then q
  else q + 1

/-- Rounding goes up by at most half a unit. -/
theorem roundHalfEven_le {n d : Nat} (hd : 0 < d) :
    2 * (roundHalfEven n d * d) ≤ 2 * n + d := by
  have hn := Nat.div_add_mod' n d
  have hr := Nat.mod_lt n hd
  unfold roundHalfEven
  simp only
  split
  · omega
  · split
    · rw [Nat.add_mul]; omega
    · split
      · omega
      · rw [Nat.add_mul]; omega

/-- Rounding goes down by at most half a unit. -/
theorem le_roundHalfEven {n d : Nat} (hd : 0 < d) :
    2 * n ≤ 2 * (roundHalfEven n d * d) + d := by
  have hn := Nat.div_add_mod' n d
  have hr := Nat.mod_lt n hd
  unfold roundHalfEven
  simp only
  split
  · omega
  · split
    · rw [Nat.add_mul]; omega
    · split
      · omega
      · rw [Nat.add_mul]; omega

namespace Binary64

/-- How many binary digits a size of `u` units has beyond the fifty-three that
a number keeps. -/
def excess (u : Nat) : Nat :=
  u.log2 - 52

/-- The pattern of the positive number nearest to `n / d`, were there no largest
exponent. -/
def nearestPattern (n d : Nat) : Nat :=
  let u := Nat.pow 2 1074 * n
  let e := excess (u / d)
  fractions * e + roundHalfEven u (d * Nat.pow 2 e)

/-- The number nearest to `n / d`, unless that is too large. -/
def nearest? (n d : Nat) : Option Binary64 :=
  let p := nearestPattern n d
  if p < infinityPattern then some ⟨UInt64.ofNat p⟩ else none

/-- The value of a run of decimal digits. -/
def digitsValue (cs : List Char) : Nat :=
  cs.foldl (fun n c => 10 * n + (c.toNat - '0'.toNat)) 0

/-- The number nearest to the decimal text whose digits before the point are
`whole` and behind it `part`. -/
def ofDecimal? (whole part : List Char) : Option Binary64 :=
  nearest? (digitsValue (whole ++ part)) (Nat.pow 10 part.length)

end Binary64

end ScriptReader
