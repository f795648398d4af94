import Mathlib
import ScriptReader.Binary64.Nearest
import ScriptReader.Proofs.NumberTexts

/-!
# Nearest numbers

The number that `Binary64.nearest?` finds for a rational one is the nearest of all finite numbers,
and of two that are equally near the one with the even fraction.  Rounding leaves the rational
number in the neighbourhood of the pattern, the neighbourhoods end halfway between two numbers, and
the last of them ends where nothing is found any more.  A nearest number is the only one, and a
larger rational number has no smaller one.

Main statements: `Binary64.isNearest_of_nearest?`, `Binary64.nearest?_eq_none_iff`,
`Binary64.IsNearest.unique` and `Binary64.IsNearest.le`.
-/

namespace ScriptReader

/-! ## Rounding to whole numbers -/

theorem even_roundHalfEven {n d : Nat} (hd : 0 < d)
    (h : 2 * n = 2 * (roundHalfEven n d * d) + d ∨ 2 * (roundHalfEven n d * d) = 2 * n + d) :
    roundHalfEven n d % 2 = 0 := by
  have hn := Nat.div_add_mod' n d
  have hr := Nat.mod_lt n hd
  unfold roundHalfEven at h ⊢
  dsimp only at h ⊢
  split_ifs at h ⊢ with hbelow habove heven
  · omega
  · rw [Nat.add_mul] at h
    omega
  · exact heven
  · omega

/-- Of two numbers the nearer is the one on whose side of the midpoint `u` lies. -/
theorem abs_sub_le_abs_sub_iff {a b u : ℚ} : |a - u| ≤ |b - u| ↔ (a - b) * (a + b - 2 * u) ≤ 0 := by
  have hproduct : (a - u) ^ 2 - (b - u) ^ 2 = (a - b) * (a + b - 2 * u) := by ring
  rw [← sq_le_sq, ← sub_nonpos, hproduct]

theorem abs_sub_eq_abs_sub_iff {a b u : ℚ} : |a - u| = |b - u| ↔ a = b ∨ a + b = 2 * u := by
  have hproduct : (a - u) ^ 2 - (b - u) ^ 2 = (a - b) * (a + b - 2 * u) := by ring
  rw [← sq_eq_sq_iff_abs_eq_abs, ← sub_eq_zero, hproduct, mul_eq_zero, sub_eq_zero, sub_eq_zero]

namespace Binary64

/-! ## Midpoints -/

theorem units_lt_of_lt {x y : Binary64} (h : x.magnitude < y.magnitude) : x.units < y.units := by
  have hends := (upper_le_lower h).1
  have hspacing := x.spacing_pos
  simp only [neighbourhood] at hends
  omega

theorem units_congr {x y : Binary64} (h : x.magnitude = y.magnitude) : x.units = y.units := by
  have hmiddle := congrArg Neighbourhood.middle (neighbourhood_congr h)
  simp only [neighbourhood] at hmiddle
  omega

theorem units_le_of_le {x y : Binary64} (h : x.magnitude ≤ y.magnitude) : x.units ≤ y.units := by
  rcases Nat.lt_or_eq_of_le h with hlt | heq
  · exact (units_lt_of_lt hlt).le
  · exact (units_congr heq).le

/-- A neighbourhood ends no later than halfway to a larger number. -/
theorem upper_le_midpoint {x y : Binary64} (h : x.magnitude < y.magnitude) :
    x.neighbourhood.upper ≤ 2 * (x.units + y.units) := by
  obtain ⟨z, hz⟩ := exists_magnitude (p := x.magnitude + 1) (by have := y.magnitude_lt; omega)
  have hnext := units_succ hz
  have hle := units_le_of_le (show z.magnitude ≤ y.magnitude by omega)
  simp only [neighbourhood]
  omega

/-- A neighbourhood begins no sooner than halfway to a smaller number. -/
theorem midpoint_le_lower {x y : Binary64} (h : y.magnitude < x.magnitude) :
    2 * (y.units + x.units) ≤ x.neighbourhood.lower := by
  obtain ⟨z, hz⟩ := exists_magnitude (p := x.magnitude - 1) (by have := x.magnitude_lt; omega)
  have hnext := show x.magnitude = z.magnitude + 1 by omega
  have hunits := units_succ hnext
  have hle := units_le_of_le (show y.magnitude ≤ z.magnitude by omega)
  rw [lower_succ hnext]
  simp only [neighbourhood]
  omega

theorem fraction_even_iff (x : Binary64) : x.fraction % 2 = 0 ↔ x.magnitude % 2 = 0 := by
  simp only [fraction, fractions_eq]
  omega

theorem covers_iff {x : Binary64} {q : ℚ} :
    x.neighbourhood.Covers q ↔
      (x.neighbourhood.lower ≤ q ∧ q ≤ x.neighbourhood.upper) ∧
        (q = x.neighbourhood.lower ∨ q = x.neighbourhood.upper → x.fraction % 2 = 0) := by
  rw [fraction_even_iff, ← closed_iff, Neighbourhood.Covers]
  split
  · next h => exact ⟨fun hends => ⟨hends, fun _ => h⟩, And.left⟩
  · next h =>
    constructor
    · rintro ⟨hlow, hhigh⟩
      refine ⟨⟨hlow.le, hhigh.le⟩, ?_⟩
      rintro (hend | hend)
      · exact absurd hend hlow.ne'
      · exact absurd hend hhigh.ne
    · rintro ⟨⟨hlow, hhigh⟩, hends⟩
      exact ⟨hlow.lt_of_ne fun he => h (hends (.inl he.symm)),
        hhigh.lt_of_ne fun he => h (hends (.inr he))⟩

/-- A size is nearest to the number whose neighbourhood it lies in, and as near to another one at
most at the end of a closed neighbourhood. -/
theorem nearest_of_covers {x : Binary64} {u : ℚ} (h : x.neighbourhood.Covers (4 * u))
    (y : Binary64) :
    |(x.units : ℚ) - u| ≤ |(y.units : ℚ) - u| ∧
      (|(y.units : ℚ) - u| = |(x.units : ℚ) - u| → y.units = x.units ∨ x.fraction % 2 = 0) := by
  obtain ⟨hends, hclosed⟩ := covers_iff.mp h
  rw [abs_sub_le_abs_sub_iff, abs_sub_eq_abs_sub_iff, Nat.cast_inj]
  rcases Nat.lt_trichotomy x.magnitude y.magnitude with hlt | heq | hlt
  · have hunits : (x.units : ℚ) < y.units := by exact_mod_cast units_lt_of_lt hlt
    have hmid : (x.neighbourhood.upper : ℚ) ≤ 2 * (x.units + y.units) := by
      exact_mod_cast upper_le_midpoint hlt
    refine ⟨mul_nonpos_of_nonpos_of_nonneg (by linarith) (by linarith), ?_⟩
    rintro (htie | htie)
    · exact .inl htie
    · exact .inr (hclosed (.inr (by linarith)))
  · rw [units_congr heq]
    exact ⟨by rw [sub_self, zero_mul], fun _ => .inl rfl⟩
  · have hunits : (y.units : ℚ) < x.units := by exact_mod_cast units_lt_of_lt hlt
    have hmid : 2 * (y.units + x.units) ≤ (x.neighbourhood.lower : ℚ) := by
      exact_mod_cast midpoint_le_lower hlt
    refine ⟨mul_nonpos_of_nonneg_of_nonpos (by linarith) (by linarith), ?_⟩
    rintro (htie | htie)
    · exact .inl htie
    · exact .inr (hclosed (.inl (by linarith)))

/-! ## The rounded pattern -/

theorem lt_pow_excess (u : Nat) : u < 2 ^ (53 + excess u) := by
  have hlog : u.log2 + 1 ≤ 53 + excess u := by
    unfold excess
    omega
  exact Nat.lt_log2_self.trans_le (Nat.pow_le_pow_right (by decide) hlog)

theorem pow_excess_le {u : Nat} (h : 0 < excess u) : 2 ^ (52 + excess u) ≤ u := by
  have hlog : 52 + excess u = u.log2 := by
    unfold excess at h ⊢
    omega
  have hne : u ≠ 0 := by
    rintro rfl
    exact absurd h (by decide)
  rw [hlog]
  exact Nat.log2_self_le hne

/-- The digits that rounding keeps are at most fifty-three, or a power of two; and fifty-three
unless nothing is lost. -/
theorem rounded_bounds {u d : Nat} (hd : 0 < d) :
    roundHalfEven u (d * Nat.pow 2 (excess (u / d))) ≤ 2 * fractions ∧
      (0 < excess (u / d) →
        fractions ≤ roundHalfEven u (d * Nat.pow 2 (excess (u / d))) ∧
          fractions * (d * Nat.pow 2 (excess (u / d))) ≤ u) := by
  have hlt := (Nat.div_lt_iff_lt_mul hd).mp (lt_pow_excess (u / d))
  have hge := fun h => (Nat.le_div_iff_mul_le hd).mp (pow_excess_le (u := u / d) h)
  generalize excess (u / d) = e at hlt hge ⊢
  have hD : 0 < d * Nat.pow 2 e := Nat.mul_pos hd (Nat.pow_pos (by decide))
  have hlow := roundHalfEven_le (n := u) hD
  have hhigh := le_roundHalfEven (n := u) hD
  -- the bounds on the quotient, as bounds on the size in steps of `D`
  have hupper : 2 ^ (53 + e) * d = 2 * fractions * (d * Nat.pow 2 e) := by
    rw [pow_add]
    change 2 ^ 53 * 2 ^ e * d = 2 * 2 ^ 52 * (d * 2 ^ e)
    ring
  have hlower : 2 ^ (52 + e) * d = fractions * (d * Nat.pow 2 e) := by
    rw [pow_add]
    change 2 ^ 52 * 2 ^ e * d = 2 ^ 52 * (d * 2 ^ e)
    ring
  rw [hupper] at hlt
  simp only [hlower] at hge
  generalize d * Nat.pow 2 e = D at *
  generalize roundHalfEven u D = m at *
  refine ⟨?_, fun he => ⟨?_, hge he⟩⟩
  · by_contra hm
    have hmul := Nat.mul_le_mul_right D (not_le.mp hm)
    rw [Nat.succ_mul] at hmul
    omega
  · have hu := hge he
    by_contra hm
    have hmul := Nat.mul_le_mul_right D (Nat.succ_le_of_lt (not_le.mp hm))
    rw [Nat.succ_mul] at hmul
    omega

/-- The fields of the pattern that `e` lost digits and the rounded size `m` make up. -/
theorem fields_of_magnitude {x : Binary64} {e m : Nat} (h : x.magnitude = fractions * e + m)
    (hm : m ≤ 2 * fractions) (he : 0 < e → fractions ≤ m) :
    (e = 0 ∧ x.exponent = 0 ∧ x.fraction = m) ∨
      (x.exponent = e + 1 ∧ fractions + x.fraction = m) ∨
      (x.exponent = e + 2 ∧ x.fraction = 0 ∧ m = fractions * 2) := by
  simp only [exponent, fraction, h, fractions_eq] at hm he ⊢
  omega

section

variable {x : Binary64} {e m : Nat} (h : x.magnitude = fractions * e + m)
  (hm : m ≤ 2 * fractions) (he : 0 < e → fractions ≤ m)

include h hm he

theorem units_of_magnitude : x.units = m * Nat.pow 2 e := by
  unfold units spacing
  rcases fields_of_magnitude h hm he with ⟨rfl, hexp, hfrac⟩ | ⟨hexp, hfrac⟩ | ⟨hexp, hfrac, rfl⟩
  · rw [hexp, hfrac, if_pos rfl]
    exact (Nat.mul_one m).symm
  · rw [hexp, hfrac, if_neg (Nat.succ_ne_zero _), Nat.add_sub_cancel]
  · rw [hexp, hfrac, if_neg (Nat.succ_ne_zero _), Nat.add_zero, Nat.mul_assoc]
    exact congrArg _ (Nat.mul_comm _ _)

/-- Half a step lies in the neighbourhood on either side, unless the pattern is zero or the first
one of its power of two. -/
theorem ends_of_magnitude :
    4 * x.units + 2 * Nat.pow 2 e ≤ x.neighbourhood.upper ∧
      (x.neighbourhood.lower + 2 * Nat.pow 2 e ≤ 4 * x.units ∨ m = 0 ∨ 0 < e ∧ m = fractions) := by
  have hunits := units_of_magnitude h hm he
  have hone : m ≠ 0 → Nat.pow 2 e ≤ x.units := by
    intro hpos
    rw [hunits]
    exact Nat.le_mul_of_pos_left _ (Nat.pos_of_ne_zero hpos)
  have hfractions : 0 < fractions := by decide
  simp only [neighbourhood]
  rcases fields_of_magnitude h hm he with ⟨rfl, hexp, hfrac⟩ | ⟨hexp, hfrac⟩ | ⟨hexp, hfrac, htop⟩
  · have hspacing : x.spacing = Nat.pow 2 0 := by rw [spacing, hexp]
    rw [hspacing, if_neg (by omega)]
    omega
  · have hspacing : x.spacing = Nat.pow 2 e := by rw [spacing, hexp, Nat.add_sub_cancel]
    rw [hspacing]
    split <;> omega
  · have hspacing : x.spacing = 2 * Nat.pow 2 e := by
      rw [spacing, hexp]
      exact Nat.mul_comm _ _
    rw [hspacing, if_pos (by omega)]
    omega

theorem ends_mul (d : Nat) :
    4 * (m * (d * Nat.pow 2 e)) + 2 * (d * Nat.pow 2 e) ≤ x.neighbourhood.upper * d ∧
      (x.neighbourhood.lower * d + 2 * (d * Nat.pow 2 e) ≤ 4 * (m * (d * Nat.pow 2 e)) ∨
        (m = 0 ∨ 0 < e ∧ m = fractions) ∧
          x.neighbourhood.lower * d ≤ 4 * (m * (d * Nat.pow 2 e))) := by
  obtain ⟨hupper, hlower⟩ := ends_of_magnitude h hm he
  have hsteps : m * (d * Nat.pow 2 e) = x.units * d := by
    rw [units_of_magnitude h hm he]
    ring
  have hleast : x.neighbourhood.lower ≤ 4 * x.units := Nat.sub_le _ _
  have hassoc : 4 * (x.units * d) = 4 * x.units * d := (Nat.mul_assoc _ _ _).symm
  rw [hsteps, hassoc]
  constructor
  · calc
      4 * x.units * d + 2 * (d * Nat.pow 2 e) = (4 * x.units + 2 * Nat.pow 2 e) * d := by ring
      _ ≤ x.neighbourhood.upper * d := Nat.mul_le_mul_right d hupper
  · refine hlower.imp (fun hlower => ?_) fun hfirst => ⟨hfirst, Nat.mul_le_mul_right d hleast⟩
    calc
      x.neighbourhood.lower * d + 2 * (d * Nat.pow 2 e) =
          (x.neighbourhood.lower + 2 * Nat.pow 2 e) * d := by ring
      _ ≤ 4 * x.units * d := Nat.mul_le_mul_right d hlower

end

/-- Rounding leaves a size between the ends of the neighbourhood, and on an end only if it went to
an even number. -/
theorem rounded_between {u d : Nat} {x : Binary64} (hd : 0 < d)
    (h : x.magnitude =
      fractions * excess (u / d) + roundHalfEven u (d * Nat.pow 2 (excess (u / d)))) :
    (x.neighbourhood.lower * d ≤ 4 * u ∧ 4 * u ≤ x.neighbourhood.upper * d) ∧
      (4 * u = x.neighbourhood.lower * d ∨ 4 * u = x.neighbourhood.upper * d →
        x.fraction % 2 = 0) := by
  obtain ⟨hm, he⟩ := rounded_bounds (u := u) hd
  generalize excess (u / d) = e at h hm he
  have hD : 0 < d * Nat.pow 2 e := Nat.mul_pos hd (Nat.pow_pos (by decide))
  have hdown := roundHalfEven_le (n := u) hD
  have hup := le_roundHalfEven (n := u) hD
  have heven := even_roundHalfEven (n := u) hD
  generalize roundHalfEven u (d * Nat.pow 2 e) = m at h hm he hdown hup heven
  have hparity : x.fraction % 2 = m % 2 := by
    simp only [fraction, h, fractions_eq]
    omega
  obtain ⟨hupper, hlower⟩ := ends_mul h hm (fun hpos => (he hpos).1) d
  rw [hparity]
  -- below zero and the first number of a power of two there is less room, but no size was raised
  -- to these
  rcases hlower with hlower | ⟨rfl | ⟨hpos, rfl⟩, hlower⟩
  · refine ⟨⟨by omega, by omega⟩, ?_⟩
    rintro (hend | hend)
    · exact heven (.inr (by omega))
    · exact heven (.inl (by omega))
  · exact ⟨⟨by omega, by omega⟩, fun _ => rfl⟩
  · have hfirst := (he hpos).2
    exact ⟨⟨by omega, by omega⟩, fun _ => rfl⟩

theorem cast_two_pow (k : Nat) : ((Nat.pow 2 k : ℕ) : ℚ) = 2 ^ k :=
  Nat.cast_pow 2 k

theorem quarters_div (n d k : Nat) :
    4 * ((n : ℚ) / d * 2 ^ k) = (4 * (Nat.pow 2 k * n) : ℕ) / d := by
  rw [Nat.cast_mul, Nat.cast_mul, cast_two_pow, Nat.cast_ofNat]
  ring

theorem covers_nearestPattern {n d : Nat} {x : Binary64} (hd : 0 < d)
    (h : x.magnitude = nearestPattern n d) :
    x.neighbourhood.Covers (4 * (n / d * 2 ^ 1074)) := by
  have hdq : (0 : ℚ) < d := by exact_mod_cast hd
  unfold nearestPattern at h
  dsimp only at h
  generalize 1074 = k at h ⊢
  have hbetween := rounded_between hd h
  rw [quarters_div, covers_iff, le_div_iff₀ hdq, div_le_iff₀ hdq, div_eq_iff hdq.ne',
    div_eq_iff hdq.ne']
  exact_mod_cast hbetween

/-! ## Sizes that are too large -/

/-- The neighbourhood of the greatest finite number ends half a step behind it. -/
theorem upper_greatest {x : Binary64} (h : x.magnitude + 1 = infinityPattern) :
    (x.neighbourhood.upper : ℚ) = 4 * ((2 ^ 1024 - 2 ^ 970) * 2 ^ 1074) := by
  have hfields : x.exponent = 2046 ∧ x.fraction = fractions - 1 := by
    simp only [exponent, fraction, infinityPattern, fractions_eq] at h ⊢
    omega
  have hupper : x.neighbourhood.upper = (4 * (2 * fractions - 1) + 2) * x.spacing := by
    simp only [neighbourhood, units]
    rw [if_neg (by omega), hfields.2, ← Nat.mul_assoc, ← Nat.add_mul]
    rfl
  have hspacing : (x.spacing : ℚ) = 2 * (2 ^ 970 * 2 ^ 1074) := by
    have hexponent : x.exponent - 1 = 970 + 1074 + 1 := by omega
    rw [spacing, cast_two_pow, hexponent, pow_succ', pow_add]
  have hlimit : ((2 : ℚ) ^ 1024 - 2 ^ 970) * 2 ^ 1074 = (2 ^ 54 - 1) * (2 ^ 970 * 2 ^ 1074) := by
    have hpow : (2 : ℚ) ^ 1024 = 2 ^ 54 * 2 ^ 970 := by rw [← pow_add]
    rw [hpow, ← sub_one_mul, mul_assoc]
  rw [hupper, Nat.cast_mul, hspacing, hlimit, fractions_eq]
  generalize (2 : ℚ) ^ 970 * 2 ^ 1074 = s
  push_cast
  ring

theorem excess_le {n d k l : Nat} (hd : 0 < d) (h : (n : ℚ) / d < 2 ^ l) :
    excess (Nat.pow 2 k * n / d) ≤ k + l - 53 := by
  have hdq : (0 : ℚ) < d := by exact_mod_cast hd
  rw [div_lt_iff₀ hdq] at h
  have hn : n < 2 ^ l * d := by exact_mod_cast h
  have hsize : Nat.pow 2 k * n / d < 2 ^ (k + l) := by
    rw [Nat.div_lt_iff_lt_mul hd, pow_add, mul_assoc]
    exact Nat.mul_lt_mul_of_pos_left hn (Nat.pow_pos (by decide))
  by_contra hlt
  have hleast := pow_excess_le (by omega : 0 < excess (Nat.pow 2 k * n / d))
  have hpow := (Nat.pow_lt_pow_iff_right (by decide)).mp (hleast.trans_lt hsize)
  omega

/-- A size below that of the first power of two without numbers is rounded to it at most. -/
theorem nearestPattern_le {n d : Nat} (hd : 0 < d) (h : (n : ℚ) / d < 2 ^ 1024) :
    nearestPattern n d ≤ infinityPattern := by
  unfold nearestPattern infinityPattern
  dsimp only
  generalize hk : 1074 = k
  have hlost := excess_le (k := k) hd h
  have hkept := (rounded_bounds (u := Nat.pow 2 k * n) hd).1
  generalize excess (Nat.pow 2 k * n / d) = e at hlost hkept ⊢
  rw [fractions_eq] at hkept ⊢
  omega

/-- A pattern is found exactly below half a step behind the greatest finite number. -/
theorem nearestPattern_lt_iff {n d : Nat} (hd : 0 < d) :
    nearestPattern n d < infinityPattern ↔ (n : ℚ) / d < 2 ^ 1024 - 2 ^ 970 := by
  have hpattern : infinityPattern < Nat.pow 2 63 := by decide
  have hfirst : 0 < infinityPattern := by decide
  obtain ⟨last, hlast⟩ := exists_magnitude (p := infinityPattern - 1) (by omega)
  have hnext : infinityPattern = last.magnitude + 1 := by omega
  have hend := upper_greatest hnext.symm
  have hunit : (0 : ℚ) < 2 ^ 1074 := pow_pos two_pos _
  -- the bound is where the neighbourhood of the last number ends
  have hbound : (n : ℚ) / d < 2 ^ 1024 - 2 ^ 970 ↔
      4 * ((n : ℚ) / d * 2 ^ 1074) < last.neighbourhood.upper := by
    rw [hend, mul_lt_mul_iff_of_pos_left four_pos, mul_lt_mul_iff_of_pos_right hunit]
  constructor
  · intro h
    obtain ⟨x, hx⟩ := exists_magnitude (h.trans hpattern)
    obtain ⟨⟨-, hupper⟩, hclosed⟩ := covers_iff.mp (covers_nearestPattern hd hx)
    rw [hbound]
    by_cases hxlast : x.magnitude = last.magnitude
    · have hodd : x.fraction % 2 ≠ 0 := by
        rw [Ne, fraction_even_iff, hxlast, hlast]
        decide
      rw [← neighbourhood_congr hxlast]
      exact hupper.lt_of_ne fun heq => hodd (hclosed (.inr heq))
    · have hbefore := (upper_le_lower (show x.magnitude < last.magnitude by omega)).1
      have hwidth := last.lower_lt_upper
      exact hupper.trans_lt (by exact_mod_cast hbefore.trans_lt hwidth)
  · intro h
    by_contra hge
    have hlimit : (2 : ℚ) ^ 1024 - 2 ^ 970 ≤ 2 ^ 1024 := sub_le_self _ (pow_pos two_pos _).le
    have hpast := le_antisymm (nearestPattern_le hd (h.trans_le hlimit)) (not_lt.mp hge)
    obtain ⟨x, hx⟩ := exists_magnitude hpattern
    obtain ⟨⟨hlower, -⟩, -⟩ := covers_iff.mp (covers_nearestPattern hd (hx.trans hpast.symm))
    rw [lower_succ (hx.trans hnext)] at hlower
    exact absurd (hbound.mp h) (not_lt.mpr hlower)

/-! ## Values -/

/-- The rational number that a finite pattern stands for, from its three fields. -/
def value (x : Binary64) : ℚ :=
  (if x.negative then -1 else 1) *
    if x.exponent = 0 then x.fraction / 2 ^ 52 * (2 : ℚ) ^ (-1022 : ℤ)
    else (1 + x.fraction / 2 ^ 52) * (2 : ℚ) ^ (x.exponent - 1023 : ℤ)

theorem value_eq (x : Binary64) :
    x.value = (if x.negative then -1 else 1) * (x.units / 2 ^ 1074) := by
  have htwo : (2 : ℚ) ≠ 0 := two_ne_zero
  have hunit : (2 : ℚ) ^ 1074 = 2 ^ 52 * 2 ^ (1022 : ℤ) := by
    rw [zpow_ofNat, ← pow_add]
  unfold value units
  congr 1
  split
  · rw [hunit, zpow_neg, div_mul_eq_div_div, div_eq_mul_inv _ ((2 : ℚ) ^ (1022 : ℤ))]
  · next h =>
    obtain ⟨e, he⟩ := Nat.exists_eq_succ_of_ne_zero h
    have hexponent : (x.exponent : ℤ) - 1023 = e - 1022 := by omega
    rw [hunit, hexponent, zpow_sub₀ htwo, spacing, he, Nat.succ_sub_one, Nat.cast_mul, cast_two_pow,
      zpow_natCast, Nat.cast_add, fractions, cast_two_pow]
    generalize (2 : ℚ) ^ (1022 : ℤ) = p
    field_simp

theorem value_of_unsigned {x : Binary64} (h : x.negative = false) :
    x.value = x.units / 2 ^ 1074 := by
  rw [value_eq, h, if_neg Bool.false_ne_true, one_mul]

theorem value_nonpos {x : Binary64} (h : x.negative = true) : x.value ≤ 0 := by
  have hsize : (0 : ℚ) ≤ x.units / 2 ^ 1074 := by positivity
  rw [value_eq, h, if_pos rfl, neg_one_mul]
  exact neg_nonpos.mpr hsize

theorem value_lt_of_lt {x y : Binary64} (hx : x.negative = false) (hy : y.negative = false)
    (h : x.magnitude < y.magnitude) : x.value < y.value := by
  have hunits : (x.units : ℚ) < y.units := by exact_mod_cast units_lt_of_lt h
  rw [value_of_unsigned hx, value_of_unsigned hy]
  exact div_lt_div_of_pos_right hunits (pow_pos two_pos _)

/-! ## Nearest numbers -/

/-- The finite number nearest to a rational one: none is nearer, and if another is as near, the
fraction is even.  It has no sign. -/
structure IsNearest (q : ℚ) (x : Binary64) : Prop where
  finite : x.isFinite = true
  unsigned : x.negative = false
  nearest : ∀ y : Binary64, y.isFinite = true → |x.value - q| ≤ |y.value - q|
  even : ∀ y : Binary64, y.isFinite = true → |y.value - q| = |x.value - q| →
    y.value = x.value ∨ x.fraction % 2 = 0

section

variable {q : ℚ} {x : Binary64} (hx : x.negative = false)
  (h : x.neighbourhood.Covers (4 * (q * 2 ^ 1074)))

include hx h

theorem nearest_unsigned {y : Binary64} (hy : y.negative = false) :
    |x.value - q| ≤ |y.value - q| ∧
      (|y.value - q| = |x.value - q| → y.value = x.value ∨ x.fraction % 2 = 0) := by
  have hunit : (0 : ℚ) < 2 ^ 1074 := pow_pos two_pos _
  have hdistance : ∀ z : Binary64,
      |z.units / 2 ^ 1074 - q| = |z.units - q * 2 ^ 1074| / 2 ^ 1074 := by
    intro z
    rw [← abs_of_pos hunit, ← abs_div, abs_of_pos hunit, sub_div, mul_div_cancel_right₀ _ hunit.ne']
  obtain ⟨hle, htie⟩ := nearest_of_covers h y
  rw [value_of_unsigned hx, value_of_unsigned hy, hdistance, hdistance, div_left_inj' hunit.ne',
    div_left_inj' hunit.ne', Nat.cast_inj]
  exact ⟨div_le_div_of_nonneg_right hle hunit.le, htie⟩

theorem nearest_signed (hq : 0 ≤ q) {y : Binary64} (hy : y.negative = true) :
    |x.value - q| ≤ |y.value - q| ∧
      (|y.value - q| = |x.value - q| → y.value = x.value ∨ x.fraction % 2 = 0) := by
  have hzero : (⟨0⟩ : Binary64).value = 0 := by
    rw [value_of_unsigned rfl]
    exact div_eq_zero_iff.mpr (.inl rfl)
  obtain ⟨hle, htie⟩ := nearest_unsigned hx h (y := ⟨0⟩) rfl
  have hneg := value_nonpos hy
  have hfar : |y.value - q| = q - y.value := by
    rw [abs_sub_comm]
    exact abs_of_nonneg (by linarith)
  rw [hzero, zero_sub, abs_neg, abs_of_nonneg hq] at hle htie
  rw [hfar]
  refine ⟨by linarith, fun htie' => ?_⟩
  have hy0 : y.value = 0 := by linarith
  rw [hy0]
  exact htie (by linarith)

/-- A number with the value in its neighbourhood is the nearest one. -/
theorem isNearest_of_covers (hfinite : x.isFinite = true) (hq : 0 ≤ q) : IsNearest q x := by
  have hall : ∀ y : Binary64, |x.value - q| ≤ |y.value - q| ∧
      (|y.value - q| = |x.value - q| → y.value = x.value ∨ x.fraction % 2 = 0) := by
    intro y
    cases hy : y.negative with
    | false => exact nearest_unsigned hx h hy
    | true => exact nearest_signed hx h hq hy
  exact ⟨hfinite, hx, fun y _ => (hall y).1, fun y _ => (hall y).2⟩

end

theorem IsNearest.not_lt {q : ℚ} {x y : Binary64} (hx : IsNearest q x) (hy : IsNearest q y) :
    ¬ x.magnitude < y.magnitude := by
  intro hlt
  have hvalue := value_lt_of_lt hx.unsigned hy.unsigned hlt
  have htie := le_antisymm (hx.nearest y hy.finite) (hy.nearest x hx.finite)
  have hmid := (abs_sub_eq_abs_sub_iff.mp htie).resolve_left hvalue.ne
  have hevenx := (hx.even y hy.finite htie.symm).resolve_left hvalue.ne'
  have heveny := (hy.even x hx.finite htie).resolve_left hvalue.ne
  rw [fraction_even_iff] at hevenx heveny
  -- between two even patterns there is an odd one
  obtain ⟨hz, hzunsigned⟩ := unsigned_ofNat (p := x.magnitude + 1) (by
    have := y.magnitude_lt
    omega)
  generalize (⟨UInt64.ofNat (x.magnitude + 1)⟩ : Binary64) = z at hz hzunsigned
  have hzfinite : z.isFinite = true := by
    have hfinite := hy.finite
    simp only [isFinite, decide_eq_true_eq] at hfinite ⊢
    omega
  have hxz := value_lt_of_lt hx.unsigned hzunsigned (by omega)
  have hzy := value_lt_of_lt hzunsigned hy.unsigned (by omega)
  have hnear := abs_sub_le_abs_sub_iff.mp (hx.nearest z hzfinite)
  exact absurd hnear (not_le.mpr (mul_pos_of_neg_of_neg (by linarith) (by linarith)))

theorem IsNearest.unique {q : ℚ} {x y : Binary64} (hx : IsNearest q x) (hy : IsNearest q y) :
    x = y := by
  have hle := hx.not_lt hy
  have hge := hy.not_lt hx
  exact eq_of_magnitude_eq (hx.unsigned.trans hy.unsigned.symm) (by omega)

theorem IsNearest.le {q r : ℚ} {x y : Binary64} (hx : IsNearest q x) (hy : IsNearest r y)
    (h : q ≤ r) : x.value ≤ y.value := by
  by_contra hlt
  rw [not_le] at hlt
  have hxnear := abs_sub_le_abs_sub_iff.mp (hx.nearest y hy.finite)
  have hynear := abs_sub_le_abs_sub_iff.mp (hy.nearest x hx.finite)
  have hxq := nonpos_of_mul_nonpos_right hxnear (sub_pos.mpr hlt)
  have hyr := nonneg_of_mul_nonpos_right hynear (sub_neg.mpr hlt)
  have hqr : q = r := by linarith
  subst hqr
  exact absurd hlt (by rw [hx.unique hy]; exact lt_irrefl _)

/-! ## The number that is found -/

theorem nearest?_eq_none_iff {n d : Nat} (hd : 0 < d) :
    nearest? n d = none ↔ (2 : ℚ) ^ 1024 - 2 ^ 970 ≤ n / d := by
  rw [← not_lt, ← nearestPattern_lt_iff hd]
  unfold nearest?
  dsimp only
  split
  · next h => exact ⟨nofun, fun hge => absurd h hge⟩
  · next h => exact ⟨fun _ => h, fun _ => rfl⟩

theorem isNearest_of_nearest? {n d : Nat} {x : Binary64} (hd : 0 < d)
    (h : nearest? n d = some x) : IsNearest (n / d) x := by
  unfold nearest? at h
  dsimp only at h
  split at h
  · next hlt =>
    have hpattern : infinityPattern < Nat.pow 2 63 := by decide
    obtain ⟨hmagnitude, hunsigned⟩ := unsigned_ofNat (hlt.trans hpattern)
    obtain rfl := Option.some.inj h
    have hcovers := covers_nearestPattern hd hmagnitude
    refine isNearest_of_covers hunsigned hcovers ?_ (by positivity)
    rw [isFinite, hmagnitude]
    exact decide_eq_true hlt
  · cases h

end Binary64
end ScriptReader
