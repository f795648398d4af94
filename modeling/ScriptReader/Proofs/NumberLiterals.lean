import Mathlib
import ScriptReader.Proofs.FreeLayout
import ScriptReader.Proofs.NearestNumbers
import ScriptReader.Proofs.TakenLexemes

/-!
# Number literals

An integer literal says the integer that its digits denote, behind a minus sign the negative one,
if that fits into thirty-two bits, and is malformed otherwise.  This holds up to 4300 digits, and
no further: whatever they denote, more digits are not converted at all.

A decimal literal has no such limit.  It says the nearest number, and is malformed if the
rational number that it denotes is as near to the next power of two as to the greatest finite
number, or larger.

Main statements: `Cursor.nextToken_integer` and `Cursor.read_decimal`.
-/

namespace ScriptReader

namespace Cursor

/-- The next token is the longest match behind the gap. -/
theorem nextToken_of_longestMatch {c : Cursor} {gap t rest : List Char} {o : Except Fault Content}
    (hrest : c.rest = gap ++ (t ++ rest)) (hg : LongestGap gap (t ++ rest))
    (hm : LongestMatch t o rest) :
    c.nextToken =
      ((Scan.of t o rest).tokenAt (c.position.after gap), c.move (gap ++ t) rest) := by
  have hskip : c.skipGap = c.move gap (t ++ rest) := by
    rw [skipGap, hrest, longestGap_iff.mp hg]
  have hscan : scan (c.move gap (t ++ rest)).rest = Scan.of t o rest := hm.scan_eq
  rw [nextToken, hskip, read, hscan]
  exact congrArg _ (Reading.move_move c _ _ _ _)

/-! ## Integers -/

/-- Behind a gap the longest match is an integer: a sign or none, and digits. -/
structure FacesInteger (c : Cursor) (gap : List Char) (negative : Bool) (ds rest : List Char) :
    Prop where
  rest_eq : c.rest = gap ++ (signChars negative ++ ds ++ rest)
  gap : LongestGap gap (signChars negative ++ ds ++ rest)
  digits : Digits ds
  longest : ∃ o, LongestMatch (signChars negative ++ ds) o rest

end Cursor

/-- The token of an integer that is written at a position, if it fits into thirty-two bits. -/
def integerToken (n : Int) (p : Position) (text : String) : Except Error Token :=
  if -2 ^ 31 ≤ n ∧ n ≤ 2 ^ 31 - 1 then .ok ⟨.int n, p, text⟩
  else .error (.located p (.malformed text "int"))

theorem tokenAt_integer {negative : Bool} {ds rest : List Char} {p : Position} :
    (Scan.of (signChars negative ++ ds) (decodeInteger negative ds) rest).tokenAt p =
      if 4300 < ds.length then .error (.located p (.tooManyDigits ds.length))
      else integerToken (signed negative (Nat.ofDigitChars 10 ds 0)) p
        (String.ofList (signChars negative ++ ds)) := by
  have hvalue : Binary64.digitsValue ds = Nat.ofDigitChars 10 ds 0 := rfl
  unfold decodeInteger integerToken
  dsimp only
  rw [hvalue]
  generalize signed negative (Nat.ofDigitChars 10 ds 0) = n
  by_cases hlong : 4300 < ds.length
  · rw [if_pos hlong, if_pos (show digitLimit < ds.length from hlong)]
    rfl
  · rw [if_neg hlong, if_neg (show ¬ digitLimit < ds.length from hlong)]
    by_cases hrange : leastInt ≤ n ∧ n ≤ greatestInt
    · rw [if_pos hrange, if_pos (show -2 ^ 31 ≤ n ∧ n ≤ 2 ^ 31 - 1 from hrange)]
      rfl
    · rw [if_neg hrange, if_neg (show ¬ (-2 ^ 31 ≤ n ∧ n ≤ 2 ^ 31 - 1) from hrange)]
      rfl

theorem integerToken_ne_tooManyDigits {n : Int} {p q : Position} {text : String} {count : Nat} :
    (.error (.located q (.tooManyDigits count)) : Except Error Token) ≠ integerToken n p text := by
  unfold integerToken
  split <;> nofun

theorem Cursor.FacesInteger.nextToken_eq {c : Cursor} {gap ds rest : List Char} {negative : Bool}
    (h : c.FacesInteger gap negative ds rest) :
    c.nextToken =
      (if 4300 < ds.length then
        .error (.located (c.position.after gap) (.tooManyDigits ds.length))
      else integerToken (signed negative (Nat.ofDigitChars 10 ds 0)) (c.position.after gap)
        (String.ofList (signChars negative ++ ds)),
      c.move (gap ++ (signChars negative ++ ds)) rest) := by
  obtain ⟨o, hm⟩ := h.longest
  have hinteger : LongestMatch (signChars negative ++ ds) (decodeInteger negative ds) rest :=
    ⟨.integer negative h.digits, hm.longest⟩
  rw [nextToken_of_longestMatch h.rest_eq h.gap hinteger, tokenAt_integer]

theorem Cursor.facesInteger_ofText {ds : List Char} (h : Digits ds) :
    (Cursor.ofText (String.ofList ds)).FacesInteger [] false ds [] := by
  have hspells : Spells ds (decodeInteger false ds) := .integer false h
  refine ⟨?_, hspells.longestGap_nil nofun, h, _, hspells.longestMatch nofun⟩
  exact String.toList_ofList.trans (List.append_nil ds).symm

theorem tokenize_toString {n : Int} (hleast : -2 ^ 31 ≤ n) (hgreatest : n ≤ 2 ^ 31 - 1) :
    tokenize (toString n) =
      .ok [⟨.int n, .start, toString n⟩, .endAt (.after .start (toString n).toList)] := by
  have htok := (spells_toString ⟨hleast, hgreatest⟩).tokenize_eq
  rwa [String.ofList_toList] at htok

theorem digits_replicate (n : Nat) {d : Char} (hd : d.isDigit = true) :
    Digits (List.replicate (n + 1) d) := by
  refine ⟨List.cons_ne_nil _ _, fun c hc => ?_⟩
  rw [List.eq_of_mem_replicate hc]
  exact hd

/-- An integer literal is read as the integer that it denotes, and is malformed if that does not fit
into thirty-two bits, exactly if it has no more than 4300 digits.  One with more digits is not
converted, whatever it denotes.  In either case all of it is taken.  The text of an integer of
thirty-two bits is read as that integer. -/
theorem Cursor.nextToken_integer {c : Cursor} {gap ds rest : List Char} {negative : Bool}
    (h : c.FacesInteger gap negative ds rest) :
    let start := c.position.after gap
    let text := signChars negative ++ ds
    let n := signed negative (Nat.ofDigitChars 10 ds 0)
    (c.nextToken.1 = integerToken n start (String.ofList text) ↔ ds.length ≤ 4300) ∧
      (4300 < ds.length → c.nextToken.1 = .error (.located start (.tooManyDigits ds.length))) ∧
      c.nextToken.2 = c.move (gap ++ text) rest ∧
      ∀ m : Int, -2 ^ 31 ≤ m → m ≤ 2 ^ 31 - 1 →
        tokenize (toString m) =
          .ok [⟨.int m, .start, toString m⟩, .endAt (.after .start (toString m).toList)] := by
  intro start text n
  rw [h.nextToken_eq]
  by_cases hlong : 4300 < ds.length
  · rw [if_pos hlong]
    exact ⟨⟨fun heq => absurd heq integerToken_ne_tooManyDigits,
      fun hle => absurd hlong (not_lt.mpr hle)⟩, fun _ => rfl, rfl, fun _ => tokenize_toString⟩
  · rw [if_neg hlong]
    exact ⟨⟨fun _ => not_lt.mp hlong, fun _ => rfl⟩, fun h => absurd h hlong, rfl,
      fun _ => tokenize_toString⟩

/-- A negative integer with zeros in front, a zero that is too long, and the least integer. -/
theorem Cursor.nextToken_integer_zeros :
    let c := Cursor.ofText " -007 ;"
    let zeros := List.replicate 4301 '0'
    let c' := Cursor.ofText (String.ofList zeros)
    c.FacesInteger [' '] true ['0', '0', '7'] [' ', ';'] ∧
      c.nextToken.1 = .ok ⟨.int (-7), ⟨1, 2, 1⟩, "-007"⟩ ∧
      c.nextToken.2 = c.move [' ', '-', '0', '0', '7'] [' ', ';'] ∧
      c'.FacesInteger [] false zeros [] ∧
      c'.nextToken.1 = .error (.located .start (.tooManyDigits 4301)) ∧
      tokenize "-2147483648" =
        .ok [⟨.int (-2147483648), .start, "-2147483648"⟩, .endAt ⟨1, 12, 11⟩] := by
  intro c zeros c'
  have hdigits : Digits ['0', '0', '7'] := ⟨List.cons_ne_nil _ _, List.all_eq_true.mp (by decide)⟩
  have hblank : Ends (!isBlank ·) [' ', ';'] := by
    rintro _ _ ⟨⟩
    rfl
  have hfaces : c.FacesInteger [' '] true ['0', '0', '7'] [' ', ';'] :=
    ⟨rfl, longestGap_iff.mpr (by decide), hdigits, _,
      (Spells.integer true hdigits).longestMatch hblank⟩
  have hfaces' : c'.FacesInteger [] false zeros [] := facesInteger_ofText (digits_replicate _ rfl)
  have hlength : zeros.length = 4301 := List.length_replicate
  obtain ⟨hread, -, hmove, htexts⟩ := nextToken_integer hfaces
  have hlong := (nextToken_integer hfaces').2.1 (by omega)
  have hleast := htexts (-2147483648) (by decide) (by decide)
  have htext : toString (-2147483648 : Int) = "-2147483648" := by decide +kernel
  have hend : Position.after .start "-2147483648".toList = ⟨1, 12, 11⟩ := by decide +kernel
  rw [hlength] at hlong
  rw [htext, hend] at hleast
  exact ⟨hfaces, (hread.mpr (by decide)).trans (by decide +kernel), hmove, hfaces', hlong, hleast⟩

/-- An integer of 4301 digits is too large for thirty-two bits, and not malformed. -/
theorem Cursor.nextToken_integer_ones :
    let ones := List.replicate 4301 '1'
    let c := Cursor.ofText (String.ofList ones)
    c.FacesInteger [] false ones [] ∧ 2 ^ 31 ≤ Nat.ofDigitChars 10 ones 0 ∧
      c.nextToken.1 = .error (.located .start (.tooManyDigits 4301)) ∧
      c.nextToken.1 ≠ .error (.located .start (.malformed (String.ofList ones) "int")) := by
  intro ones c
  have hlength : ones.length = 4301 := List.length_replicate
  have hfaces : c.FacesInteger [] false ones [] := facesInteger_ofText (digits_replicate _ rfl)
  have hread := congrArg Prod.fst hfaces.nextToken_eq
  rw [if_pos (by omega), hlength] at hread
  refine ⟨hfaces, by decide +kernel, hread, ?_⟩
  rw [hread]
  nofun

/-! ## Decimals -/

section

variable {whole part : List Char} (hwhole : Digits whole) (hpart : Digits part)

include hwhole hpart

theorem valueOf_decimal :
    Decimal.valueOf (whole ++ '.' :: part) =
      Binary64.digitsValue (whole ++ part) / (Nat.pow 10 part.length : ℕ) := by
  have hvalue := Decimal.valueOf_point hwhole.2 hpart.2 Decimal.beginsPower_nil
  rw [List.append_nil, Decimal.powerOf_nil, zero_sub, zpow_neg, ← Binary64.cast_ten_pow,
    ← div_eq_mul_inv] at hvalue
  exact hvalue

theorem isNearest_of_ofDecimal? {x : Binary64} (h : Binary64.ofDecimal? whole part = some x) :
    Binary64.IsNearest (Decimal.valueOf (whole ++ '.' :: part)) x := by
  rw [valueOf_decimal hwhole hpart]
  exact Binary64.isNearest_of_nearest? (Nat.pow_pos (by decide)) h

theorem ofDecimal?_eq_none_iff :
    Binary64.ofDecimal? whole part = none ↔
      2 ^ 1024 - 2 ^ 970 ≤ Decimal.valueOf (whole ++ '.' :: part) := by
  rw [valueOf_decimal hwhole hpart]
  exact Binary64.nearest?_eq_none_iff (Nat.pow_pos (by decide))

end

/-- Ahead are digits, a point and digits, and behind them no digit. -/
structure Cursor.FacesDecimal (c : Cursor) (whole part rest : List Char) : Prop where
  rest_eq : c.rest = whole ++ '.' :: part ++ rest
  whole : Digits whole
  part : Digits part
  ends : Ends Char.isDigit rest

namespace Cursor.FacesDecimal

variable {c : Cursor} {whole part rest : List Char} (h : c.FacesDecimal whole part rest)

include h

theorem scanNumber_eq : scanNumber c.rest = scanUnsigned c.rest := by
  obtain ⟨d, more, rfl, hd⟩ := h.whole.exists_cons
  rw [h.rest_eq]
  unfold scanNumber
  split
  · next heq =>
    cases heq
    cases hd
  · rfl

theorem read_eq :
    c.read scanNumber =
      ((Scan.of (whole ++ '.' :: part) (decodeDecimal whole part) rest).tokenAt c.position,
        c.move (whole ++ '.' :: part) rest) := by
  rw [read, h.scanNumber_eq, h.rest_eq, scanUnsigned_decimal h.whole h.part h.ends]
  rfl

theorem nextToken_eq : c.nextToken = c.read scanNumber := by
  obtain ⟨d, more, hwhole, hd⟩ := h.whole.exists_cons
  have hrest : c.rest = d :: (more ++ '.' :: part ++ rest) := by
    rw [h.rest_eq, hwhole]
    rfl
  have hskip : c.skipGap = c := by
    apply Reading.skipGap_eq_self
    · rintro b _ heq
      rw [hrest] at heq
      cases heq
      exact isBlank_eq_false (Or.inr hd)
    · have hslash : d ≠ '/' := by
        rintro rfl
        cases hd
      rw [isAt, hrest]
      show ('/' == d && _) = false
      rw [beq_false_of_ne hslash.symm, Bool.false_and]
  have hscan : scan c.rest = scanNumber c.rest := by
    rw [h.scanNumber_eq, hrest]
    exact scan_digit hd
  rw [nextToken, hskip, read, read, hscan]

theorem read_of_lt (hq : Decimal.valueOf (whole ++ '.' :: part) < 2 ^ 1024 - 2 ^ 970) :
    ∃ x, Binary64.IsNearest (Decimal.valueOf (whole ++ '.' :: part)) x ∧
      c.read scanNumber = (.ok ⟨.float x, c.position, String.ofList (whole ++ '.' :: part)⟩,
        c.move (whole ++ '.' :: part) rest) := by
  cases hfound : Binary64.ofDecimal? whole part with
  | none => exact absurd ((ofDecimal?_eq_none_iff h.whole h.part).mp hfound) (not_le.mpr hq)
  | some x =>
    refine ⟨x, isNearest_of_ofDecimal? h.whole h.part hfound, ?_⟩
    rw [h.read_eq, decodeDecimal_ok.mpr ⟨x, hfound, rfl⟩]
    rfl

theorem read_of_le (hq : 2 ^ 1024 - 2 ^ 970 ≤ Decimal.valueOf (whole ++ '.' :: part)) :
    c.read scanNumber =
      (.error (.located c.position (.malformed (String.ofList (whole ++ '.' :: part)) "float")),
        c.move (whole ++ '.' :: part) rest) := by
  have hnone := (ofDecimal?_eq_none_iff h.whole h.part).mpr hq
  have hdecode : decodeDecimal whole part =
      .error (.malformed (String.ofList (whole ++ '.' :: part)) "float") := by
    unfold decodeDecimal
    rw [hnone]
  rw [h.read_eq, hdecode]
  rfl

theorem isNearest_of_read {x : Binary64}
    (hx : (c.read scanNumber).1.map Token.content = .ok (.float x)) :
    Binary64.IsNearest (Decimal.valueOf (whole ++ '.' :: part)) x := by
  by_cases hq : Decimal.valueOf (whole ++ '.' :: part) < 2 ^ 1024 - 2 ^ 970
  · obtain ⟨y, hy, hread⟩ := h.read_of_lt hq
    rw [hread] at hx
    cases hx
    exact hy
  · rw [h.read_of_le (not_lt.mp hq)] at hx
    cases hx

end Cursor.FacesDecimal

/-- A decimal literal is read as the nearest number, and is malformed if the rational number that
it denotes is too large for one.  A larger decimal is not read as a smaller number. -/
theorem Cursor.read_decimal :
    (∀ (c : Cursor) (whole part rest : List Char), c.FacesDecimal whole part rest →
      let text := whole ++ '.' :: part
      let q := Decimal.valueOf text
      (q < 2 ^ 1024 - 2 ^ 970 → ∃ x, Binary64.IsNearest q x ∧
        c.read scanNumber =
          (.ok ⟨.float x, c.position, String.ofList text⟩, c.move text rest)) ∧
      (2 ^ 1024 - 2 ^ 970 ≤ q → c.read scanNumber =
        (.error (.located c.position (.malformed (String.ofList text) "float")),
          c.move text rest)) ∧
      c.nextToken = c.read scanNumber) ∧
    ∀ (c c' : Cursor) (whole part rest whole' part' rest' : List Char) (x x' : Binary64),
      c.FacesDecimal whole part rest → c'.FacesDecimal whole' part' rest' →
      Decimal.valueOf (whole ++ '.' :: part) ≤ Decimal.valueOf (whole' ++ '.' :: part') →
      (c.read scanNumber).1.map Token.content = .ok (.float x) →
      (c'.read scanNumber).1.map Token.content = .ok (.float x') → x.value ≤ x'.value := by
  constructor
  · intro c whole part rest h
    exact ⟨h.read_of_lt, h.read_of_le, h.nextToken_eq⟩
  · intro c c' whole part rest whole' part' rest' x x' h h' hle hx hx'
    exact (h.isNearest_of_read hx).le (h'.isNearest_of_read hx') hle

/-- Halfway between two numbers the one with the even fraction is read, and a larger decimal is read
as the next number. -/
theorem Cursor.read_decimal_halfway :
    let c := Cursor.ofText "9007199254740993.0"
    let c' := Cursor.ofText "9007199254740993.5 "
    let x : Binary64 := ⟨0x4340000000000000⟩
    let x' : Binary64 := ⟨0x4340000000000001⟩
    c.FacesDecimal "9007199254740993".toList ['0'] [] ∧
      c'.FacesDecimal "9007199254740993".toList ['5'] [' '] ∧
      (∃ y, Binary64.IsNearest (Decimal.valueOf "9007199254740993.0".toList) y ∧
        c.nextToken =
          (.ok ⟨.float y, .start, "9007199254740993.0"⟩, c.move c.rest [])) ∧
      (c.read scanNumber).1.map Token.content = .ok (.float x) ∧
      (c'.read scanNumber).1.map Token.content = .ok (.float x') ∧ x.value ≤ x'.value := by
  intro c c' x x'
  have hdigits : Digits "9007199254740993".toList :=
    ⟨by decide, List.all_eq_true.mp (by decide)⟩
  have hfaces : c.FacesDecimal "9007199254740993".toList ['0'] [] :=
    ⟨by decide, hdigits, .singleton rfl, nofun⟩
  have hfaces' : c'.FacesDecimal "9007199254740993".toList ['5'] [' '] := by
    refine ⟨by decide, hdigits, .singleton rfl, ?_⟩
    rintro _ _ ⟨⟩
    rfl
  have hread : (c.read scanNumber).1.map Token.content = .ok (.float x) := by decide +kernel
  have hread' : (c'.read scanNumber).1.map Token.content = .ok (.float x') := by decide +kernel
  have hvalue : Binary64.digitsValue ("9007199254740993".toList ++ ['0']) = 90071992547409930 := by
    decide +kernel
  have hvalue' : Binary64.digitsValue ("9007199254740993".toList ++ ['5']) = 90071992547409935 := by
    decide +kernel
  have hlimit : (9007199254740993 : ℚ) < 2 ^ 1024 - 2 ^ 970 := by
    have hsize : (9007199254740993 : ℚ) < 2 ^ 54 := by norm_num
    have hlow : (2 : ℚ) ^ 54 ≤ 2 ^ 1023 := pow_le_pow_right₀ one_le_two (by decide)
    have hgap : (2 : ℚ) ^ 970 ≤ 2 ^ 1023 := pow_le_pow_right₀ one_le_two (by decide)
    rw [pow_succ' 2 1023]
    generalize (2 : ℚ) ^ 1023 = p at hlow hgap ⊢
    generalize (2 : ℚ) ^ 970 = r at hgap ⊢
    linarith
  have hq : Decimal.valueOf ("9007199254740993".toList ++ '.' :: ['0']) = 9007199254740993 := by
    rw [valueOf_decimal hdigits (.singleton rfl), hvalue]
    show (90071992547409930 : ℚ) / (10 : ℕ) = _
    norm_num
  have hq' : Decimal.valueOf ("9007199254740993".toList ++ '.' :: ['5']) = 18014398509481987 / 2 := by
    rw [valueOf_decimal hdigits (.singleton rfl), hvalue']
    show (90071992547409935 : ℚ) / (10 : ℕ) = _
    norm_num
  obtain ⟨hsmall, -, hnext⟩ := read_decimal.1 c _ _ _ hfaces
  obtain ⟨y, hy, hready⟩ := hsmall (by rw [hq]; exact hlimit)
  refine ⟨hfaces, hfaces', ⟨y, hy, hnext.trans hready⟩, hread, hread', ?_⟩
  exact read_decimal.2 c c' _ _ _ _ _ _ x x' hfaces hfaces' (by rw [hq, hq']; norm_num) hread hread'

end ScriptReader
