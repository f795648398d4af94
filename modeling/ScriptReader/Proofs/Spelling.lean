import ScriptReader.Lexeme
import Mathlib.Data.List.Infix
import Mathlib.Data.List.TakeWhile
import Mathlib.Data.Set.Finite.Lemmas

/-!
# How lexemes are spelled

`Spells` lists the rules of the lexicon, one constructor for each: a word, an integer, a
decimal, a text in double quotes, a character between apostrophes, and the symbols.  A rule
says which texts it matches, and what such a text says or why it has no value.

`LongestMatch` is the longest text at the front of another one that any of the rules match.
`scan` tests the rules in a fixed order and never compares lengths, yet it takes just that
text: where two rules match, the one tested first matches no less.

Main statements:

* `LongestMatch.scan_eq`: the longest match is what `scan` takes;
* `exists_longestMatch`: there is one where any rule matches;
* `scan_of_no_match`: and where none does, the character there is not recognized.
-/

namespace ScriptReader

/-! ## The rules -/

/-- At least one character, and digits only. -/
def Digits (ds : List Char) : Prop :=
  ds ≠ [] ∧ ∀ d ∈ ds, d.isDigit = true

/-- The sign of an integer as it is written. -/
def signChars (negative : Bool) : List Char :=
  if negative then ['-'] else []

/-- An integer from its sign and its size. -/
def signed (negative : Bool) (size : Nat) : Int :=
  if negative then -size else size

/-- What the digits of an integer say.  There can be too many of them, or the integer can be
out of range. -/
def decodeInteger (negative : Bool) (ds : List Char) : Except Fault Content :=
  let n := signed negative (Binary64.digitsValue ds)
  if digitLimit < ds.length then .error (.tooManyDigits ds.length)
  else if leastInt ≤ n ∧ n ≤ greatestInt then .ok (.int n)
  else .error (.malformed (String.ofList (signChars negative ++ ds)) "int")

/-- What digits around a point say, unless that is too large a number. -/
def decodeDecimal (whole part : List Char) : Except Fault Content :=
  match Binary64.ofDecimal? whole part with
  | some x => .ok (.float x)
  | none => .error (.malformed (String.ofList (whole ++ '.' :: part)) "float")

/-- The rules of the lexicon: which texts are lexemes, and what each says. -/
inductive Spells : List Char → Except Fault Content → Prop
  | word {c : Char} {cs : List Char} (hc : isIdentStart c = true)
      (hcs : ∀ d ∈ cs, isIdentChar d = true) :
      Spells (c :: cs) (.ok (wordContent (String.ofList (c :: cs))))
  | integer (negative : Bool) {ds : List Char} (hds : Digits ds) :
      Spells (signChars negative ++ ds) (decodeInteger negative ds)
  | decimal {whole part : List Char} (hw : Digits whole) (hp : Digits part) :
      Spells (whole ++ '.' :: part) (decodeDecimal whole part)
  | string {cs : List Char} (hcs : '"' ∉ cs) :
      Spells ('"' :: cs ++ ['"']) (.ok (.string (String.ofList cs)))
  | char {c : Char} (hc : c ≠ '\n') :
      Spells ['\'', c, '\''] (.ok (.char (String.singleton c)))
  | symbol (s : Symbol) : Spells s.chars (.ok (.symbol s s.text))

/-- The longest text in front of `rest` that a rule matches is `taken`, and it says `o`. -/
structure LongestMatch (taken : List Char) (o : Except Fault Content) (rest : List Char) :
    Prop where
  /-- A rule matches it. -/
  spells : Spells taken o
  /-- No rule matches more. -/
  longest : ∀ {u : List Char} {r : Except Fault Content}, Spells u r → u <+: taken ++ rest →
    u.length ≤ taken.length

/-! ## Classes of characters -/

theorem isIdentStart_of_isDigit {c : Char} (h : c.isDigit = true) : isIdentStart c = false := by
  by_cases hu : c = '_'
  · subst hu
    cases h
  · delta Char.isDigit at h
    delta isIdentStart Char.isAlpha Char.isUpper Char.isLower
    grind

theorem Digits.exists_cons {ds : List Char} (h : Digits ds) :
    ∃ d more, ds = d :: more ∧ d.isDigit = true := by
  obtain ⟨hne, hall⟩ := h
  cases ds with
  | nil => exact absurd rfl hne
  | cons d more => exact ⟨d, more, rfl, hall d List.mem_cons_self⟩

theorem Digits.singleton {d : Char} (h : d.isDigit = true) : Digits [d] :=
  ⟨List.cons_ne_nil d [], by simpa using h⟩

theorem Digits.snoc {ds : List Char} {d : Char} (h : Digits ds) (hd : d.isDigit = true) :
    Digits (ds ++ [d]) := by
  refine ⟨by simp, ?_⟩
  intro c hc
  rcases List.mem_append.mp hc with hc | hc
  · exact h.2 c hc
  · rw [List.mem_singleton.mp hc]
    exact hd

/-! ## Runs of characters -/

/-- The text does not go on with a character that has the property `p`. -/
def Ends (p : Char → Bool) (cs : List Char) : Prop :=
  ∀ c more, cs = c :: more → p c = false

theorem takeWhile_append_of_ends {p : Char → Bool} {cs rest : List Char}
    (h : ∀ c ∈ cs, p c = true) (hr : Ends p rest) : (cs ++ rest).takeWhile p = cs := by
  rw [List.takeWhile_append_of_pos h]
  cases rest with
  | nil => simp
  | cons c more => simp [hr c more rfl]

theorem dropWhile_append_of_ends {p : Char → Bool} {cs rest : List Char}
    (h : ∀ c ∈ cs, p c = true) (hr : Ends p rest) : (cs ++ rest).dropWhile p = rest := by
  rw [List.dropWhile_append_of_pos h]
  cases rest with
  | nil => rfl
  | cons c more => simp [hr c more rfl]

/-! ## The longest match is taken -/

/-- A scan of the text `t` in front of `rest`, which says `o`. -/
def Scan.of (t : List Char) (o : Except Fault Content) (rest : List Char) : Scan :=
  ⟨t, rest, o.map fun c => ⟨c, String.ofList t⟩⟩

/-- A longest match does not go on with a character that could be added to it. -/
theorem LongestMatch.ends {t rest : List Char} {o : Except Fault Content} {p : Char → Bool}
    (h : LongestMatch t o rest) (hp : ∀ c, p c = true → ∃ o', Spells (t ++ [c]) o') :
    Ends p rest := by
  rintro c more rfl
  by_contra hc
  obtain ⟨o', ho'⟩ := hp c (by simpa using hc)
  have hle := h.longest ho' ⟨more, by simp⟩
  rw [List.length_append, List.length_singleton] at hle
  omega

theorem scan_word {c : Char} {cs rest : List Char} (hc : isIdentStart c = true)
    (hcs : ∀ d ∈ cs, isIdentChar d = true) (hr : Ends isIdentChar rest) :
    scan (c :: cs ++ rest) =
      .of (c :: cs) (.ok (wordContent (String.ofList (c :: cs)))) rest := by
  have hall : ∀ d ∈ c :: cs, isIdentChar d = true :=
    List.forall_mem_cons.mpr ⟨by simp [isIdentChar, hc], hcs⟩
  rw [List.cons_append, scan_cons, if_pos hc, ← List.cons_append]
  unfold scanWord
  rw [takeWhile_append_of_ends hall hr, dropWhile_append_of_ends hall hr]
  rfl

theorem boundedInteger_eq {n : Int} {count : Nat} {text : String} (h : count ≠ 0) :
    boundedInteger n count text =
      (if digitLimit < count then .error (.tooManyDigits count)
        else if leastInt ≤ n ∧ n ≤ greatestInt then .ok (.int n)
        else .error (.malformed text "int") : Except Fault Content).map fun c => ⟨c, text⟩ := by
  unfold boundedInteger
  rw [if_neg h]
  split
  · rfl
  · split <;> rfl

theorem integer_eq (negative : Bool) {ds : List Char} (h : Digits ds) :
    integer negative ds =
      (decodeInteger negative ds).map fun c => ⟨c, String.ofList (signChars negative ++ ds)⟩ := by
  have hne : ds.length ≠ 0 := by simpa using h.1
  cases negative with
  | false => exact boundedInteger_eq hne
  | true => exact boundedInteger_eq hne

theorem decimal_eq {whole part : List Char} :
    decimal whole part =
      (decodeDecimal whole part).map fun c => ⟨c, String.ofList (whole ++ '.' :: part)⟩ := by
  unfold decimal decodeDecimal
  cases Binary64.ofDecimal? whole part <;> rfl

/-- Behind an integer without a sign stands no point with a digit behind it. -/
def EndsInteger (cs : List Char) : Prop :=
  ∀ d more, cs = '.' :: d :: more → d.isDigit = false

theorem scanUnsigned_integer {ds rest : List Char} (hds : Digits ds)
    (hr : Ends Char.isDigit rest) (hf : EndsInteger rest) :
    scanUnsigned (ds ++ rest) = .of ds (decodeInteger false ds) rest := by
  unfold scanUnsigned
  rw [takeWhile_append_of_ends hds.2 hr, dropWhile_append_of_ends hds.2 hr]
  have hi := integer_eq false hds
  dsimp only
  split
  · next d more =>
    rw [if_neg (by simp [hf d more rfl]), hi]
    rfl
  · rw [hi]
    rfl

theorem scanUnsigned_decimal {whole part rest : List Char} (hw : Digits whole)
    (hp : Digits part) (hr : Ends Char.isDigit rest) :
    scanUnsigned (whole ++ '.' :: part ++ rest) =
      .of (whole ++ '.' :: part) (decodeDecimal whole part) rest := by
  obtain ⟨d, more, rfl, hd⟩ := hp.exists_cons
  have hpoint : Ends Char.isDigit ('.' :: d :: more ++ rest) := by
    rintro c _ he
    cases he
    rfl
  unfold scanUnsigned
  rw [List.append_assoc, takeWhile_append_of_ends hw.2 hpoint,
    dropWhile_append_of_ends hw.2 hpoint]
  show (if d.isDigit = true then _ else _) = _
  rw [if_pos hd]
  show Scan.mk (whole ++ '.' :: ((d :: more) ++ rest).takeWhile Char.isDigit)
    (((d :: more) ++ rest).dropWhile Char.isDigit)
    (decimal whole (((d :: more) ++ rest).takeWhile Char.isDigit)) = _
  rw [takeWhile_append_of_ends hp.2 hr, dropWhile_append_of_ends hp.2 hr, decimal_eq]
  rfl

theorem scan_digit {d : Char} {cs : List Char} (hd : d.isDigit = true) :
    scan (d :: cs) = scanUnsigned (d :: cs) := by
  rw [scan_cons, if_neg (by simp [isIdentStart_of_isDigit hd]), if_pos (by simp [hd])]
  unfold scanNumber
  split
  · next he =>
    cases he
    cases hd
  · rfl

theorem scan_negative {ds rest : List Char} (hds : Digits ds) (hr : Ends Char.isDigit rest) :
    scan ('-' :: ds ++ rest) = .of ('-' :: ds) (decodeInteger true ds) rest := by
  obtain ⟨d, more, rfl, hd⟩ := hds.exists_cons
  have hi := integer_eq true hds
  rw [List.cons_append, scan_cons, if_neg (by decide), if_pos (by simp [beginsWithDigit, hd])]
  show Scan.mk ('-' :: ((d :: more) ++ rest).takeWhile Char.isDigit) _ _ = _
  rw [takeWhile_append_of_ends hds.2 hr, dropWhile_append_of_ends hds.2 hr, hi]
  rfl

theorem scan_string {cs rest : List Char} (hcs : '"' ∉ cs) :
    scan ('"' :: cs ++ ['"'] ++ rest) =
      .of ('"' :: cs ++ ['"']) (.ok (.string (String.ofList cs))) rest := by
  have hall : ∀ c ∈ cs, (c != '"') = true := by
    intro c hc
    simp only [bne_iff_ne, ne_eq]
    rintro rfl
    exact hcs hc
  have hends : Ends (· != '"') ('"' :: rest) := by
    rintro c _ he
    cases he
    rfl
  rw [List.append_assoc, List.cons_append, scan_cons, if_neg (by decide), if_neg (by simp),
    if_pos rfl]
  unfold scanString
  dsimp only [List.singleton_append]
  rw [takeWhile_append_of_ends hall hends, dropWhile_append_of_ends hall hends]
  rfl

theorem scan_char {c : Char} {rest : List Char} (hc : c ≠ '\n') :
    scan (['\'', c, '\''] ++ rest) =
      .of ['\'', c, '\''] (.ok (.char (String.singleton c))) rest := by
  rw [List.cons_append, scan_cons, if_neg (by decide), if_neg (by simp),
    if_neg (by decide), if_pos rfl]
  show (if c = '\n' then _ else _) = _
  rw [if_neg hc]
  rfl

/-! ## Symbols -/

theorem length_chars_le (s : Symbol) : s.chars.length ≤ 2 := by
  cases s <;> decide

/-- The first symbol that fits a text, longer ones first, is the longest one. -/
theorem symbolAt?_longest {cs : List Char} {s t : Symbol} (h : symbolAt? cs = some s)
    (ht : t.chars <+: cs) : t.chars.length ≤ s.chars.length := by
  have ht2 := length_chars_le t
  have hs1 := List.length_pos_iff.mpr s.chars_ne_nil
  by_contra hlt
  -- a symbol that is longer than another one has two characters and is tried first
  have ht' : t.chars.length = 2 := by omega
  have hs' : s.chars.length = 1 := by omega
  unfold symbolAt? Symbol.longestFirst at h
  rw [List.find?_append] at h
  cases hf : (Symbol.all.filter (·.chars.length == 2)).find? (·.chars.isPrefixOf cs) with
  | none =>
    have hnone := List.find?_eq_none.mp hf t (List.mem_filter.mpr ⟨t.mem_all, by simpa using ht'⟩)
    exact hnone (List.isPrefixOf_iff_prefix.mpr ht)
  | some u =>
    rw [hf] at h
    cases h
    have hmem := (List.mem_filter.mp (List.mem_of_find?_eq_some hf)).2
    simp [hs'] at hmem

theorem symbolAt?_eq_none {cs : List Char} (h : ∀ s : Symbol, ¬ s.chars <+: cs) :
    symbolAt? cs = none := by
  refine List.find?_eq_none.mpr ?_
  intro s _ hs
  exact h s (List.isPrefixOf_iff_prefix.mp hs)

/-- No symbol begins with a character that begins another lexeme, and none holds a digit. -/
theorem Symbol.exists_chars (s : Symbol) : ∃ c cs, s.chars = c :: cs ∧ isIdentStart c = false ∧
    c ≠ '"' ∧ c ≠ '\'' ∧ ∀ d ∈ c :: cs, d.isDigit = false := by
  cases s <;> exact ⟨_, _, rfl, by decide, by decide, by decide, by simp⟩

/-- A symbol that is the longest match is the one that is found. -/
theorem LongestMatch.symbolAt?_eq {s : Symbol} {o : Except Fault Content} {rest : List Char}
    (h : LongestMatch s.chars o rest) : symbolAt? (s.chars ++ rest) = some s := by
  have hs : s.chars <+: s.chars ++ rest := List.prefix_append _ _
  cases hat : symbolAt? (s.chars ++ rest) with
  | none =>
    have hnone := List.find?_eq_none.mp hat s s.mem_longestFirst
    exact absurd (List.isPrefixOf_iff_prefix.mpr hs) hnone
  | some t =>
    have ht := isPrefixOf_of_symbolAt? hat
    have hle := h.longest (.symbol t) ht
    have hge := symbolAt?_longest hat hs
    have heq := (List.prefix_of_prefix_length_le ht hs hle).eq_of_length (by omega)
    rw [Symbol.chars_injective heq]

/-- A symbol that is the longest match is not the sign of a number. -/
theorem LongestMatch.not_sign {s : Symbol} {c : Char} {cs rest : List Char}
    {o : Except Fault Content} (h : LongestMatch s.chars o rest) (hs : s.chars = c :: cs)
    (hd : ∀ d ∈ c :: cs, d.isDigit = false) :
    ¬ (c.isDigit || c == '-' && beginsWithDigit (cs ++ rest)) = true := by
  intro hsign
  rw [hd c List.mem_cons_self, Bool.false_or, Bool.and_eq_true, beq_iff_eq] at hsign
  obtain ⟨rfl, hdigit⟩ := hsign
  cases hcs : cs ++ rest with
  | nil =>
    rw [hcs] at hdigit
    cases hdigit
  | cons d more =>
    rw [hcs] at hdigit
    have hspells : Spells ['-', d] _ := .integer true (.singleton hdigit)
    have hle := h.longest hspells ⟨more, by simp [hs, hcs]⟩
    rw [hs] at hle
    cases cs with
    | nil => simp at hle
    | cons d' cs' =>
      cases hcs
      have hdigit' : d.isDigit = true := hdigit
      rw [hd d (by simp)] at hdigit'
      cases hdigit'

theorem LongestMatch.scan_symbol {s : Symbol} {rest : List Char}
    (h : LongestMatch s.chars (.ok (.symbol s s.text)) rest) :
    scan (s.chars ++ rest) = .of s.chars (.ok (.symbol s s.text)) rest := by
  obtain ⟨c, cs, hs, hc, hq, ha, hd⟩ := s.exists_chars
  have hsign := h.not_sign hs hd
  have hat := h.symbolAt?_eq
  have hcons : s.chars ++ rest = c :: (cs ++ rest) := by rw [hs, List.cons_append]
  rw [hcons] at hat ⊢
  rw [scan_cons, if_neg (by simp [hc]), if_neg hsign, if_neg hq, if_neg ha, hat]
  dsimp only
  unfold scanSymbol
  rw [← hcons, List.drop_left]
  rfl

/-! ## Any lexeme -/

/-- The longest match at the front of a text is what is taken from it. -/
theorem LongestMatch.scan_eq {t rest : List Char} {o : Except Fault Content}
    (h : LongestMatch t o rest) : scan (t ++ rest) = .of t o rest := by
  cases h.spells with
  | @word c cs hc hcs =>
    refine scan_word hc hcs (h.ends ?_)
    intro d hd
    refine ⟨_, Spells.word hc ?_⟩
    intro d' hd'
    rcases List.mem_append.mp hd' with hd' | hd'
    · exact hcs d' hd'
    · rw [List.mem_singleton.mp hd']
      exact hd
  | @integer negative ds hds =>
    have hr : Ends Char.isDigit rest := by
      refine h.ends ?_
      intro d hd
      rw [List.append_assoc]
      exact ⟨_, Spells.integer negative (hds.snoc hd)⟩
    cases negative with
    | true => exact scan_negative hds hr
    | false =>
      have hf : EndsInteger rest := by
        rintro d more rfl
        by_contra hd
        have hpart : Digits [d] := .singleton (by simpa using hd)
        have hle := h.longest (.decimal hds hpart) ⟨more, by simp [signChars]⟩
        rw [show signChars false = [] from rfl, List.nil_append, List.length_append,
          List.length_cons] at hle
        omega
      obtain ⟨d, more, rfl, hd⟩ := hds.exists_cons
      exact (scan_digit hd).trans (scanUnsigned_integer hds hr hf)
  | @decimal whole part hw hp =>
    have hr : Ends Char.isDigit rest := by
      refine h.ends ?_
      intro d hd
      rw [List.append_assoc, List.cons_append]
      exact ⟨_, Spells.decimal hw (hp.snoc hd)⟩
    have hscan := scanUnsigned_decimal hw hp hr
    obtain ⟨d, more, rfl, hd⟩ := hw.exists_cons
    exact (scan_digit hd).trans hscan
  | string hcs => exact scan_string hcs
  | char hc => exact scan_char hc
  | symbol s => exact h.scan_symbol

/-- Where a rule matches, there is a longest match. -/
theorem exists_longestMatch {cs u : List Char} {r : Except Fault Content} (hu : Spells u r)
    (hcs : u <+: cs) : ∃ t o rest, cs = t ++ rest ∧ LongestMatch t o rest := by
  have hfin : {t : List Char | t <+: cs ∧ ∃ o, Spells t o}.Finite := by
    refine (List.finite_toSet cs.inits).subset ?_
    rintro t ⟨ht, -⟩
    exact (List.mem_inits t cs).mpr ht
  obtain ⟨t, ⟨⟨rest, rfl⟩, o, ho⟩, hmax⟩ :=
    Set.exists_max_image _ List.length hfin ⟨u, hcs, r, hu⟩
  exact ⟨t, o, rest, rfl, ho, fun hv hp => hmax _ ⟨hp, _, hv⟩⟩

/-- Where no rule matches, the character there is not recognized. -/
theorem scan_of_no_match {c : Char} {cs : List Char}
    (h : ∀ u r, Spells u r → ¬ u <+: c :: cs) :
    (scan (c :: cs)).outcome = .error (.unrecognized (String.singleton c)) := by
  rw [scan_cons]
  split
  · next hc => exact absurd ⟨cs, rfl⟩ (h [c] _ (.word hc (by simp)))
  split
  · next hd =>
    rcases Bool.or_eq_true_iff.mp hd with hd | hd
    · exact absurd ⟨cs, rfl⟩ (h _ _ (.integer false (.singleton hd)))
    · obtain ⟨hc, hd⟩ := Bool.and_eq_true_iff.mp hd
      obtain rfl : c = '-' := by simpa using hc
      cases cs with
      | nil => cases hd
      | cons d more =>
        exact absurd ⟨more, rfl⟩ (h _ _ (.integer true (.singleton hd)))
  split
  · next hq =>
    subst hq
    have happ : cs.takeWhile (· != '"') ++ cs.dropWhile (· != '"') = cs :=
      List.takeWhile_append_dropWhile
    unfold scanString
    dsimp only
    split
    · rfl
    · next q rest hrest =>
      have hnone : '"' ∉ cs.takeWhile (· != '"') := by
        intro hm
        simpa using List.mem_takeWhile_imp hm
      have hq : q = '"' := by
        have := List.head?_dropWhile_not (· != '"') cs
        simpa [hrest] using this
      rw [hrest, hq] at happ
      exact absurd ⟨rest, by simpa using happ⟩ (h _ _ (.string hnone))
  split
  · next ha =>
    subst ha
    unfold scanChar
    split
    · next c' rest he =>
      cases he
      split
      · rfl
      · next hn => exact absurd ⟨rest, rfl⟩ (h _ _ (.char hn))
    · rfl
  · rw [symbolAt?_eq_none fun s => h _ _ (.symbol s)]

end ScriptReader
