import ScriptReader.Proofs.Spelling

/-!
# What can be spelled

For each kind of token, what it can say when it is read from a script: the integers of
thirty-two bits, the numbers with a decimal text, the texts without a double quote, the
characters but the newline, and the names.  Reserved words and symbols are spelled as they are
written.

Main statements:

* `wordContent_eq_ident`: the words that are names;
* `Content.spelled_iff`: what is spelled.
-/

namespace ScriptReader

/-- A number that some decimal text has as its value. -/
def Binary64.IsDecimal (x : Binary64) : Prop :=
  ∃ whole part, Digits whole ∧ Digits part ∧ Binary64.ofDecimal? whole part = some x

/-- A name: a letter or an underscore, then letters, digits and underscores, and not one of the
reserved words. -/
def IsName (s : String) : Prop :=
  (∃ c cs, s = String.ofList (c :: cs) ∧ isIdentStart c = true ∧ ∀ d ∈ cs, isIdentChar d = true) ∧
    s ∉ reservedWords.map (·.1)

/-- One character, and not a newline. -/
def IsCharacter (s : String) : Prop :=
  ∃ c, s = String.singleton c ∧ c ≠ '\n'

namespace Content

/-- Some text says the content. -/
def Spelled (c : Content) : Prop :=
  ∃ cs, Spells cs (.ok c)

/-- What a content must be like to be spelled. -/
def Spellable : Content → Prop
  | int n => leastInt ≤ n ∧ n ≤ greatestInt
  | float x => x.IsDecimal
  | bool _ => True
  | string s => '"' ∉ s.toList
  | char s => IsCharacter s
  | ident s => IsName s
  | keyword k text => text = k.text
  | symbol s text => text = s.text
  | eof _ => False
  | other _ _ => False

end Content

/-! ## Words -/

theorem Keyword.ofText?_eq_none {s : String} (h : s ∉ reservedWords.map (·.1)) :
    Keyword.ofText? s = none := by
  refine List.find?_eq_none.mpr ?_
  intro k hk hs
  refine h (List.mem_map.mpr ⟨(k.text, .keyword k), ?_, by simpa using hs⟩)
  exact List.mem_append_left _ (List.mem_map_of_mem hk)

/-- The words that are names. -/
theorem wordContent_eq_ident {s name : String} :
    wordContent s = .ident name ↔ name = s ∧ s ∉ reservedWords.map (·.1) := by
  constructor
  · intro h
    unfold wordContent at h
    split at h
    · cases h
    · split at h
      · cases h
      · next ht hf =>
        split at h
        · cases h
        · next hk =>
          cases h
          refine ⟨rfl, ?_⟩
          simp only [reservedWords, List.map_append, List.map_map, List.mem_append, List.mem_map,
            Function.comp_apply, not_or, not_exists, not_and]
          refine ⟨?_, by simp [Ne.symm ht, Ne.symm hf]⟩
          rintro k hk' rfl
          rw [Keyword.ofText?_text] at hk
          cases hk
  · rintro ⟨rfl, h⟩
    have ht : name ≠ "true" := by
      rintro rfl
      exact h (by decide)
    have hf : name ≠ "false" := by
      rintro rfl
      exact h (by decide)
    unfold wordContent
    rw [if_neg ht, if_neg hf, Keyword.ofText?_eq_none h]

theorem Keyword.text_of_ofText? {s : String} {k : Keyword} (h : ofText? s = some k) :
    k.text = s := by
  simpa using List.find?_some h

theorem wordContent_cases (s : String) :
    (∃ b, wordContent s = .bool b) ∨ (∃ k, wordContent s = .keyword k s) ∨
      wordContent s = .ident s := by
  unfold wordContent
  split
  · exact Or.inl ⟨_, rfl⟩
  · split
    · exact Or.inl ⟨_, rfl⟩
    · split
      · exact Or.inr (Or.inl ⟨_, rfl⟩)
      · exact Or.inr (Or.inr rfl)

theorem Keyword.wordContent_text (k : Keyword) : wordContent k.text = .keyword k k.text := by
  have ht : k.text ≠ "true" := by cases k <;> decide
  have hf : k.text ≠ "false" := by cases k <;> decide
  unfold wordContent
  rw [if_neg ht, if_neg hf, ofText?_text]

theorem Keyword.exists_chars (k : Keyword) : ∃ c cs, k.text = String.ofList (c :: cs) ∧
    isIdentStart c = true ∧ ∀ d ∈ cs, isIdentChar d = true := by
  cases k <;> exact ⟨_, _, rfl, by decide, List.all_eq_true.mp (by decide)⟩

/-- A word says a truth value, a reserved word or a name. -/
theorem spellable_wordContent {c : Char} {cs : List Char} (hc : isIdentStart c = true)
    (hcs : ∀ d ∈ cs, isIdentChar d = true) :
    (wordContent (String.ofList (c :: cs))).Spellable := by
  generalize hs : String.ofList (c :: cs) = s
  cases hw : wordContent s with
  | bool b => trivial
  | keyword k text =>
    unfold wordContent at hw
    split at hw
    · cases hw
    · split at hw
      · cases hw
      · split at hw
        · next hk =>
          cases hw
          exact (Keyword.text_of_ofText? hk).symm
        · cases hw
  | ident name =>
    obtain ⟨rfl, hr⟩ := wordContent_eq_ident.mp hw
    exact ⟨⟨c, cs, hs.symm, hc, hcs⟩, hr⟩
  | int | float | string | char | symbol | eof | other =>
    rcases wordContent_cases s with ⟨b, h⟩ | ⟨k, h⟩ | h <;> rw [h] at hw <;> cases hw

/-! ## What is spelled -/

theorem decodeInteger_ok {negative : Bool} {ds : List Char} {c : Content} :
    decodeInteger negative ds = .ok c ↔
      ds.length ≤ digitLimit ∧ c = .int (signed negative (Binary64.digitsValue ds)) ∧
        leastInt ≤ signed negative (Binary64.digitsValue ds) ∧
        signed negative (Binary64.digitsValue ds) ≤ greatestInt := by
  unfold decodeInteger
  dsimp only
  split
  · constructor
    · intro h
      cases h
    · rintro ⟨h, -⟩
      omega
  · split
    · next h₁ h₂ =>
      rw [Except.ok.injEq]
      exact ⟨fun h => ⟨by omega, h.symm, h₂⟩, fun h => h.2.1.symm⟩
    · next h₁ h₂ =>
      constructor
      · intro h
        cases h
      · rintro ⟨-, -, h⟩
        exact absurd h h₂

/-- An integer is written as its sign and the digits of its size. -/
theorem toList_toString (n : Int) :
    (toString n).toList = signChars (decide (n < 0)) ++ Nat.toDigits 10 n.natAbs := by
  cases n with
  | ofNat m =>
    have hsign : decide (Int.ofNat m < 0) = false := decide_eq_false (Int.natCast_nonneg m).not_gt
    rw [hsign]
    exact String.toList_ofList
  | negSucc m =>
    have hsign : decide (Int.negSucc m < 0) = true := decide_eq_true (Int.negSucc_lt_zero m)
    rw [hsign]
    exact String.toList_append.trans (congrArg _ String.toList_ofList)

theorem spells_toString {n : Int} (h : leastInt ≤ n ∧ n ≤ greatestInt) :
    Spells (toString n).toList (.ok (.int n)) := by
  have hdigits : Digits (Nat.toDigits 10 n.natAbs) :=
    ⟨List.ne_nil_of_length_pos Nat.length_toDigits_pos,
      fun _ hd => Nat.isDigit_of_mem_toDigits (by decide) (by decide) hd⟩
  have hvalue : Binary64.digitsValue (Nat.toDigits 10 n.natAbs) = n.natAbs :=
    Nat.ofDigitChars_ten_toDigits
  have hlength : (Nat.toDigits 10 n.natAbs).length ≤ 10 := by
    rw [Nat.length_toDigits_le_iff (by decide) (by decide)]
    unfold leastInt greatestInt at h
    omega
  have hsigned : signed (decide (n < 0)) n.natAbs = n := by
    unfold signed
    by_cases hn : n < 0
    · rw [if_pos (decide_eq_true hn)]
      omega
    · rw [if_neg (by simpa using hn)]
      omega
  have hok : decodeInteger (decide (n < 0)) (Nat.toDigits 10 n.natAbs) = .ok (.int n) := by
    rw [decodeInteger_ok, hvalue, hsigned]
    exact ⟨Nat.le_trans hlength (by decide), rfl, h⟩
  have hspells := Spells.integer (decide (n < 0)) hdigits
  rwa [hok, ← toList_toString] at hspells

theorem decodeDecimal_ok {whole part : List Char} {c : Content} :
    decodeDecimal whole part = .ok c ↔
      ∃ x, Binary64.ofDecimal? whole part = some x ∧ c = .float x := by
  unfold decodeDecimal
  cases Binary64.ofDecimal? whole part with
  | none =>
    constructor
    · intro h
      cases h
    · rintro ⟨x, hx, -⟩
      cases hx
  | some x =>
    rw [Except.ok.injEq]
    constructor
    · rintro rfl
      exact ⟨x, rfl, rfl⟩
    · rintro ⟨y, hy, rfl⟩
      cases hy
      rfl

namespace Content

theorem spellable_of_spelled {c : Content} (h : c.Spelled) : c.Spellable := by
  obtain ⟨cs, hcs⟩ := h
  generalize ho : Except.ok c = o at hcs
  cases hcs with
  | word hc hcs =>
    cases ho
    exact spellable_wordContent hc hcs
  | integer negative _ =>
    obtain ⟨-, rfl, hrange⟩ := decodeInteger_ok.mp ho.symm
    exact hrange
  | decimal hw hp =>
    obtain ⟨x, hx, rfl⟩ := decodeDecimal_ok.mp ho.symm
    exact ⟨_, _, hw, hp, hx⟩
  | string hcs =>
    cases ho
    simpa [Spellable] using hcs
  | char hc =>
    cases ho
    exact ⟨_, rfl, hc⟩
  | symbol s =>
    cases ho
    rfl

theorem spelled_int {n : Int} (h : leastInt ≤ n ∧ n ≤ greatestInt) : (int n).Spelled :=
  ⟨_, spells_toString h⟩

/-- What is spelled. -/
theorem spelled_iff {c : Content} : c.Spelled ↔ c.Spellable := by
  constructor
  · exact spellable_of_spelled
  · intro h
    cases c with
    | int n => exact spelled_int h
    | float x =>
      obtain ⟨whole, part, hw, hp, hx⟩ := h
      have hspells := Spells.decimal hw hp
      rw [decodeDecimal_ok.mpr ⟨x, hx, rfl⟩] at hspells
      exact ⟨_, hspells⟩
    | bool b =>
      cases b with
      | true =>
        have hspells : Spells ['t', 'r', 'u', 'e'] _ :=
          .word (by decide) (List.all_eq_true.mp (by decide))
        exact ⟨_, hspells⟩
      | false =>
        have hspells : Spells ['f', 'a', 'l', 's', 'e'] _ :=
          .word (by decide) (List.all_eq_true.mp (by decide))
        exact ⟨_, hspells⟩
    | string s =>
      have hspells := Spells.string h
      rw [String.ofList_toList] at hspells
      exact ⟨_, hspells⟩
    | char s =>
      obtain ⟨c, rfl, hc⟩ := h
      exact ⟨_, .char hc⟩
    | ident s =>
      obtain ⟨⟨c, cs, rfl, hc, hcs⟩, hr⟩ := h
      have hspells := Spells.word hc hcs
      rw [wordContent_eq_ident.mpr ⟨rfl, hr⟩] at hspells
      exact ⟨_, hspells⟩
    | keyword k text =>
      obtain rfl : text = k.text := h
      obtain ⟨c, cs, hk, hc, hcs⟩ := k.exists_chars
      have hspells := Spells.word hc hcs
      rw [← hk, k.wordContent_text] at hspells
      exact ⟨_, hspells⟩
    | symbol s text =>
      obtain rfl : text = s.text := h
      exact ⟨_, .symbol s⟩
    | eof text => cases h
    | other name text => cases h

end Content

end ScriptReader
