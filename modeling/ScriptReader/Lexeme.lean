import ScriptReader.Error
import ScriptReader.Binary64.Nearest

/-!
# Lexemes

A lexeme is a run of characters that says one thing: a word, a number, a quoted
text or a symbol.  Each reader below takes a lexeme from the front of a
text and answers with a `Scan`: the characters it took, the text behind them, and
either the lexeme or what is wrong.  A reader that fails may have taken some
characters; none of them looks at what stands before the text.

`scan` chooses the reader by the first characters.

Main statements:

* `scan_append`: the characters taken and the rest are the text;
* `rest_scan_lt`: a lexeme that is found has at least one character.
-/

namespace ScriptReader

/-- A lexeme: what it says and how it is written. -/
structure Lexeme where
  /-- What it says. -/
  content : Content
  /-- How it is written. -/
  text : String
deriving DecidableEq, Repr

/-- A lexeme at a position is a token. -/
def Lexeme.tokenAt (l : Lexeme) (p : Position) : Token :=
  ⟨l.content, p, l.text⟩

/-- What a reader did. -/
structure Scan where
  /-- The characters taken. -/
  taken : List Char
  /-- The text behind them. -/
  rest : List Char
  /-- The lexeme, or what is wrong. -/
  outcome : Except Fault Lexeme

/-! ## Classes of characters -/

/-- The characters that begin a name: the letters of the alphabet and the underscore. -/
def isIdentStart (c : Char) : Bool :=
  c.isAlpha || c == '_'

/-- The characters of a name. -/
def isIdentChar (c : Char) : Bool :=
  isIdentStart c || c.isDigit

/-! ## Words -/

/-- What a word says: a truth value, a reserved word or a name. -/
def wordContent (s : String) : Content :=
  if s = "true" then .bool true
  else if s = "false" then .bool false
  else match Keyword.ofText? s with
    | some k => .keyword k s
    | none => .ident s

/-- Reads the longest word. -/
def scanWord (cs : List Char) : Scan :=
  let word := String.ofList (cs.takeWhile isIdentChar)
  ⟨cs.takeWhile isIdentChar, cs.dropWhile isIdentChar, .ok ⟨wordContent word, word⟩⟩

/-! ## Numbers -/

/-- The least integer that a literal may denote: `-2 ^ 31`. -/
def leastInt : Int := -2147483648

/-- The greatest integer that a literal may denote: `2 ^ 31 - 1`. -/
def greatestInt : Int := 2147483647

/-- What `count` digits of the value `n` say, written `text`: an integer of thirty-two
bits. -/
def boundedInteger (n : Int) (count : Nat) (text : String) : Except Fault Lexeme :=
  if count = 0 then .error (.noDigits text)
  else if digitLimit < count then .error (.tooManyDigits count)
  else if leastInt ≤ n ∧ n ≤ greatestInt then .ok ⟨.int n, text⟩
  else .error (.malformed text "int")

/-- What decimal digits say, behind a minus sign or alone. -/
def integer (negative : Bool) (digits : List Char) : Except Fault Lexeme :=
  let size : Int := Binary64.digitsValue digits
  if negative then boundedInteger (-size) digits.length (String.ofList ('-' :: digits))
  else boundedInteger size digits.length (String.ofList digits)

/-- What decimal digits around a point say: a floating-point number. -/
def decimal (whole part : List Char) : Except Fault Lexeme :=
  let text := String.ofList (whole ++ '.' :: part)
  match Binary64.ofDecimal? whole part with
  | some x => .ok ⟨.float x, text⟩
  | none => .error (.malformed text "float")

/-- Reads a number without a sign: digits, and with a point and a digit behind them
a fraction. -/
def scanUnsigned (cs : List Char) : Scan :=
  let whole := cs.takeWhile Char.isDigit
  match cs.dropWhile Char.isDigit with
  | '.' :: d :: more =>
    if d.isDigit then
      let part := (d :: more).takeWhile Char.isDigit
      ⟨whole ++ '.' :: part, (d :: more).dropWhile Char.isDigit, decimal whole part⟩
    else ⟨whole, '.' :: d :: more, integer false whole⟩
  | rest => ⟨whole, rest, integer false whole⟩

/-- Reads a number.  A number with a sign has no fraction. -/
def scanNumber (cs : List Char) : Scan :=
  match cs with
  | '-' :: body =>
    let digits := body.takeWhile Char.isDigit
    ⟨'-' :: digits, body.dropWhile Char.isDigit, integer true digits⟩
  | _ => scanUnsigned cs

/-! ## Quoted texts -/

/-- Reads one character, whichever it is, and the text up to the next double quote.
There are no escapes, and a text that is not closed takes everything. -/
def scanString (cs : List Char) : Scan :=
  match cs with
  | [] => ⟨[], [], .error (.cutShort 1)⟩
  | c :: body =>
    let text := body.takeWhile (· != '"')
    match body.dropWhile (· != '"') with
    | [] => ⟨c :: text, [], .error (.unrecognized "\"")⟩
    | q :: rest =>
      ⟨c :: (text ++ [q]), rest,
        .ok ⟨.string (String.ofList text), String.ofList ('"' :: (text ++ ['"']))⟩⟩

/-- Reads three characters, of which the last is an apostrophe and the middle one
is what they say; it cannot be a newline. -/
def scanChar (cs : List Char) : Scan :=
  match cs with
  | a :: c :: '\'' :: rest =>
    if c = '\n' then ⟨[], cs, .error (.unrecognized "'")⟩
    else ⟨[a, c, '\''], rest, .ok ⟨.char (String.singleton c), String.ofList [a, c, '\'']⟩⟩
  | _ => ⟨[], cs, .error (.unrecognized "'")⟩

/-! ## Symbols -/

/-- The longest symbol at the front of a text. -/
def symbolAt? (cs : List Char) : Option Symbol :=
  Symbol.longestFirst.find? (·.chars.isPrefixOf cs)

/-- Reads the symbol `s` from a text that begins with it. -/
def scanSymbol (s : Symbol) (cs : List Char) : Scan :=
  ⟨s.chars, cs.drop s.chars.length, .ok ⟨.symbol s s.text, s.text⟩⟩

/-! ## Any lexeme -/

/-- Whether a digit stands at the front of a text. -/
def beginsWithDigit : List Char → Bool
  | [] => false
  | c :: _ => c.isDigit

/-- Reads the lexeme at the front of a text.  At the end of the text that is the
end mark, which takes no characters. -/
def scan : List Char → Scan
  | [] => ⟨[], [], .ok ⟨.eof "EOF", ""⟩⟩
  | c :: cs =>
    if isIdentStart c then scanWord (c :: cs)
    else if c.isDigit || c == '-' && beginsWithDigit cs then scanNumber (c :: cs)
    else if c = '"' then scanString (c :: cs)
    else if c = '\'' then scanChar (c :: cs)
    else match symbolAt? (c :: cs) with
      | some s => scanSymbol s (c :: cs)
      | none => ⟨[], c :: cs, .error (.unrecognized (String.singleton c))⟩

/-! ## What a reader takes -/

/-- A reader takes its characters from the front of the text. -/
def Scan.Splits (s : Scan) (cs : List Char) : Prop :=
  s.taken ++ s.rest = cs

theorem splits_scanWord (cs : List Char) : (scanWord cs).Splits cs :=
  List.takeWhile_append_dropWhile

theorem splits_scanUnsigned (cs : List Char) : (scanUnsigned cs).Splits cs := by
  have h : cs.takeWhile Char.isDigit ++ cs.dropWhile Char.isDigit = cs :=
    List.takeWhile_append_dropWhile
  unfold scanUnsigned
  simp only
  split
  · next d more hd =>
    split
    · rw [hd] at h
      simpa [Scan.Splits, List.takeWhile_append_dropWhile] using h
    · rw [hd] at h
      exact h
  · exact h

theorem splits_scanNumber (cs : List Char) : (scanNumber cs).Splits cs := by
  unfold scanNumber
  split
  · simp [Scan.Splits, List.takeWhile_append_dropWhile]
  · exact splits_scanUnsigned cs

theorem splits_scanString (cs : List Char) : (scanString cs).Splits cs := by
  unfold scanString
  split
  · rfl
  · next c body =>
    have h : body.takeWhile (· != '"') ++ body.dropWhile (· != '"') = body :=
      List.takeWhile_append_dropWhile
    simp only
    split
    · next hd =>
      rw [hd] at h
      simpa [Scan.Splits] using h
    · next q rest hd =>
      rw [hd] at h
      simpa [Scan.Splits] using h

theorem splits_scanChar (cs : List Char) : (scanChar cs).Splits cs := by
  unfold scanChar
  split
  · split <;> rfl
  · rfl

theorem isPrefixOf_of_symbolAt? {cs : List Char} {s : Symbol} (h : symbolAt? cs = some s) :
    s.chars <+: cs := by
  unfold symbolAt? at h
  simpa using List.find?_some h

theorem splits_scanSymbol {s : Symbol} {cs : List Char} (h : s.chars <+: cs) :
    (scanSymbol s cs).Splits cs := by
  obtain ⟨t, rfl⟩ := h
  simp [Scan.Splits, scanSymbol]

/-- The characters taken and the rest are the text. -/
theorem scan_append (cs : List Char) : (scan cs).taken ++ (scan cs).rest = cs := by
  change (scan cs).Splits cs
  unfold scan
  split
  · rfl
  · split
    · exact splits_scanWord _
    · split
      · exact splits_scanNumber _
      · split
        · exact splits_scanString _
        · split
          · exact splits_scanChar _
          · split
            · next s hs => exact splits_scanSymbol (isPrefixOf_of_symbolAt? hs)
            · rfl

theorem takeWhile_ne_nil {α : Type} {p : α → Bool} {c : α} {cs : List α} (h : p c = true) :
    (c :: cs).takeWhile p ≠ [] := by
  simp [h]

theorem taken_scanUnsigned_ne_nil {c : Char} {cs : List Char} (h : c.isDigit = true) :
    (scanUnsigned (c :: cs)).taken ≠ [] := by
  unfold scanUnsigned
  simp only
  split
  · split
    · simp
    · exact takeWhile_ne_nil h
  · exact takeWhile_ne_nil h

/-- A number takes its sign or its first digit. -/
theorem taken_scanNumber_ne_nil {c : Char} {cs : List Char}
    (h : (c.isDigit || c == '-' && beginsWithDigit cs) = true) :
    (scanNumber (c :: cs)).taken ≠ [] := by
  unfold scanNumber
  split
  · simp
  · next hne =>
    refine taken_scanUnsigned_ne_nil ?_
    rcases Bool.or_eq_true_iff.mp h with hd | hd
    · exact hd
    · have hc : c = '-' := by simpa using (Bool.and_eq_true_iff.mp hd).1
      exact absurd (by rw [hc]) (hne cs)

theorem scan_cons (c : Char) (cs : List Char) :
    scan (c :: cs) =
      if isIdentStart c then scanWord (c :: cs)
      else if c.isDigit || c == '-' && beginsWithDigit cs then scanNumber (c :: cs)
      else if c = '"' then scanString (c :: cs)
      else if c = '\'' then scanChar (c :: cs)
      else match symbolAt? (c :: cs) with
        | some s => scanSymbol s (c :: cs)
        | none => ⟨[], c :: cs, .error (.unrecognized (String.singleton c))⟩ := rfl

theorem taken_scanString_ne_nil (c : Char) (cs : List Char) :
    (scanString (c :: cs)).taken ≠ [] := by
  unfold scanString
  simp only
  split <;> simp

theorem taken_scanChar_ne_nil {cs : List Char} {l : Lexeme}
    (h : (scanChar cs).outcome = .ok l) : (scanChar cs).taken ≠ [] := by
  unfold scanChar at h ⊢
  split at h
  · split at h
    · cases h
    · next hn => simp [hn]
  · cases h

/-- A lexeme that is found before the end has at least one character. -/
theorem taken_scan_ne_nil {c : Char} {cs : List Char} {l : Lexeme}
    (h : (scan (c :: cs)).outcome = .ok l) : (scan (c :: cs)).taken ≠ [] := by
  rw [scan_cons] at h ⊢
  by_cases hw : isIdentStart c = true
  · rw [if_pos hw]
    exact takeWhile_ne_nil (by simp [isIdentChar, hw])
  rw [if_neg hw] at h ⊢
  by_cases hd : (c.isDigit || c == '-' && beginsWithDigit cs) = true
  · rw [if_pos hd]
    exact taken_scanNumber_ne_nil hd
  rw [if_neg hd] at h ⊢
  by_cases hq : c = '"'
  · rw [if_pos hq]
    exact taken_scanString_ne_nil c cs
  rw [if_neg hq] at h ⊢
  by_cases ha : c = '\''
  · rw [if_pos ha] at h ⊢
    exact taken_scanChar_ne_nil h
  rw [if_neg ha] at h ⊢
  cases hs : symbolAt? (c :: cs) with
  | none =>
    rw [hs] at h
    cases h
  | some s => exact s.chars_ne_nil

/-- A lexeme that is found leaves a shorter text. -/
theorem rest_scan_lt {c : Char} {cs : List Char} {l : Lexeme}
    (h : (scan (c :: cs)).outcome = .ok l) :
    (scan (c :: cs)).rest.length < (c :: cs).length := by
  have happ := congrArg List.length (scan_append (c :: cs))
  have hpos := List.length_pos_iff.mpr (taken_scan_ne_nil h)
  rw [List.length_append] at happ
  omega

end ScriptReader
