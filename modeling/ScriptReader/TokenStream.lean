import ScriptReader.Lexeme
import ScriptReader.Gap

/-!
# The tokens of a script

`readToken` skips a gap and reads the lexeme behind it, and `streamFrom`
reads one token after the other.  It ends with the end mark or at the first
lexeme that cannot be read; the tokens before that are kept.

Main statements:

* `splits_readToken`: the gap, the token and the rest are the text;
* `rest_readToken_lt`: a token that is found before the end leaves a shorter text;
* `streamFrom_eq`: the stream, one token at a time.
-/

namespace ScriptReader

/-- What reading one token did. -/
structure TokenScan where
  /-- The gap in front of the token. -/
  gap : List Char
  /-- The characters of the token, or those a failure took. -/
  taken : List Char
  /-- The text behind them. -/
  rest : List Char
  /-- Where the token begins. -/
  position : Position
  /-- The token, or what is wrong. -/
  outcome : Except Error Token

/-- Reads the lexeme of a scan as a token at `p`. -/
def Scan.tokenAt (s : Scan) (p : Position) : Except Error Token :=
  match s.outcome with
  | .ok l => .ok (l.tokenAt p)
  | .error f => .error (.located p f)

/-- Reads the next token of the text `cs`, which begins at `p`. -/
def readToken (p : Position) (cs : List Char) : TokenScan :=
  let gap := (splitGap false cs).1
  let body := (splitGap false cs).2
  let q := p.after gap
  let s := scan body
  ⟨gap, s.taken, s.rest, q, s.tokenAt q⟩

/-- The gap, the token and the rest are the text. -/
theorem splits_readToken (p : Position) (cs : List Char) :
    (readToken p cs).gap ++ ((readToken p cs).taken ++ (readToken p cs).rest) = cs := by
  change (splitGap false cs).1 ++ ((scan (splitGap false cs).2).taken ++
    (scan (splitGap false cs).2).rest) = cs
  rw [scan_append, splitGap_append]

/-- Only the end of the text is read as the end mark. -/
theorem isEnd_of_scan_nil {p : Position} {t : Token} (h : (scan []).tokenAt p = .ok t) :
    t = Token.endAt p := by
  cases h
  rfl

/-- A token that is found, the end mark apart, leaves a shorter text. -/
theorem rest_readToken_lt {p : Position} {cs : List Char} {t : Token}
    (h : (readToken p cs).outcome = .ok t) (ht : t.isEnd = false) :
    (readToken p cs).rest.length < cs.length := by
  have hle := length_splitGap_le false cs
  change (scan (splitGap false cs).2).rest.length < cs.length
  change (scan (splitGap false cs).2).tokenAt (p.after (splitGap false cs).1) = .ok t at h
  cases hb : (splitGap false cs).2 with
  | nil =>
    rw [hb] at h
    rw [isEnd_of_scan_nil h] at ht
    cases ht
  | cons c body =>
    rw [hb] at h hle
    unfold Scan.tokenAt at h
    split at h
    · next l hl =>
      have := rest_scan_lt hl
      omega
    · cases h

/-- The tokens of a text, and the error that ends them if one does. -/
structure TokenStream where
  /-- The tokens that can be read. -/
  tokens : List Token
  /-- The error at which reading stops; without one it stops at the end mark. -/
  failure : Option Error
deriving Repr, DecidableEq

/-- The tokens of the text `cs`, which begins at `p`. -/
def streamFrom (p : Position) (cs : List Char) : TokenStream :=
  match _h : (readToken p cs).outcome with
  | .error e => ⟨[], some e⟩
  | .ok t =>
    if _ht : t.isEnd = true then ⟨[t], none⟩
    else
      let later := streamFrom ((readToken p cs).position.after (readToken p cs).taken)
        (readToken p cs).rest
      ⟨t :: later.tokens, later.failure⟩
termination_by cs.length
decreasing_by exact rest_readToken_lt _h (by simpa using _ht)

/-- The stream of a text, one token at a time. -/
theorem streamFrom_eq (p : Position) (cs : List Char) :
    streamFrom p cs =
      match (readToken p cs).outcome with
      | .error e => ⟨[], some e⟩
      | .ok t =>
        if t.isEnd then ⟨[t], none⟩
        else
          let later := streamFrom ((readToken p cs).position.after (readToken p cs).taken)
            (readToken p cs).rest
          ⟨t :: later.tokens, later.failure⟩ := by
  rw [streamFrom]
  split <;> simp_all

/-- The tokens of a script. -/
def tokenStream (source : String) : TokenStream :=
  streamFrom .start source.toList

/-- The tokens of a script that can be read to its end. -/
def tokenize (source : String) : Except Error (List Token) :=
  match (tokenStream source).failure with
  | some e => .error e
  | none => .ok (tokenStream source).tokens

/-- A compound operator is one token, and a sign belongs to the digit behind it. -/
example :
    (tokenStream "x += -1;").tokens.map Token.kind =
      [.ident, .symbol .plusAssign, .int, .symbol .semicolon, .eof] := by
  decide +kernel

end ScriptReader
