import ScriptReader.Cursor.Command
import ScriptReader.Proofs.TakenLexemes
import ScriptReader.Proofs.Tiling

/-!
# Streams

A `TextStream` is a text with the offset of its next character, and the line and column of that
character.  It finds its characters by their index in the whole text.  A run of characters that is
taken moves the line and column at once: by the number of newlines in it, and by the characters
behind the last one.

The readers of lexemes are those of `Cursor.Reading`, on a stream.  Each of them moves by taking
characters, and may fail when it has taken some.

Main definitions:

* `TextStream.behind`: the stream behind a run of characters;
* `TextStream.perform`: the commands of a cursor to a stream.
-/

namespace ScriptReader

/-- A command that takes no negative number of characters. -/
def Cursor.Command.IsForward : Cursor.Command → Prop
  | .take n => 0 ≤ n
  | _ => True

/-- A text with the offset, the line and the column of its next character. -/
structure TextStream where
  /-- The whole text. -/
  source : List Char
  /-- The number of characters in front of the next one. -/
  offset : Nat
  /-- The line of the next character, counted from one. -/
  line : Int
  /-- Its column, counted from one. -/
  column : Int
deriving DecidableEq, Repr

namespace TextStream

/-- A stream at the front of a text. -/
def ofText (source : String) : TextStream :=
  ⟨source.toList, 0, 1, 1⟩

/-- The position of the next character. -/
def location (s : TextStream) : Position :=
  ⟨s.line, s.column, s.offset⟩

/-- Whether no character is ahead. -/
def atEnd (s : TextStream) : Bool :=
  s.source.length ≤ s.offset

/-- The character `n` places ahead, if there is one. -/
def peek? (s : TextStream) (n : Int) : Option Char :=
  let i : Int := s.offset + n
  if 0 ≤ i then s.source[i.toNat]? else none

/-- Whether the text from the next character on begins with `cs`. -/
def isAt (s : TextStream) (cs : List Char) : Bool :=
  cs.isPrefixOf (s.source.drop s.offset)

/-- The index of the last newline of a text, or `-1` if there is none. -/
def lastNewline (cs : List Char) : Int :=
  cs.length - 1 - cs.reverse.idxOf '\n'

/-- The stream behind the characters `taken`.  Without a newline among them the column goes on;
otherwise it begins behind the last one. -/
def behind (s : TextStream) (taken : List Char) : TextStream :=
  if taken.count '\n' = 0 then
    { s with offset := s.offset + taken.length, column := s.column + taken.length }
  else
    { s with
      offset := s.offset + taken.length
      line := s.line + taken.count '\n'
      column := taken.length - lastNewline taken }

/-- The index behind the characters from `i` on that satisfy `p`. -/
def endOfRun (p : Char → Bool) (cs : List Char) (i : Nat) : Nat :=
  if h : i < cs.length then
    if p (cs.get ⟨i, h⟩) then endOfRun p cs (i + 1) else i
  else i
termination_by cs.length - i

/-- The least index from `i` on at which a text occurs, if there is one. -/
def find? (stop cs : List Char) (i : Nat) : Option Nat :=
  if stop.isPrefixOf (cs.drop i) then some i
  else if i < cs.length then find? stop cs (i + 1)
  else none
termination_by cs.length - i

/-! ## Readers -/

/-- What is done with a stream in order to answer an `α`. -/
abbrev Lexing (α : Type) : Type :=
  EStateM Error TextStream α

namespace Lexing

variable {α : Type}

/-- The character some places ahead. -/
def look (n : Int) : Lexing (Option Char) := fun s => .ok (s.peek? n) s

/-- Whether a text is ahead. -/
def isAhead (cs : List Char) : Lexing Bool := fun s => .ok (s.isAt cs) s

/-- Whether no character is ahead. -/
def isOver : Lexing Bool := fun s => .ok s.atEnd s

/-- The position of the next character. -/
def place : Lexing Position := fun s => .ok s.location s

/-- Something is wrong at a position. -/
def fail (p : Position) (f : Fault) : Lexing α := fun s => .error (.located p f) s

/-- Takes `n` characters, or none if so many are not left. -/
def take (n : Nat) : Lexing (List Char) := fun s =>
  if s.source.length < s.offset + n then .error (.located s.location (.cutShort n)) s
  else .ok (slice s.source s.offset (s.offset + n)) (s.behind (slice s.source s.offset (s.offset + n)))

/-- Takes the longest run of characters that satisfy `p`. -/
def takeWhile (p : Char → Bool) : Lexing (List Char) := fun s =>
  take (endOfRun p s.source s.offset - s.offset) s

/-- Takes everything before the next `stop`, or all that is left. -/
def takeUntil (stop : List Char) : Lexing (List Char) := fun s =>
  take ((find? stop s.source s.offset).getD s.source.length - s.offset) s

/-- Skips blanks and comments in turn, in so many rounds at most. -/
def skipGapWithin : (rounds : Nat) → Lexing Unit
  | 0 => fail .start Cursor.Reading.noRounds
  | rounds + 1 => do
    let _ ← takeWhile isBlank
    if ← isAhead ['/', '/'] then
      let _ ← takeUntil ['\n']
      skipGapWithin rounds
    else return ()

/-- Skips the gap ahead. -/
def skipGap : Lexing Unit := fun s => skipGapWithin (s.source.length - s.offset + 1) s

/-- What some characters that were taken say. -/
def decoded (p : Position) (o : Except Fault Lexeme) : Lexing Token :=
  match o with
  | .ok l => return l.tokenAt p
  | .error f => fail p f

/-- Takes the minus sign, if there is one. -/
def sign : Lexing (List Char) := do
  if (← look 0) == some '-' then take 1 else return []

/-- Reads the number that begins at `p`, behind its sign. -/
def numberBehind (p : Position) (sign : List Char) : Lexing Token := do
  let whole ← takeWhile Char.isDigit
  if sign.isEmpty && (← look 0) == some '.' && (← look 1).any Char.isDigit then
    let _ ← take 1
    let part ← takeWhile Char.isDigit
    decoded p (decimal whole part)
  else decoded p (integer (!sign.isEmpty) whole)

/-- Reads a number that begins at `p`. -/
def number (p : Position) : Lexing Token := do
  numberBehind p (← sign)

/-- Takes the quote behind a text. -/
def endQuote (p : Position) (text : List Char) : Lexing Token := do
  if ← isOver then fail p (.unrecognized "\"")
  else
    let _ ← take 1
    decoded p (.ok ⟨.string (String.ofList text), String.ofList ('"' :: (text ++ ['"']))⟩)

/-- Reads a quoted text that begins at `p`. -/
def quoted (p : Position) : Lexing Token := do
  let _ ← take 1
  endQuote p (← takeUntil ['"'])

/-- Reads a character between apostrophes that begins at `p`. -/
def char (p : Position) : Lexing Token := do
  let c ← look 1
  let q ← look 2
  match c with
  | none => fail p (.unrecognized "'")
  | some c =>
    if c = '\n' ∨ q ≠ some '\'' then fail p (.unrecognized "'")
    else
      let text ← take 3
      decoded p (.ok ⟨.char (String.singleton c), String.ofList text⟩)

/-- Reads the first of some symbols that is ahead, if one is. -/
def symbol (p : Position) : List Symbol → Lexing (Option Token)
  | [] => return none
  | s :: ss => do
    if ← isAhead s.chars then
      let _ ← take s.chars.length
      return some ((⟨.symbol s s.text, s.text⟩ : Lexeme).tokenAt p)
    else symbol p ss

/-- Reads the lexeme ahead, which begins with `c`, as a token at `p`. -/
def lexeme (p : Position) (c : Char) : Lexing Token := do
  if isIdentStart c then
    let word ← takeWhile isIdentChar
    decoded p (.ok ⟨wordContent (String.ofList word), String.ofList word⟩)
  else if c.isDigit || c == '-' && (← look 1).any Char.isDigit then number p
  else if c = '"' then quoted p
  else if c = '\'' then char p
  else match ← symbol p Symbol.longestFirst with
    | some t => return t
    | none => fail p (.unrecognized (String.singleton c))

/-- Skips a gap and reads the token behind it. -/
def token : Lexing Token := do
  skipGap
  let p ← place
  match ← look 0 with
  | none => return .endAt p
  | some c => lexeme p c

/-! ## Commands -/

/-- What is answered with a symbol, if there is one. -/
def symbolAnswer : Option Token → Cursor.Answer
  | some t => .token t
  | none => .nothing

/-- What is done for a command.  A lexeme is read as a token at the place of the next character,
and no count of characters is negative. -/
def command : Cursor.Command → Lexing Cursor.Answer
  | .peek n => return .chars (← look n).toList
  | .isAt cs => return .flag (← isAhead cs)
  | .atEnd => return .flag (← isOver)
  | .locate => return .position (← place)
  | .take n => return .chars (← take n.toNat)
  | .takeWhile set => return .chars (← takeWhile set.contains)
  | .takeUntil stop => return .chars (← takeUntil stop)
  | .skipGap => do
    skipGap
    return .nothing
  | .nextToken => return .token (← token)
  | .readSymbol => do return symbolAnswer (← symbol (← place) Symbol.longestFirst)
  | .readNumber => do return .token (← number (← place))
  | .readString => do return .token (← quoted (← place))
  | .readChar => do return .token (← char (← place))

/-- What a run answers, and the stream that it leaves. -/
def ended : EStateM.Result Error TextStream α → Except Error α × TextStream
  | .ok a s => (.ok a, s)
  | .error e s => (.error e, s)

end Lexing

/-- Performs a command. -/
def perform (s : TextStream) (a : Cursor.Command) : Except Error Cursor.Answer × TextStream :=
  Lexing.ended (Lexing.command a s)

/-- Performs commands in turn, and keeps each answer with the stream it left. -/
def performAll (s : TextStream) :
    List Cursor.Command → List (Except Error Cursor.Answer × TextStream)
  | [] => []
  | a :: as => s.perform a :: performAll (s.perform a).2 as

/-- The stream that some commands leave. -/
def through (s : TextStream) (as : List Cursor.Command) : TextStream :=
  as.foldl (fun s a => (s.perform a).2) s

end TextStream

end ScriptReader
