import ScriptReader.TokenStream

/-!
# Cursors

A `Cursor` stands between two characters of a text and knows its position.  It
looks at the characters around it, takes runs of characters and reads tokens, and
a read that fails leaves it behind the characters that the read took.

Main statements:

* `Cursor.source_move`: moving keeps the text;
* `Cursor.Exact.move`: while a cursor only moves ahead, its position is that of
  the text it has passed.
-/

namespace ScriptReader

/-- A place between two characters of a text. -/
structure Cursor where
  /-- The characters passed, the nearest first. -/
  past : List Char
  /-- The characters ahead. -/
  rest : List Char
  /-- The position of the next character. -/
  position : Position
deriving DecidableEq, Repr

namespace Cursor

/-- The front of a text. -/
def ofText (source : String) : Cursor :=
  ⟨[], source.toList, .start⟩

/-- The whole text. -/
def source (c : Cursor) : List Char :=
  c.past.reverse ++ c.rest

/-- Whether no character is ahead. -/
def atEnd (c : Cursor) : Bool :=
  c.rest.isEmpty

/-- The character `n` places ahead, or behind for a negative `n`, if there is one. -/
def peek? (c : Cursor) (n : Int) : Option Char :=
  if 0 ≤ n then c.rest[n.toNat]? else c.past[(-n - 1).toNat]?

/-- Whether the text ahead begins with `cs`. -/
def isAt (c : Cursor) (cs : List Char) : Bool :=
  cs.isPrefixOf c.rest

/-- The cursor behind the characters `taken`, with `rest` ahead. -/
def move (c : Cursor) (taken rest : List Char) : Cursor :=
  ⟨taken.reverse ++ c.past, rest, c.position.after taken⟩

/-- The cursor behind the next `n` characters. -/
def drop (c : Cursor) (n : Nat) : Cursor :=
  c.move (c.rest.take n) (c.rest.drop n)

/-- The cursor `n` characters back, at the line and column it had. -/
def back (c : Cursor) (n : Nat) : Cursor :=
  ⟨c.past.drop n, (c.past.take n).reverse ++ c.rest,
    { c.position with offset := c.position.offset - n }⟩

/-- Takes `n` characters, or none if so many are not left.  A negative number takes
nothing and goes back. -/
def take (c : Cursor) (n : Int) : Except Error (List Char) × Cursor :=
  if n < 0 then (.ok [], c.back (-n).toNat)
  else if n.toNat ≤ c.rest.length then (.ok (c.rest.take n.toNat), c.drop n.toNat)
  else (.error (.located c.position (.cutShort n)), c)

/-- Takes the longest run of characters that satisfy `p`. -/
def takeWhile (c : Cursor) (p : Char → Bool) : List Char × Cursor :=
  (c.rest.takeWhile p, c.move (c.rest.takeWhile p) (c.rest.dropWhile p))

/-- The number of characters of `cs` before `stop` first occurs, or all of them if it
never does. -/
def lengthBefore (stop : List Char) : List Char → Nat
  | [] => 0
  | c :: cs => if stop.isPrefixOf (c :: cs) then 0 else lengthBefore stop cs + 1

/-- Takes everything before the next `stop`, or all that is left. -/
def takeUntil (c : Cursor) (stop : List Char) : List Char × Cursor :=
  (c.rest.take (lengthBefore stop c.rest), c.drop (lengthBefore stop c.rest))

/-- Skips the gap ahead. -/
def skipGap (c : Cursor) : Cursor :=
  c.move (splitGap false c.rest).1 (splitGap false c.rest).2

/-- Reads a lexeme as a token that begins here. -/
def read (c : Cursor) (scanner : List Char → Scan) : Except Error Token × Cursor :=
  ((scanner c.rest).tokenAt c.position, c.move (scanner c.rest).taken (scanner c.rest).rest)

/-- Skips a gap and reads the token behind it. -/
def nextToken (c : Cursor) : Except Error Token × Cursor :=
  c.skipGap.read scan

/-- Reads the longest symbol ahead, if there is one. -/
def readSymbol? (c : Cursor) : Option Token × Cursor :=
  match symbolAt? c.rest with
  | none => (none, c)
  | some s =>
    (some ((⟨.symbol s s.text, s.text⟩ : Lexeme).tokenAt c.position), c.drop s.chars.length)

/-! ## Moving -/

/-- Moving keeps the text. -/
theorem source_move {c : Cursor} {taken rest : List Char} (h : taken ++ rest = c.rest) :
    (c.move taken rest).source = c.source := by
  simp [move, source, ← h]

/-- The position of a cursor is that of the text it has passed. -/
def Exact (c : Cursor) : Prop :=
  c.position = Position.start.after c.past.reverse

theorem exact_ofText (source : String) : (ofText source).Exact := rfl

theorem Exact.move {c : Cursor} (h : c.Exact) (taken rest : List Char) :
    (c.move taken rest).Exact := by
  simp only [Exact, Cursor.move, List.reverse_append, List.reverse_reverse] at h ⊢
  rw [h, Position.after_append]

end Cursor

end ScriptReader
