import ScriptReader.Cursor

/-!
# Commands to a cursor

A `Cursor.Command` asks a cursor to look, to take or to read, and
`Cursor.perform` does it.  A command that fails leaves the cursor where the failure
left it, and the next one goes on from there.

Main statement: `Cursor.perform_look`, that looking moves nothing.
-/

namespace ScriptReader.Cursor

/-- What a cursor can be asked. -/
inductive Command where
  /-- The character some places ahead. -/
  | peek (n : Int)
  /-- Whether a text is ahead. -/
  | isAt (cs : List Char)
  /-- Whether nothing is ahead. -/
  | atEnd
  /-- The position of the next character. -/
  | locate
  /-- A number of characters. -/
  | take (n : Int)
  /-- The longest run of characters out of a set. -/
  | takeWhile (set : List Char)
  /-- The characters before a text. -/
  | takeUntil (stop : List Char)
  /-- Nothing, behind the gap ahead. -/
  | skipGap
  /-- The token behind the gap ahead. -/
  | nextToken
  /-- The symbol ahead. -/
  | readSymbol
  /-- The number ahead. -/
  | readNumber
  /-- The text ahead, whatever its first character. -/
  | readString
  /-- The character literal ahead, whatever its first character. -/
  | readChar
deriving DecidableEq, Repr

/-- What a cursor answers. -/
inductive Answer where
  | nothing
  | flag (b : Bool)
  | chars (cs : List Char)
  | position (p : Position)
  | token (t : Token)
deriving DecidableEq, Repr

/-- Whether a command only looks. -/
def Command.looks : Command → Bool
  | .peek _ => true
  | .isAt _ => true
  | .atEnd => true
  | .locate => true
  | _ => false

/-- Answers with the token that was read. -/
def answerToken (r : Except Error Token × Cursor) : Except Error Answer × Cursor :=
  (r.1.map .token, r.2)

/-- Performs a command. -/
def perform (c : Cursor) : Command → Except Error Answer × Cursor
  | .peek n => (.ok (.chars (c.peek? n).toList), c)
  | .isAt cs => (.ok (.flag (c.isAt cs)), c)
  | .atEnd => (.ok (.flag c.atEnd), c)
  | .locate => (.ok (.position c.position), c)
  | .take n => ((c.take n).1.map .chars, (c.take n).2)
  | .takeWhile set => (.ok (.chars (c.takeWhile set.contains).1), (c.takeWhile set.contains).2)
  | .takeUntil stop => (.ok (.chars (c.takeUntil stop).1), (c.takeUntil stop).2)
  | .skipGap => (.ok .nothing, c.skipGap)
  | .nextToken => answerToken c.nextToken
  | .readSymbol =>
    (.ok (match c.readSymbol?.1 with
      | some t => .token t
      | none => .nothing), c.readSymbol?.2)
  | .readNumber => answerToken (c.read scanNumber)
  | .readString => answerToken (c.read scanString)
  | .readChar => answerToken (c.read scanChar)

/-- Performs commands in turn, and keeps each answer with the cursor it left. -/
def performAll (c : Cursor) : List Command → List (Except Error Answer × Cursor)
  | [] => []
  | a :: as => c.perform a :: performAll (c.perform a).2 as

/-- Looking moves nothing. -/
theorem perform_look {c : Cursor} {a : Command} (h : a.looks = true) : (c.perform a).2 = c := by
  cases a <;> simp_all [Command.looks, perform]

end ScriptReader.Cursor
