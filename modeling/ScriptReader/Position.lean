/-!
# Places in a text

A `Position` says where a character stands: its line and column, counted from
one, and its offset, counted from zero.  `Position.advance` moves a position
over one character and `Position.after` over a whole text, so that the place of
any character is `Position.start.after` of the text before it.  A `Place` is the
part of a position that a syntax tree keeps.

The coordinates are integers and not natural numbers because positions are also
made by hand, and then hold whatever the maker wrote.

Main statements:

* `Position.after_append`: moving over two texts in turn is moving over their
  concatenation;
* `Position.offset_after`, `Position.line_after`: the offset grows by the number of characters,
  the line by that of the newlines.
-/

namespace ScriptReader

/-- Where a character stands in a text. -/
structure Position where
  /-- The line, counted from one. -/
  line : Int := 1
  /-- The column, counted from one. -/
  column : Int := 1
  /-- The number of characters before it. -/
  offset : Int := 0
deriving DecidableEq, Repr, Inhabited

/-- The line and column of a node of a syntax tree; zero where none was given. -/
structure Place where
  /-- The line, counted from one. -/
  line : Int := 0
  /-- The column, counted from one. -/
  column : Int := 0
deriving DecidableEq, Repr, Inhabited

namespace Position

/-- The place of the first character of a text. -/
def start : Position := {}

/-- The position behind the character `c`: a newline begins a new line, every
other character takes one column. -/
def advance (p : Position) (c : Char) : Position :=
  if c = '\n' then ⟨p.line + 1, 1, p.offset + 1⟩
  else ⟨p.line, p.column + 1, p.offset + 1⟩

/-- The position behind the text `cs`. -/
def after (p : Position) (cs : List Char) : Position :=
  cs.foldl advance p

/-- The line and column of a position. -/
def place (p : Position) : Place :=
  ⟨p.line, p.column⟩

/-- A position as messages name it. -/
def describe (p : Position) : String :=
  "line " ++ toString p.line ++ ", col " ++ toString p.column

@[simp] theorem after_nil (p : Position) : p.after [] = p := rfl

@[simp] theorem after_cons (p : Position) (c : Char) (cs : List Char) :
    p.after (c :: cs) = (p.advance c).after cs := rfl

theorem after_append (p : Position) (cs ds : List Char) :
    p.after (cs ++ ds) = (p.after cs).after ds :=
  List.foldl_append

@[simp] theorem offset_advance (p : Position) (c : Char) :
    (p.advance c).offset = p.offset + 1 := by
  unfold advance
  split <;> rfl

/-- The offset grows by one for every character. -/
theorem offset_after (p : Position) (cs : List Char) :
    (p.after cs).offset = p.offset + cs.length := by
  induction cs generalizing p with
  | nil => simp
  | cons c cs ih =>
    rw [after_cons, ih, offset_advance, List.length_cons]
    omega

/-- The line grows by one for every newline. -/
theorem line_after (p : Position) (cs : List Char) :
    (p.after cs).line = p.line + cs.count '\n' := by
  induction cs generalizing p with
  | nil => simp
  | cons c cs ih =>
    rw [after_cons, ih, List.count_cons]
    unfold advance
    by_cases hc : c = '\n'
    · simp [hc]
      omega
    · simp [hc]

end Position

end ScriptReader
