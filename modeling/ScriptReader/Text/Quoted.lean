import ScriptReader.Text.Printable

/-!
# Quoted texts

`quoted` writes a text between quotation marks, so that any text becomes one
visible line.  The mark is an apostrophe, or a double quote when the text holds
an apostrophe and no double quote.  Inside, a backslash stands before a backslash
and before the mark; a newline, a carriage return and a tab have an escape of one
letter; and any other character that is not printable is written as its code
point in hexadecimal digits, as few as two, four or eight of them.

Main statement: `escape_of_plain`, that all other characters stand for themselves.
-/

namespace ScriptReader.Text

/-- The lowest `width` hexadecimal digits of `n`. -/
def hexDigits : (width : Nat) → (n : Nat) → List Char
  | 0, _ => []
  | width + 1, n => hexDigits width (n / 16) ++ [Nat.digitChar (n % 16)]

/-- The escape of a character by its code point. -/
def codeEscape (c : Char) : List Char :=
  let n := c.toNat
  if n < 0x100 then '\\' :: 'x' :: hexDigits 2 n
  else if n < 0x10000 then '\\' :: 'u' :: hexDigits 4 n
  else '\\' :: 'U' :: hexDigits 8 n

/-- How a character is written between two marks. -/
def escape (mark c : Char) : List Char :=
  if c = mark ∨ c = '\\' then ['\\', c]
  else if c = '\n' then ['\\', 'n']
  else if c = '\r' then ['\\', 'r']
  else if c = '\t' then ['\\', 't']
  else if isPrintable c then [c]
  else codeEscape c

/-- The mark around a text: the one that needs fewer escapes, and of the two the
apostrophe where neither or both occur. -/
def markFor (cs : List Char) : Char :=
  if cs.contains '\'' && !cs.contains '"' then '"' else '\''

/-- A text between its marks. -/
def quotedChars (cs : List Char) : List Char :=
  let mark := markFor cs
  mark :: cs.flatMap (escape mark) ++ [mark]

/-- A text between its marks. -/
def quoted (s : String) : String :=
  String.ofList (quotedChars s.toList)

/-- A printable character that is neither the mark nor a backslash is written as
itself. -/
theorem escape_of_plain {mark c : Char} (hm : c ≠ mark) (hb : c ≠ '\\')
    (hn : c ≠ '\n') (hr : c ≠ '\r') (ht : c ≠ '\t') (hp : isPrintable c = true) :
    escape mark c = [c] := by
  simp [escape, hm, hb, hn, hr, ht, hp]

/-- The mark of a text never stands bare in it. -/
theorem escape_mark (mark : Char) : escape mark mark = ['\\', mark] := by
  simp [escape]

end ScriptReader.Text
