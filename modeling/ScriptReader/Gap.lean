/-!
# Gaps between tokens

Blanks and comments separate tokens and say nothing.  A comment begins with two
slashes and runs up to the next newline, which is itself a blank.  `splitGap`
cuts a text behind its longest gap.

Main statements:

* `splitGap_append`: the two parts are the text;
* `head_splitGap`: the second part begins with no blank.
-/

namespace ScriptReader

/-- The characters that separate tokens: space, tab, the two line ends, form feed
and vertical tab. -/
def isBlank (c : Char) : Bool :=
  c == ' ' || c == '\t' || c == '\r' || c == '\n' || c == '\x0c' || c == '\x0b'

/-- The longest gap at the front of a text, and the text behind it.  The flag tells
whether a comment is open. -/
def splitGap : (inComment : Bool) → List Char → List Char × List Char
  | _, [] => ([], [])
  | true, c :: cs =>
    let (gap, rest) := splitGap (c != '\n') cs
    (c :: gap, rest)
  | false, '/' :: '/' :: cs =>
    let (gap, rest) := splitGap true cs
    ('/' :: '/' :: gap, rest)
  | false, c :: cs =>
    if isBlank c then
      let (gap, rest) := splitGap false cs
      (c :: gap, rest)
    else ([], c :: cs)

/-- The gap and what follows it are the text. -/
theorem splitGap_append (inComment : Bool) (cs : List Char) :
    (splitGap inComment cs).1 ++ (splitGap inComment cs).2 = cs := by
  fun_induction splitGap inComment cs <;> simp_all

/-- What follows a gap begins with no blank. -/
theorem head_splitGap {inComment : Bool} {cs : List Char} {c : Char} {rest : List Char}
    (h : (splitGap inComment cs).2 = c :: rest) : isBlank c = false := by
  fun_induction splitGap inComment cs <;> simp_all

theorem length_splitGap_le (inComment : Bool) (cs : List Char) :
    (splitGap inComment cs).2.length ≤ cs.length := by
  have h := congrArg List.length (splitGap_append inComment cs)
  rw [List.length_append] at h
  omega

end ScriptReader
