import ScriptReader.Position
import ScriptReader.Kind
import ScriptReader.Binary64.Shortest
import ScriptReader.Text.Quoted

/-!
# Tokens

A `Token` is one word of a script: what it says, where it begins and how it is
written.  What it says is its `Content`, which fixes its `Kind` and holds the
decoded value of a literal and the spelling of everything else.

Main definitions:

* `Token.same`: equality of tokens, by what they say and where they stand, and
  not by how they are written;
* `Token.endAt`: the mark that closes a script.
-/

namespace ScriptReader

/-- What a token says. -/
inductive Content where
  | int (n : Int)
  | float (x : Binary64)
  | bool (b : Bool)
  | string (s : String)
  | char (s : String)
  | ident (s : String)
  | keyword (k : Keyword) (text : String)
  | symbol (s : Symbol) (text : String)
  | eof (text : String)
  | other (name text : String)
deriving DecidableEq, Repr, Inhabited

/-- The text of a truth value. -/
def boolText (b : Bool) : String :=
  if b then "True" else "False"

namespace Content

/-- The kind of a content. -/
def kind : Content → Kind
  | int _ => .int
  | float _ => .float
  | bool _ => .bool
  | string _ => .string
  | char _ => .char
  | ident _ => .ident
  | keyword k _ => .keyword k
  | symbol s _ => .symbol s
  | eof _ => .eof
  | other name _ => .other name

/-- The content of a kind whose value is a text; nothing for a number or a truth
value. -/
def ofText? (k : Kind) (text : String) : Option Content :=
  match k with
  | .int => none
  | .float => none
  | .bool => none
  | .string => some (string text)
  | .char => some (char text)
  | .ident => some (ident text)
  | .keyword k => some (keyword k text)
  | .symbol s => some (symbol s text)
  | .eof => some (eof text)
  | .other name => some (other name text)

/-- The value as a bare text. -/
def plain : Content → String
  | int n => toString n
  | float x => x.text
  | bool b => boolText b
  | string s => s
  | char s => s
  | ident s => s
  | keyword _ text => text
  | symbol _ text => text
  | eof text => text
  | other _ text => text

/-- Equality of kinds and values. -/
def same : Content → Content → Bool
  | float x, float y => x.same y
  | c, d => c == d

end Content

/-- One word of a script. -/
structure Token where
  /-- What it says. -/
  content : Content
  /-- Where it begins. -/
  position : Position
  /-- How it is written. -/
  lexeme : String
deriving DecidableEq, Repr, Inhabited

namespace Token

/-- The kind of a token. -/
def kind (t : Token) : Kind :=
  t.content.kind

/-- The line and column of a token. -/
def place (t : Token) : Place :=
  t.position.place

/-- The mark that closes a script, standing at `p`. -/
def endAt (p : Position) : Token :=
  ⟨.eof "EOF", p, ""⟩

/-- Whether a token closes a script. -/
def isEnd (t : Token) : Bool :=
  t.kind == .eof

/-- The operator that a token puts between two operands. -/
def binary? (t : Token) : Option Operator :=
  match t.content with
  | .symbol s _ => s.binary?
  | _ => none

/-- The symbol of a token that changes a variable, with its operator. -/
def update? (t : Token) : Option (Symbol × Operator) :=
  match t.content with
  | .symbol s _ => s.update?.map (s, ·)
  | _ => none

/-- The operator of a token that changes a variable by one. -/
def step? (t : Token) : Option Operator :=
  match t.update? with
  | some (s, o) => if s.isStep then some o else none
  | none => none

/-- Equality by what the tokens say and by where they stand. -/
def same (s t : Token) : Bool :=
  s.content.same t.content && s.place == t.place

@[simp] theorem kind_endAt (p : Position) : (endAt p).kind = .eof := rfl

@[simp] theorem isEnd_endAt (p : Position) : (endAt p).isEnd = true := rfl

/-- An operator between operands is a symbol. -/
theorem binary?_eq_some_iff {t : Token} {o : Operator} :
    t.binary? = some o ↔ ∃ s, t.kind = .symbol s ∧ s.binary? = some o := by
  unfold kind binary?
  cases t.content <;> simp [Content.kind]

/-- An operator that changes a variable is a symbol. -/
theorem update?_eq_some_iff {t : Token} {s : Symbol} {o : Operator} :
    t.update? = some (s, o) ↔ t.kind = .symbol s ∧ s.update? = some o := by
  unfold kind update?
  cases t.content with
  | symbol r _ =>
    simp only [Content.kind, Option.map_eq_some_iff, Prod.mk.injEq, Kind.symbol.injEq]
    constructor
    · rintro ⟨_, h, rfl, rfl⟩
      exact ⟨rfl, h⟩
    · rintro ⟨rfl, h⟩
      exact ⟨o, h, rfl, rfl⟩
  | _ => simp [Content.kind]

/-- The tokens between two operands are those of the binary kinds. -/
theorem kind_mem_binaries (t : Token) : t.kind ∈ Kind.binaries ↔ t.binary?.isSome = true := by
  unfold kind binary?
  cases t.content <;> simp [Content.kind, Kind.binaries, Symbol.mem_all]

/-- The tokens that change a variable are those of the kinds of updates. -/
theorem kind_mem_updates (t : Token) : t.kind ∈ Kind.updates ↔ t.update?.isSome = true := by
  unfold kind update?
  cases t.content <;> simp [Content.kind, Kind.updates, Symbol.mem_all]

end Token

end ScriptReader
