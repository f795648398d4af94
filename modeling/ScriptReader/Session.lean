import ScriptReader.Grammar.Statement
import ScriptReader.TokenStream

/-!
# Sessions

A `Session` reads a list of tokens step by step.  It keeps the tokens, the index of the
next one, and the number of levels of nesting that are open, which never exceeds its
limit.  Each rule of the grammar is a step, and a step that fails leaves the session at
the token it failed at.

A list of tokens without an end mark reads as if one stood behind its last token.

Main definitions:

* `Session.ofTokens`: a session at the first token;
* `Session.ahead`: the tokens that the rules read;
* `Session.run`: a rule as a step.
-/

namespace ScriptReader

/-- The limit of nesting where none is given. -/
def defaultLimit : Int := 128

/-- A list of tokens being read. -/
structure Session where
  /-- All tokens. -/
  tokens : List Token
  /-- The index of the next token, perhaps beyond the last one. -/
  position : Nat
  /-- The number of levels of nesting that are open. -/
  depth : Nat
  /-- The greatest number of levels. -/
  limit : Int
deriving Repr

namespace Session

/-- A session at the first of some tokens.  The limit must be positive. -/
def ofTokens (tokens : List Token) (limit : Int) : Except Error Session :=
  if limit < 1 then .error (.limitNotPositive limit)
  else .ok ⟨tokens, 0, 0, limit⟩

/-- A session at the first token of a script. -/
def ofSource (source : String) (limit : Int) : Except Error Session :=
  if limit < 1 then .error (.limitNotPositive limit)
  else match tokenize source with
    | .error e => .error e
    | .ok tokens => ofTokens tokens limit

/-- The end mark of the list: it stands where the last token does. -/
def endMark (s : Session) : Token :=
  match s.tokens.getLast? with
  | some t => .endAt t.position
  | none => .endAt .start

/-- The tokens that are not read yet. -/
def remaining (s : Session) : List Token :=
  s.tokens.drop s.position

/-- The tokens that are not read yet, closed by an end mark. -/
def ahead (s : Session) : List Token :=
  if s.remaining.any Token.isEnd then s.remaining else s.remaining ++ [s.endMark]

/-- The next token. -/
def current (s : Session) : Token :=
  s.tokens[s.position]?.getD s.endMark

/-- The number of levels of nesting that are left. -/
def levels (s : Session) : Nat :=
  (s.limit - s.depth).toNat

/-- The token `n` places ahead.  Before the first token the list is entered again from
its end, once. -/
def peek (s : Session) (n : Int) : Except Error Token :=
  let i : Int := s.position + n
  if 0 ≤ i then .ok (s.tokens[i.toNat]?.getD s.endMark)
  else match s.tokens.reverse[(-i - 1).toNat]? with
    | some t => .ok t
    | none => .error .noSuchToken

/-- The session behind the next token. -/
def advance (s : Session) : Session :=
  { s with position := s.position + 1 }

/-- Runs a rule from the next token on. -/
def run {α : Type} (s : Session) (rule : Rule α) : Except Error α × Session :=
  match rule s.ahead with
  | .ok a rest => (.ok a, { s with position := s.position + (s.ahead.length - rest.length) })
  | .error e rest =>
    (.error e, { s with position := s.position + (s.ahead.length - rest.length) })

/-- Opens a level of nesting, if one is left. -/
def enter (s : Session) : Except Error Session :=
  if s.depth < s.limit then .ok { s with depth := s.depth + 1 }
  else .error (.located s.current.position (.tooDeep s.limit))

/-- Closes a level of nesting. -/
def leave (s : Session) : Session :=
  { s with depth := s.depth - 1 }

/-! ## The rules with the levels that are left -/

/-- The rule for expressions. -/
def expression (s : Session) : (alternatives : List Kind) → Rule Expr :=
  Grammar.expression s.limit s.levels

/-- The rule for bodies. -/
def body (s : Session) : (returns : Bool) → Rule Body :=
  Grammar.body s.limit s.levels

/-- The rule for statements. -/
def statement (s : Session) : (follow : List Kind) → Rule Stmt :=
  Grammar.statement s.expression s.body

/-- The rule for programs. -/
def program (s : Session) : Rule Program :=
  Grammar.program s.limit s.levels

/-- Leaving a level that was entered restores the session. -/
theorem leave_enter {s t : Session} (h : s.enter = .ok t) : t.leave = s := by
  unfold enter at h
  split at h
  · cases h
    rfl
  · cases h

end Session

end ScriptReader
