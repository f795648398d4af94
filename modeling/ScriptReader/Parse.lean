import ScriptReader.Session

/-!
# Reading scripts

The entry points of the library: a script as a program, its first statement, or its
leading expression.  The whole script is read into tokens first, so an error of the
lexicon comes before any error of the grammar.  Expressions and blocks nest up to a
limit, which must be positive.

`parse_eq_of_tokenize` says that the tokens of a script determine its program.
-/

namespace ScriptReader

/-- Runs a rule on the tokens of a script. -/
def readScript {α : Type} (source : String) (limit : Int) (rule : Session → Rule α) :
    Except Error (α × List Token) := do
  let s ← Session.ofSource source limit
  let (outcome, s') := s.run (rule s)
  return (← outcome, s'.remaining)

/-- The program of a script. -/
def parse (source : String) (limit : Int) : Except Error Program :=
  (readScript source limit Session.program).map (·.1)

/-- The first statement of a script, and the tokens behind it. -/
def parseStatement (source : String) (limit : Int) : Except Error (Stmt × List Token) :=
  readScript source limit fun s => s.statement [.eof]

/-- The expression that a script begins with, and the tokens behind it. -/
def parseExpression (source : String) (limit : Int) : Except Error (Expr × List Token) :=
  readScript source limit fun s => s.expression []

/-- The tokens of a script determine its program. -/
theorem parse_eq_of_tokenize {a b : String} (h : tokenize a = tokenize b) (limit : Int) :
    parse a limit = parse b limit := by
  simp only [parse, readScript, Session.ofSource, h]

/-! ## Reports -/

/-- What is reported while a program is read: how many tokens there are, and how many
statements they make once they are read. -/
def report (tokens : Nat) (outcome : Except Error Program) : List String :=
  let first := "parsing program of " ++ toString tokens ++ " tokens"
  match outcome with
  | .ok p => [first, "parsed " ++ toString p.statements.length ++ " top-level statements"]
  | .error _ => [first]

/-- The program of a script, and the reports of reading it.  Nothing is reported of a
script that cannot be read into tokens. -/
def parseReported (source : String) (limit : Int) : Except Error Program × List String :=
  match Session.ofSource source limit with
  | .error e => (.error e, [])
  | .ok s =>
    let outcome := (s.run s.program).1
    (outcome, report s.tokens.length outcome)

end ScriptReader
