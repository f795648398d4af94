import ScriptReader.Grammar.Expression

/-!
# Statements

A statement begins with a reserved word, with the name of a variable that it changes,
or with an expression.  Blocks stand between braces and hold statements; the body of a
function may end with the expression it returns.

A block takes one level of nesting, and its statements are read with the levels that
are left.  Again only the last rule, `Grammar.body`, is recursive, on the number of
levels left; the others are given the rules for expressions and blocks.
-/

namespace ScriptReader

/-- What stands between two braces: statements, and the expression that a function
returns. -/
structure Body where
  /-- The statements, in their order. -/
  statements : List Stmt
  /-- The expression returned. -/
  result : Option Expr

namespace Grammar

open Rule

section

variable (expr : (alternatives : List Kind) → Rule Expr)
variable (body : (returns : Bool) → Rule Body)

/-- The semicolon behind an expression.  The kinds `others` could have stood there too. -/
def endExpr (others : List Kind) : Rule Unit := do
  let _ ← token [.symbol .semicolon] (Kind.binaries ++ others)

/-- The use of another script. -/
def load : Rule Stmt := do
  let t ← token [.keyword .importWord] []
  let path ← accept (fun t => match t.content with
    | .string s => some s
    | _ => none) [.string]
  let _ ← token [.symbol .semicolon] []
  return .load t.place path

/-- An assignment or an expression. -/
def assignmentOrExpression : Rule Stmt := do
  let t ← here
  let lhs ← expr []
  if ← skipIf (.symbol .assign) then
    let rhs ← expr []
    endExpr []
    return .assignment t.place lhs rhs
  else
    endExpr [.symbol .assign]
    return .expression t.place lhs

/-- A change of a variable, by an amount or by one. -/
def update : Rule Stmt := do
  let (t, name) ← ident
  let (u, s, o) ← accept (fun u => u.update?.map (u, ·)) Kind.updates
  if s.isStep then
    let _ ← token [.symbol .semicolon] []
    return .update t.place name o (.int u.place 1)
  else
    let amount ← expr []
    endExpr []
    return .update t.place name o amount

/-- A condition in parentheses. -/
def condition : Rule Expr := do
  let _ ← token [.symbol .openParen] []
  let e ← expr []
  let _ ← token [.symbol .closeParen] Kind.binaries
  return e

/-- A block that returns nothing. -/
def block : Rule (List Stmt) := do
  return (← body false).statements

/-- The next `elif`, if there is one. -/
def nextClause : Rule (Option Clause) := do
  if ← skipIf (.keyword .elifWord) then
    let e ← condition expr
    let ss ← block body
    return some (.mk e ss)
  else return none

/-- The block of an `else`, if there is one. -/
def otherwise : Rule (Option (List Stmt)) := do
  if ← skipIf (.keyword .elseWord) then return some (← block body)
  else return none

/-- A choice between blocks. -/
def conditional : Rule Stmt := do
  let t ← token [.keyword .ifWord] []
  let e ← condition expr
  let ss ← block body
  let clauses ← collect (nextClause expr body)
  let last ← otherwise body
  return .conditional t.place (.mk t.place e ss clauses last)

/-- A block repeated under a condition. -/
def whileLoop : Rule Stmt := do
  let t ← token [.keyword .whileWord] []
  let e ← condition expr
  return .whileLoop t.place e (← block body)

/-- A block repeated for each element of a source. -/
def forLoop : Rule Stmt := do
  let t ← token [.keyword .forWord] []
  let (_, name) ← ident
  let _ ← token [.keyword .inWord] []
  let source ← expr []
  if ← isHere (.symbol .openBrace) then
    return .forLoop t.place (.mk t.place name source (← block body))
  else refuse (Kind.binaries ++ [.symbol .openBrace])

/-- The parameter behind a comma, or the end of the parameters. -/
def nextParameter : Rule (Option String) := do
  let t ← token [.symbol .comma, .symbol .closeParen] []
  if t.kind == .symbol .comma then return some (← ident).2
  else return none

/-- The parameters of a function and the parenthesis behind them. -/
def parameters : Rule (List String) := do
  let first ← accept (fun t => match t.content with
    | .ident s => some (some s)
    | .symbol .closeParen _ => some none
    | _ => none) [.ident, .symbol .closeParen]
  match first with
  | none => return []
  | some name => return name :: (← collect nextParameter)

/-- The definition of a function. -/
def function : Rule Stmt := do
  let t ← token [.keyword .fnWord] []
  let (_, name) ← ident
  let _ ← token [.symbol .openParen] []
  let names ← parameters
  let b ← body true
  return .function t.place name names b.statements b.result

/-- A statement.  The kinds `follow` would have been accepted in its place too. -/
def statement (follow : List Kind) : Rule Stmt := do
  let k := (← here).kind
  match k with
  | .keyword .importWord => load
  | .keyword .ifWord => conditional expr body
  | .keyword .whileWord => whileLoop expr body
  | .keyword .forWord => forLoop expr body
  | .keyword .fnWord => function body
  | _ =>
    if k == .ident && (← next).update?.isSome then update expr
    else if k ∈ Kind.atomStarts then assignmentOrExpression expr
    else refuse (Kind.statementStarts ++ follow)

/-! ## Bodies -/

/-- The kinds that may end the statements of a body. -/
def bodyEnd (returns : Bool) : List Kind :=
  if returns then [.symbol .closeBrace, .keyword .returnWord] else [.symbol .closeBrace]

/-- The next statement of a body, if there is one. -/
def nextStatement (follow : List Kind) : Rule (Option Stmt) := do
  if (← here).kind ∈ follow then return none
  else return some (← statement expr body follow)

/-- The expression that a function returns, if it returns one. -/
def returned (returns : Bool) : Rule (Option Expr) := do
  if returns && (← isHere (.keyword .returnWord)) then
    skip
    let e ← expr []
    endExpr []
    return some e
  else return none

end

variable (limit : Int)

/-- A body between braces, with a number of levels of nesting left under `limit`.
Only the body of a function returns. -/
def body : (levels : Nat) → (returns : Bool) → Rule Body
  | 0, _ => do
    let _ ← token [.symbol .openBrace] []
    tooDeep limit
  | levels + 1, returns => do
    let _ ← token [.symbol .openBrace] []
    let statements ←
      collect (nextStatement (expression limit levels) (body levels) (bodyEnd returns))
    let result ← returned (expression limit levels) returns
    let _ ← token [.symbol .closeBrace] []
    return ⟨statements, result⟩

/-- A whole program, up to the end mark. -/
def program (levels : Nat) : Rule Program := do
  let statements ← collect (nextStatement (expression limit levels) (body limit levels) [.eof])
  return ⟨⟨1, 1⟩, statements⟩

end Grammar

end ScriptReader
