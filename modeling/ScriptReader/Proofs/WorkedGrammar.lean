import ScriptReader.Proofs.Courses
import ScriptReader.Session.Command

/-!
# The grammar as work

Each construct of the grammar as work of a session, which keeps the count of the open levels
itself.  Expressions and bodies open one level each, and a chain opens one for each of its
operators, which it counts and closes at its end.

Some things can go wrong here that no rule of the grammar knows of: a look in front of the first
token, a token that is not in the table of operators, a chain of `elif` clauses whose conditions
and blocks differ in number, and a level closed where none is open.  Each is an error where it
occurs.

The recursion is on a number of steps.  They are not used up as long as there are as many of them
as levels left; if they were, that would be an error of its own.

Main definitions:

* `Work.expression`, `Work.body`: the two kinds of work that open levels;
* `Work.performAll`: the commands to a session as work.
-/

namespace ScriptReader.Session.Work

variable {α : Type}

/-- The error of work that has no steps left. -/
def noSteps : Error :=
  .located .start (.custom "no steps are left")

section

variable (sub : (alternatives : List Kind) → Work Expr)

/-! ## Calls and elements -/

/-- The argument behind a comma, or the end of the arguments. -/
def nextArgument : Work (Option Expr) := do
  let t ← token [.symbol .comma, .symbol .closeParen] Kind.binaries
  if t.kind == .symbol .comma then return some (← sub [])
  else return none

/-- The arguments of a call and the parenthesis behind them. -/
def arguments : Work (List Expr) := do
  if ← skipIf (.symbol .closeParen) then return []
  else
    let first ← sub [.symbol .closeParen]
    return first :: (← collect (nextArgument sub))

/-- A call. -/
def call : Work Expr := do
  let (t, name) ← ident
  let _ ← token [.symbol .openParen] []
  return .call t.place name (← arguments sub)

/-- An element of a variable. -/
def index : Work Expr := do
  let (t, name) ← ident
  let _ ← token [.symbol .openBracket] []
  let subscript ← sub []
  let _ ← token [.symbol .closeBracket] Kind.binaries
  return .index t.place name subscript

/-- A variable changed by one before it is read.  Its operator is looked up. -/
def stepExpr : Work Expr := do
  let t ← token [.symbol .increment, .symbol .decrement] []
  let (_, name) ← ident
  let (_, o) ← entry t t.update?
  return .step t.place name o (.int t.place 1)

/-! ## Lists -/

/-- An item of a list without its leading dots. -/
def itemBody (isPack : Bool) : Work (Item × Bool) := do
  let t ← here
  let e ← sub (Grammar.itemAlternatives isPack)
  let isSpread ← skipIf (.symbol .dots)
  return (.mk t.place e isSpread isPack, isSpread)

/-- The item behind a comma, or the end of the list. -/
def nextItem (follow : List Kind) : Work (Option (Item × List Kind)) := do
  let t ← token [.symbol .comma, .symbol .closeBracket] follow
  if t.kind == .symbol .comma then
    if ← skipIf (.symbol .closeBracket) then return none
    else
      let isPack ← skipIf (.symbol .dots)
      let (item, isSpread) ← itemBody sub isPack
      return some (item, Grammar.itemFollow isSpread)
  else return none

/-- The rest of a comprehension behind its body. -/
def comprehension (place : Place) (body : Expr) : Work Expr := do
  let _ ← token [.keyword .forWord] []
  let (_, name) ← ident
  let _ ← token [.keyword .inWord] []
  let source ← sub []
  let _ ← token [.symbol .closeBracket] Kind.binaries
  return .comprehension place body name source

/-- The rest of a list behind the expression of its first item. -/
def listFrom (place itemPlace : Place) (head : Expr) (isPack : Bool) : Work Expr := do
  let isSpread ← skipIf (.symbol .dots)
  let follow := Grammar.itemFollow isSpread ++
    if isPack || isSpread then [] else [.keyword .forWord]
  let items ← unfold (nextItem sub) follow
  return .list place (.mk itemPlace head isSpread isPack :: items)

/-- A list or a comprehension. -/
def list : Work Expr := do
  let t ← token [.symbol .openBracket] []
  if ← skipIf (.symbol .closeBracket) then return .list t.place []
  else
    let isPack ← skipIf (.symbol .dots)
    let first ← here
    let head ← sub (Grammar.itemAlternatives isPack)
    if !isPack && (← isHere (.keyword .forWord)) then comprehension sub t.place head
    else listFrom sub t.place first.place head isPack

/-! ## Atoms -/

/-- Moves over a token and answers with the expression it makes. -/
def leaf (e : Expr) : Work Expr := do
  skip
  return e

/-- An atom that begins with a name. -/
def named (t : Token) (name : String) : Work Expr := do
  let k := (← peek 1).kind
  if k == .symbol .openParen then call sub
  else if k == .symbol .openBracket then index sub
  else leaf (.ident t.place name)

/-- An atom. -/
def atom (alternatives : List Kind) : Work Expr := do
  let t ← here
  match t.content with
  | .int n => leaf (.int t.place n)
  | .float x => leaf (.float t.place x)
  | .string s => leaf (.string t.place s)
  | .char s => leaf (.char t.place s)
  | .bool b => leaf (.bool t.place b)
  | .ident name => named sub t name
  | .symbol .openBracket _ => list sub
  | .symbol .increment _ => stepExpr
  | .symbol .decrement _ => stepExpr
  | _ => refuse (Kind.atomStarts ++ alternatives)

end

/-! ## Chains -/

mutual

/-- An expression, which opens a level of nesting. -/
def expression : (steps : Nat) → (alternatives : List Kind) → Work Expr
  | 0, _ => nested (fail noSteps)
  | steps + 1, alternatives => nested do
    let first ← atom (expression steps) alternatives
    closing (chain steps first)

/-- The rest of a chain behind the operand `lhs`.  Each operator opens a level, which is counted;
the operator of the tree is looked up behind its operand. -/
def chain : (steps : Nat) → (lhs : Expr) → CountedWork Expr
  | 0, lhs => do
    let t ← uncounted here
    if t.kind ∈ Kind.binaries then
      openLevel
      uncounted (fail noSteps)
    else return lhs
  | steps + 1, lhs => do
    let t ← uncounted here
    if t.kind ∈ Kind.binaries then
      openLevel
      uncounted skip
      let rhs ← uncounted (atom (expression steps) [])
      let o ← uncounted (entry t t.binary?)
      chain steps (.operation lhs.place lhs o rhs)
    else return lhs

end

/-- An operator of a chain and the atom behind it, and then the rest of the chain. -/
def link (sub : (alternatives : List Kind) → Work Expr) (rest : (lhs : Expr) → CountedWork Expr)
    (lhs : Expr) : CountedWork Expr := do
  let t ← uncounted here
  if t.kind ∈ Kind.binaries then
    openLevel
    uncounted skip
    let rhs ← uncounted (atom sub [])
    let o ← uncounted (entry t t.binary?)
    rest (.operation lhs.place lhs o rhs)
  else return lhs

theorem chain_succ (steps : Nat) (lhs : Expr) :
    chain (steps + 1) lhs = link (expression steps) (chain steps) lhs := by
  rw [chain]
  rfl

/-! ## Statements -/

section

variable (expr : (alternatives : List Kind) → Work Expr)
variable (body : (returns : Bool) → Work Body)

/-- The semicolon behind an expression. -/
def endExpr (others : List Kind) : Work Unit := do
  let _ ← token [.symbol .semicolon] (Kind.binaries ++ others)

/-- The use of another script. -/
def load : Work Stmt := do
  let t ← token [.keyword .importWord] []
  let path ← accept (fun t => match t.content with
    | .string s => some s
    | _ => none) [.string]
  let _ ← token [.symbol .semicolon] []
  return .load t.place path

/-- An assignment or an expression. -/
def assignmentOrExpression : Work Stmt := do
  let t ← here
  let lhs ← expr []
  if ← skipIf (.symbol .assign) then
    let rhs ← expr []
    endExpr []
    return .assignment t.place lhs rhs
  else
    endExpr [.symbol .assign]
    return .expression t.place lhs

/-- A change of a variable.  Its operator is looked up. -/
def update : Work Stmt := do
  let (t, name) ← ident
  let u ← token Kind.updates []
  let (s, o) ← entry u u.update?
  if s.isStep then
    let _ ← token [.symbol .semicolon] []
    return .update t.place name o (.int u.place 1)
  else
    let amount ← expr []
    endExpr []
    return .update t.place name o amount

/-- A condition in parentheses. -/
def condition : Work Expr := do
  let _ ← token [.symbol .openParen] []
  let e ← expr []
  let _ ← token [.symbol .closeParen] Kind.binaries
  return e

/-- A block that returns nothing. -/
def block : Work (List Stmt) := do
  return (← body false).statements

/-- The condition and the block of the next `elif`, if there is one. -/
def nextClause : Work (Option (Expr × List Stmt)) := do
  if ← skipIf (.keyword .elifWord) then
    let e ← condition expr
    let ss ← block body
    return some (e, ss)
  else return none

/-- The block of an `else`, if there is one. -/
def otherwise : Work (Option (List Stmt)) := do
  if ← skipIf (.keyword .elseWord) then return some (← block body)
  else return none

/-- A choice between blocks.  The conditions and the blocks of its clauses stand in two lists,
which must be of one length. -/
def conditional : Work Stmt := do
  let t ← token [.keyword .ifWord] []
  let e ← condition expr
  let ss ← block body
  let clauses ← collect (nextClause expr body)
  let last ← otherwise body
  let branch ← answer
    (Branch.ofLists t.place e ss (clauses.map (·.1)) (clauses.map (·.2)) last)
  return .conditional t.place branch

/-- A block repeated under a condition. -/
def whileLoop : Work Stmt := do
  let t ← token [.keyword .whileWord] []
  let e ← condition expr
  return .whileLoop t.place e (← block body)

/-- A block repeated for each element of a source. -/
def forLoop : Work Stmt := do
  let t ← token [.keyword .forWord] []
  let (_, name) ← ident
  let _ ← token [.keyword .inWord] []
  let source ← expr []
  if ← isHere (.symbol .openBrace) then
    return .forLoop t.place (.mk t.place name source (← block body))
  else refuse (Kind.binaries ++ [.symbol .openBrace])

/-- The parameter behind a comma, or the end of the parameters. -/
def nextParameter : Work (Option String) := do
  let t ← token [.symbol .comma, .symbol .closeParen] []
  if t.kind == .symbol .comma then return some (← ident).2
  else return none

/-- The parameters of a function and the parenthesis behind them. -/
def parameters : Work (List String) := do
  let first ← accept (fun t => match t.content with
    | .ident s => some (some s)
    | .symbol .closeParen _ => some none
    | _ => none) [.ident, .symbol .closeParen]
  match first with
  | none => return []
  | some name => return name :: (← collect nextParameter)

/-- The definition of a function. -/
def function : Work Stmt := do
  let t ← token [.keyword .fnWord] []
  let (_, name) ← ident
  let _ ← token [.symbol .openParen] []
  let names ← parameters
  let b ← body true
  return .function t.place name names b.statements b.result

/-- A statement. -/
def statement (follow : List Kind) : Work Stmt := do
  let k := (← here).kind
  match k with
  | .keyword .importWord => load
  | .keyword .ifWord => conditional expr body
  | .keyword .whileWord => whileLoop expr body
  | .keyword .forWord => forLoop expr body
  | .keyword .fnWord => function body
  | _ =>
    if k == .ident && (← peek 1).update?.isSome then update expr
    else if k ∈ Kind.atomStarts then assignmentOrExpression expr
    else refuse (Kind.statementStarts ++ follow)

/-! ## Bodies -/

/-- The next statement of a body, if there is one. -/
def nextStatement (follow : List Kind) : Work (Option Stmt) := do
  if (← here).kind ∈ follow then return none
  else return some (← statement expr body follow)

/-- The expression that a function returns, if it returns one. -/
def returned (returns : Bool) : Work (Option Expr) := do
  if returns && (← isHere (.keyword .returnWord)) then
    skip
    let e ← expr []
    endExpr []
    return some e
  else return none

/-- What stands in a body. -/
def contents (returns : Bool) : Work Body := do
  let statements ← collect (nextStatement expr body (Grammar.bodyEnd returns))
  let result ← returned expr returns
  return ⟨statements, result⟩

end

/-- A body between braces.  The level opens behind the one brace and closes in front of the
other. -/
def body : (steps : Nat) → (returns : Bool) → Work Body
  | 0, _ => do
    let _ ← token [.symbol .openBrace] []
    nested (fail noSteps)
  | steps + 1, returns => do
    let _ ← token [.symbol .openBrace] []
    let b ← nested (contents (expression steps) (body steps) returns)
    let _ ← token [.symbol .closeBrace] []
    return b

/-- A whole program, up to the end mark. -/
def program (steps : Nat) : Work Program := do
  let statements ← collect (nextStatement (expression steps) (body steps) [.eof])
  return ⟨⟨1, 1⟩, statements⟩

/-! ## Commands -/

section

variable (steps : Nat)

/-- The work for a construct. -/
def construct : Construct → Work Parsed
  | .program => return .node (.program (← program steps))
  | .statement follow =>
    return .node (.stmt (← statement (expression steps) (body steps) follow))
  | .load => return .node (.stmt (← load))
  | .assignmentOrExpression =>
    return .node (.stmt (← assignmentOrExpression (expression steps)))
  | .update => return .node (.stmt (← update (expression steps)))
  | .block => return .block (← block (body steps))
  | .condition => return .node (.expr (← condition (expression steps)))
  | .conditional => return .node (.stmt (← conditional (expression steps) (body steps)))
  | .whileLoop => return .node (.stmt (← whileLoop (expression steps) (body steps)))
  | .forLoop => return .node (.stmt (← forLoop (expression steps) (body steps)))
  | .function => return .node (.stmt (← function (body steps)))
  | .expression alternatives => return .node (.expr (← expression steps alternatives))
  | .atom alternatives => return .node (.expr (← atom (expression steps) alternatives))
  | .call => return .node (.expr (← call (expression steps)))
  | .index => return .node (.expr (← index (expression steps)))
  | .step => return .node (.expr (← stepExpr))
  | .list => return .node (.expr (← list (expression steps)))

mutual

/-- A command. -/
def perform : Command → Work Answer
  | .current => return .token (← here)
  | .peek n => return .token (← peek n)
  | .advance => do
    skip
    return .token (← here)
  | .remaining => fun c => .ok (.tokens c.now.remaining) c
  | .accept kinds others => return .token (← token kinds others)
  | .refuse expected => refuse expected
  | .read what => return .parsed (← construct steps what)
  | .nested commands => return .reports (← nested (performAll commands))

/-- Commands in turn, each from the state that the one before left, whether that failed or
not. -/
def performAll : List Command → Work (List Report)
  | [] => return []
  | a :: as => fun c =>
    match perform a c with
    | .ok x c' =>
      (do return .mk (.ok x) c'.now.position c'.now.depth :: (← performAll as) : Work _) c'
    | .error e c' =>
      (do return .mk (.error e) c'.now.position c'.now.depth :: (← performAll as) : Work _) c'

end

end

end ScriptReader.Session.Work
