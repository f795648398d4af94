import ScriptReader.Grammar.Rule

/-!
# Expressions

An expression is a chain of atoms with operators between them.  All operators bind
alike and to the left.  An atom is a literal, a variable, a call, an element of a
variable, a list, a comprehension, or a variable changed by one before it is read.

Expressions nest in atoms and in chains: each expression, and each operator of a
chain, takes one level of the nesting that is left, and an atom is read with the
levels left where it stands.  The recursion is on the number of levels left, and
reading beyond the last one is an error.

Main definition: `Grammar.expression`.  The rules before it are not recursive: they
are given the rule for the expressions inside.
-/

namespace ScriptReader.Grammar

open Rule

section

variable (sub : (alternatives : List Kind) → Rule Expr)

/-! ## Calls and elements -/

/-- The argument behind a comma, or the end of the arguments. -/
def nextArgument : Rule (Option Expr) := do
  let t ← token [.symbol .comma, .symbol .closeParen] Kind.binaries
  if t.kind == .symbol .comma then return some (← sub [])
  else return none

/-- The arguments of a call and the parenthesis behind them.  No comma stands behind
the last one. -/
def arguments : Rule (List Expr) := do
  if ← skipIf (.symbol .closeParen) then return []
  else
    let first ← sub [.symbol .closeParen]
    return first :: (← collect (nextArgument sub))

/-- A call: a name and its arguments in parentheses. -/
def call : Rule Expr := do
  let (t, name) ← ident
  let _ ← token [.symbol .openParen] []
  return .call t.place name (← arguments sub)

/-- An element of a variable: a name and an expression in brackets. -/
def index : Rule Expr := do
  let (t, name) ← ident
  let _ ← token [.symbol .openBracket] []
  let subscript ← sub []
  let _ ← token [.symbol .closeBracket] Kind.binaries
  return .index t.place name subscript

/-- A variable changed by one before it is read. -/
def stepExpr : Rule Expr := do
  let (t, o) ← accept (fun t => t.step?.map (t, ·)) [.symbol .increment, .symbol .decrement]
  let (_, name) ← ident
  return .step t.place name o (.int t.place 1)

/-! ## Lists -/

/-- The kinds besides an expression's own that may begin an item. -/
def itemAlternatives (isPack : Bool) : List Kind :=
  if isPack then [] else [.symbol .closeBracket, .symbol .dots]

/-- The kinds besides a comma and the bracket that could stand behind an item. -/
def itemFollow (isSpread : Bool) : List Kind :=
  if isSpread then [] else Kind.binaries ++ [.symbol .dots]

/-- An item without its leading dots: an expression and perhaps dots behind it.  The
item stands where the expression begins. -/
def itemBody (isPack : Bool) : Rule (Item × Bool) := do
  let t ← here
  let e ← sub (itemAlternatives isPack)
  let isSpread ← skipIf (.symbol .dots)
  return (.mk t.place e isSpread isPack, isSpread)

/-- The item behind a comma, or the end of the list.  A comma may stand before the
closing bracket.  The state is what could follow the item before. -/
def nextItem (follow : List Kind) : Rule (Option (Item × List Kind)) := do
  let t ← token [.symbol .comma, .symbol .closeBracket] follow
  if t.kind == .symbol .comma then
    if ← skipIf (.symbol .closeBracket) then return none
    else
      let isPack ← skipIf (.symbol .dots)
      let (item, isSpread) ← itemBody sub isPack
      return some (item, itemFollow isSpread)
  else return none

/-- The rest of a comprehension behind its body: the variable and the source. -/
def comprehension (place : Place) (body : Expr) : Rule Expr := do
  let _ ← token [.keyword .forWord] []
  let (_, name) ← ident
  let _ ← token [.keyword .inWord] []
  let source ← sub []
  let _ ← token [.symbol .closeBracket] Kind.binaries
  return .comprehension place body name source

/-- The rest of a list behind the expression of its first item. -/
def listFrom (place itemPlace : Place) (head : Expr) (isPack : Bool) : Rule Expr := do
  let isSpread ← skipIf (.symbol .dots)
  let follow := itemFollow isSpread ++ if isPack || isSpread then [] else [.keyword .forWord]
  let items ← unfold (nextItem sub) follow
  return .list place (.mk itemPlace head isSpread isPack :: items)

/-- A list or a comprehension.  A comprehension begins like a list whose first item has
no dots. -/
def list : Rule Expr := do
  let t ← token [.symbol .openBracket] []
  if ← skipIf (.symbol .closeBracket) then return .list t.place []
  else
    let isPack ← skipIf (.symbol .dots)
    let first ← here
    let head ← sub (itemAlternatives isPack)
    if !isPack && (← isHere (.keyword .forWord)) then comprehension sub t.place head
    else listFrom sub t.place first.place head isPack

/-! ## Atoms -/

/-- Moves over a token and answers with the expression it makes. -/
def leaf (e : Expr) : Rule Expr := do
  skip
  return e

/-- An atom that begins with a name: a call, an element or the variable. -/
def named (t : Token) (name : String) : Rule Expr := do
  let k := (← next).kind
  if k == .symbol .openParen then call sub
  else if k == .symbol .openBracket then index sub
  else leaf (.ident t.place name)

/-- An atom.  The kinds `alternatives` would have been accepted in its place too. -/
def atom (alternatives : List Kind) : Rule Expr := do
  let t ← here
  match t.content with
  | .int n => leaf (.int t.place n)
  | .float x => leaf (.float t.place x)
  | .string s => leaf (.string t.place s)
  | .char s => leaf (.char t.place s)
  | .bool b => leaf (.bool t.place b)
  | .ident name => named sub t name
  | .symbol .openBracket _ => list sub
  | .symbol .increment _ => stepExpr
  | .symbol .decrement _ => stepExpr
  | _ => refuse (Kind.atomStarts ++ alternatives)

end

/-! ## Chains -/

variable (limit : Int)

mutual

/-- An expression, with a number of levels of nesting left under `limit`. -/
def expression : (levels : Nat) → (alternatives : List Kind) → Rule Expr
  | 0, _ => tooDeep limit
  | levels + 1, alternatives => do
    let first ← atom (expression levels) alternatives
    chain levels first

/-- The rest of a chain behind the operand `lhs`.  Each operator takes a level. -/
def chain : (levels : Nat) → (lhs : Expr) → Rule Expr
  | 0, lhs => do
    match (← here).binary? with
    | none => return lhs
    | some _ => tooDeep limit
  | levels + 1, lhs => do
    match (← here).binary? with
    | none => return lhs
    | some o =>
      skip
      let rhs ← atom (expression levels) []
      chain levels (.operation lhs.place lhs o rhs)

end

/-- An operator of a chain and the atom behind it, and then the rest of the chain. -/
def link (sub : (alternatives : List Kind) → Rule Expr) (rest : Expr → Rule Expr)
    (lhs : Expr) : Rule Expr := do
  match (← here).binary? with
  | none => return lhs
  | some o =>
    skip
    let rhs ← atom sub []
    rest (.operation lhs.place lhs o rhs)

theorem chain_succ (levels : Nat) (lhs : Expr) :
    chain limit (levels + 1) lhs = link (expression limit levels) (chain limit levels) lhs := by
  rw [chain]
  rfl

end ScriptReader.Grammar
