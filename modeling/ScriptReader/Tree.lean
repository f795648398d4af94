import ScriptReader.Error

/-!
# Syntax trees

A program is a list of statements, and statements hold expressions and blocks.
Every node has a `Place`, that of its first token when the tree was read from a
script.

An `Expr` or a `Stmt` may be `blank`: a node of its family that says no more.  A
script never yields one.  A list holds `Item`s, the parts of an `if` stand in a
`Branch`, and those of a `for` in a `Loop`; these have places of their own.  `Node`
is any of them, and `Program` the root.

Main definition: `Branch.ofLists`, which pairs the conditions of an `elif` chain
with its blocks.
-/

namespace ScriptReader

mutual

/-- An expression. -/
inductive Expr where
  /-- Nothing but a place. -/
  | blank (place : Place)
  /-- An integer. -/
  | int (place : Place) (value : Int)
  /-- A floating-point number. -/
  | float (place : Place) (value : Binary64)
  /-- A text. -/
  | string (place : Place) (value : String)
  /-- A truth value. -/
  | bool (place : Place) (value : Bool)
  /-- A character. -/
  | char (place : Place) (value : String)
  /-- A variable. -/
  | ident (place : Place) (name : String)
  /-- A list of items. -/
  | list (place : Place) (items : List Item)
  /-- A function applied to arguments. -/
  | call (place : Place) (name : String) (arguments : List Expr)
  /-- An element of a variable. -/
  | index (place : Place) (name : String) (subscript : Expr)
  /-- A variable changed before it is read. -/
  | step (place : Place) (name : String) (operator : Operator) (amount : Expr)
  /-- An operator between two operands. -/
  | operation (place : Place) (lhs : Expr) (operator : Operator) (rhs : Expr)
  /-- An expression for each element of a source. -/
  | comprehension (place : Place) (body : Expr) (name : String) (source : Expr)

/-- An item of a list, whose marks tell whether it is spread into the list and
whether it is packed. -/
inductive Item where
  | mk (place : Place) (expression : Expr) (isSpread isPack : Bool)

end

mutual

/-- A statement. -/
inductive Stmt where
  /-- Nothing but a place. -/
  | blank (place : Place)
  /-- The use of another script. -/
  | load (place : Place) (path : String)
  /-- A value assigned to a target. -/
  | assignment (place : Place) (target value : Expr)
  /-- A variable changed by an amount. -/
  | update (place : Place) (name : String) (operator : Operator) (amount : Expr)
  /-- A choice between blocks. -/
  | conditional (place : Place) (branch : Branch)
  /-- A block repeated under a condition. -/
  | whileLoop (place : Place) (condition : Expr) (body : List Stmt)
  /-- A block repeated for each element of a source. -/
  | forLoop (place : Place) (loop : Loop)
  /-- An expression for its effect. -/
  | expression (place : Place) (expression : Expr)
  /-- The definition of a function; its result is the expression it ends with. -/
  | function (place : Place) (name : String) (parameters : List String) (body : List Stmt)
      (result : Option Expr)

/-- The parts of an `if`: a condition and its block, the `elif` clauses, and the block
of an `else` if there is one. -/
inductive Branch where
  | mk (place : Place) (condition : Expr) (body : List Stmt) (clauses : List Clause)
      (otherwise : Option (List Stmt))

/-- The condition and the block of one `elif`. -/
inductive Clause where
  | mk (condition : Expr) (body : List Stmt)

/-- The parts of a `for`: the name of its variable, the source and the block. -/
inductive Loop where
  | mk (place : Place) (name : String) (source : Expr) (body : List Stmt)

end

instance : Inhabited Expr := ⟨.blank ⟨0, 0⟩⟩

instance : Inhabited Stmt := ⟨.blank ⟨0, 0⟩⟩

/-- The root of a tree. -/
structure Program where
  /-- The place of the program. -/
  place : Place
  /-- The statements, in their order. -/
  statements : List Stmt
deriving Inhabited

/-- A node of any kind. -/
inductive Node where
  /-- A node that belongs to no family. -/
  | blank (place : Place)
  | expr (e : Expr)
  | stmt (s : Stmt)
  | item (i : Item)
  | branch (b : Branch)
  | loop (l : Loop)
  | program (p : Program)

/-- The place of an expression. -/
def Expr.place : Expr → Place
  | .blank p => p
  | .int p _ => p
  | .float p _ => p
  | .string p _ => p
  | .bool p _ => p
  | .char p _ => p
  | .ident p _ => p
  | .list p _ => p
  | .call p _ _ => p
  | .index p _ _ => p
  | .step p _ _ _ => p
  | .operation p _ _ _ => p
  | .comprehension p _ _ _ => p

/-- The place of a statement. -/
def Stmt.place : Stmt → Place
  | .blank p => p
  | .load p _ => p
  | .assignment p _ _ => p
  | .update p _ _ _ => p
  | .conditional p _ => p
  | .whileLoop p _ _ => p
  | .forLoop p _ => p
  | .expression p _ => p
  | .function p _ _ _ _ => p

/-- The condition of a clause. -/
def Clause.condition : Clause → Expr
  | .mk c _ => c

/-- The block of a clause. -/
def Clause.body : Clause → List Stmt
  | .mk _ b => b

/-- The parts of an `if` whose `elif` conditions and blocks are given in two lists,
which must be of one length. -/
def Branch.ofLists (place : Place) (condition : Expr) (body : List Stmt)
    (conditions : List Expr) (blocks : List (List Stmt)) (otherwise : Option (List Stmt)) :
    Except Error Branch :=
  if conditions.length = blocks.length then
    .ok (.mk place condition body (List.zipWith Clause.mk conditions blocks) otherwise)
  else .error (.unevenClauses conditions.length blocks.length)

/-- The clauses of a branch that was made from two lists give them back. -/
theorem unzip_zipWith_clause {conditions : List Expr} {blocks : List (List Stmt)}
    (h : conditions.length = blocks.length) :
    (List.zipWith Clause.mk conditions blocks).map Clause.condition = conditions ∧
      (List.zipWith Clause.mk conditions blocks).map Clause.body = blocks := by
  induction conditions generalizing blocks with
  | nil => cases blocks with
    | nil => exact ⟨rfl, rfl⟩
    | cons b bs => cases h
  | cons c cs ih => cases blocks with
    | nil => cases h
    | cons b bs =>
      obtain ⟨h₁, h₂⟩ := ih (Nat.succ.inj h)
      exact ⟨congrArg (c :: ·) h₁, congrArg (b :: ·) h₂⟩

end ScriptReader
