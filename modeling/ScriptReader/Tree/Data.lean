import ScriptReader.Tree

/-!
# Trees as plain data

`toData` turns a tree into nested records of plain values, for tools that know
nothing of its types.  The record of a node holds its kind, its line and column, and
its parts by name; operators are given by their names, lists are lists, and an absent
part is `null`.
-/

namespace ScriptReader

/-- Plain data. -/
inductive Data where
  | null
  | bool (b : Bool)
  | int (n : Int)
  | float (x : Binary64)
  | text (s : String)
  | list (elements : List Data)
  | record (fields : List (String × Data))

/-- The record of a node. -/
def nodeData (kind : String) (place : Place) (parts : List (String × Data)) : Data :=
  .record (("kind", .text kind) :: ("line", .int place.line) :: ("col", .int place.column) :: parts)

mutual

/-- An expression as data. -/
def Expr.toData : Expr → Data
  | .blank p => nodeData "Expression" p []
  | .int p n => nodeData "Int" p [("value", .int n)]
  | .float p x => nodeData "Float" p [("value", .float x)]
  | .string p s => nodeData "String" p [("value", .text s)]
  | .bool p b => nodeData "Boolean" p [("value", .bool b)]
  | .char p s => nodeData "Character" p [("value", .text s)]
  | .ident p s => nodeData "Identifier" p [("name", .text s)]
  | .list p items => nodeData "List" p [("items", .list (Item.toDataAll items))]
  | .call p f arguments =>
    nodeData "Call" p [("function", .text f), ("arguments", .list (Expr.toDataAll arguments))]
  | .index p s e => nodeData "Index" p [("name", .text s), ("idx_exp", e.toData)]
  | .step p s o e =>
    nodeData "Prefix" p [("name", .text s), ("operator", .text o.name), ("rhs", e.toData)]
  | .operation p a o b =>
    nodeData "Operation" p [("lhs", a.toData), ("operator", .text o.name), ("rhs", b.toData)]
  | .comprehension p a s b =>
    nodeData "Comprehension" p
      [("iterate_exp", a.toData), ("var", .text s), ("control_exp", b.toData)]

/-- An item as data. -/
def Item.toData : Item → Data
  | .mk p e isSpread isPack =>
    nodeData "ListItem" p
      [("expression", e.toData), ("is_spread", .bool isSpread), ("is_pack", .bool isPack)]

/-- Expressions as data. -/
def Expr.toDataAll : List Expr → List Data
  | [] => []
  | e :: es => e.toData :: Expr.toDataAll es

/-- Items as data. -/
def Item.toDataAll : List Item → List Data
  | [] => []
  | i :: is => i.toData :: Item.toDataAll is

end

/-- The result of a function as data. -/
def Expr.toDataOption : Option Expr → Data
  | none => .null
  | some e => e.toData

mutual

/-- A statement as data. -/
def Stmt.toData : Stmt → Data
  | .blank p => nodeData "Statement" p []
  | .load p path => nodeData "Import" p [("path", .text path)]
  | .assignment p a b => nodeData "Assignment" p [("lhs", a.toData), ("rhs", b.toData)]
  | .update p s o e =>
    nodeData "OperatorAssignment" p
      [("name", .text s), ("operator", .text o.name), ("rhs", e.toData)]
  | .conditional p b => nodeData "If" p [("params", b.toData)]
  | .whileLoop p e ss =>
    nodeData "While" p [("condition", e.toData), ("statements", .list (Stmt.toDataAll ss))]
  | .forLoop p l => nodeData "For" p [("params", l.toData)]
  | .expression p e => nodeData "ExpressionStatement" p [("expression", e.toData)]
  | .function p f ps ss e =>
    nodeData "FunctionDefinition" p
      [("name", .text f), ("arguments", .list (ps.map .text)),
        ("statements", .list (Stmt.toDataAll ss)), ("return_expression", Expr.toDataOption e)]

/-- A branch as data. -/
def Branch.toData : Branch → Data
  | .mk p e ss cs none =>
    nodeData "IfBranch" p
      [("condition", e.toData), ("statements", .list (Stmt.toDataAll ss)),
        ("elif_data", .list [.list (Clause.conditionsData cs), .list (Clause.bodiesData cs)]),
        ("else_statements", .null)]
  | .mk p e ss cs (some os) =>
    nodeData "IfBranch" p
      [("condition", e.toData), ("statements", .list (Stmt.toDataAll ss)),
        ("elif_data", .list [.list (Clause.conditionsData cs), .list (Clause.bodiesData cs)]),
        ("else_statements", .list (Stmt.toDataAll os))]

/-- A loop as data. -/
def Loop.toData : Loop → Data
  | .mk p x e ss =>
    nodeData "ForLoop" p
      [("loop_var", .text x), ("iterate_expression", e.toData),
        ("statements", .list (Stmt.toDataAll ss))]

/-- Statements as data. -/
def Stmt.toDataAll : List Stmt → List Data
  | [] => []
  | s :: ss => s.toData :: Stmt.toDataAll ss

/-- The conditions of clauses as data. -/
def Clause.conditionsData : List Clause → List Data
  | [] => []
  | .mk e _ :: cs => e.toData :: Clause.conditionsData cs

/-- The blocks of clauses as data. -/
def Clause.bodiesData : List Clause → List Data
  | [] => []
  | .mk _ ss :: cs => .list (Stmt.toDataAll ss) :: Clause.bodiesData cs

end

/-- A program as data. -/
def Program.toData (p : Program) : Data :=
  nodeData "Program" p.place [("statements", .list (Stmt.toDataAll p.statements))]

/-- A node as data. -/
def Node.toData : Node → Data
  | .blank p => nodeData "Node" p []
  | .expr e => e.toData
  | .stmt s => s.toData
  | .item i => i.toData
  | .branch b => b.toData
  | .loop l => l.toData
  | .program p => p.toData

end ScriptReader
