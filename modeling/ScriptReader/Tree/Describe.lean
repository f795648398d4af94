import ScriptReader.Tree

/-!
# Trees as text

`describe` writes a tree as one line: the kind of each node and behind it, in
parentheses, its parts by name.  Places are left out, so trees that say the same are
written alike.  Lists are in parentheses, with a comma behind a single element, and
an absent part is `None`.

An integer with more digits than are converted cannot be written, and neither can a
tree with such an integer in it.  A script never yields one, since such integers are
not read either.  Tokens are written with the same restriction.
-/

namespace ScriptReader

/-- Texts in parentheses.  One text alone keeps a comma behind it. -/
def tupleText : List String → String
  | [] => "()"
  | [s] => "(" ++ s ++ ",)"
  | ss => "(" ++ ", ".intercalate ss ++ ")"

/-- The kind of a node with its parts by name. -/
def nodeText (kind : String) (parts : List (String × String)) : String :=
  kind ++ "(" ++ ", ".intercalate (parts.map fun (name, text) => name ++ "=" ++ text) ++ ")"

/-! ## What may have no text -/

/-- An integer as text, if it has no more digits than are converted. -/
def describeInt (n : Int) : Except Error String :=
  if (Nat.toDigits 10 n.natAbs).length ≤ digitLimit then .ok (toString n)
  else .error .integerTooLong

/-- Some elements as texts in parentheses, if all of them have a text. -/
def describeTuple (elements : List (Except Error String)) : Except Error String := do
  return tupleText (← elements.mapM id)

/-- A node as text, if all of its parts have one. -/
def describeNode (kind : String) (parts : List (String × Except Error String)) :
    Except Error String := do
  return nodeText kind (← parts.mapM fun (name, part) => return (name, ← part))

/-- The value of a token as text. -/
def Content.describe : Content → Except Error String
  | .int n => describeInt n
  | .float x => return x.text
  | .bool b => return boolText b
  | c => return Text.quoted c.plain

/-- A token as text. -/
def Token.describe (t : Token) : Except Error String := do
  return "Token(" ++ t.kind.name ++ ", " ++ (← t.content.describe) ++ ")"

/-! ## Trees -/

mutual

/-- An expression as text. -/
def Expr.describe : Expr → Except Error String
  | .blank _ => describeNode "Expression" []
  | .int _ n => describeNode "Int" [("value", describeInt n)]
  | .float _ x => describeNode "Float" [("value", .ok x.text)]
  | .string _ s => describeNode "String" [("value", .ok (Text.quoted s))]
  | .bool _ b => describeNode "Boolean" [("value", .ok (boolText b))]
  | .char _ s => describeNode "Character" [("value", .ok (Text.quoted s))]
  | .ident _ s => describeNode "Identifier" [("name", .ok (Text.quoted s))]
  | .list _ items => describeNode "List" [("items", describeTuple (Item.describeAll items))]
  | .call _ f arguments =>
    describeNode "Call"
      [("function", .ok (Text.quoted f)),
        ("arguments", describeTuple (Expr.describeAll arguments))]
  | .index _ s e => describeNode "Index" [("name", .ok (Text.quoted s)), ("idx_exp", e.describe)]
  | .step _ s o e =>
    describeNode "Prefix"
      [("name", .ok (Text.quoted s)), ("operator", .ok o.describe), ("rhs", e.describe)]
  | .operation _ a o b =>
    describeNode "Operation"
      [("lhs", a.describe), ("operator", .ok o.describe), ("rhs", b.describe)]
  | .comprehension _ a s b =>
    describeNode "Comprehension"
      [("iterate_exp", a.describe), ("var", .ok (Text.quoted s)), ("control_exp", b.describe)]

/-- An item as text. -/
def Item.describe : Item → Except Error String
  | .mk _ e isSpread isPack =>
    describeNode "ListItem"
      [("expression", e.describe), ("is_spread", .ok (boolText isSpread)),
        ("is_pack", .ok (boolText isPack))]

/-- Expressions as texts. -/
def Expr.describeAll : List Expr → List (Except Error String)
  | [] => []
  | e :: es => e.describe :: Expr.describeAll es

/-- Items as texts. -/
def Item.describeAll : List Item → List (Except Error String)
  | [] => []
  | i :: is => i.describe :: Item.describeAll is

end

/-- The result of a function as text. -/
def Expr.describeOption : Option Expr → Except Error String
  | none => .ok "None"
  | some e => e.describe

mutual

/-- A statement as text. -/
def Stmt.describe : Stmt → Except Error String
  | .blank _ => describeNode "Statement" []
  | .load _ path => describeNode "Import" [("path", .ok (Text.quoted path))]
  | .assignment _ a b => describeNode "Assignment" [("lhs", a.describe), ("rhs", b.describe)]
  | .update _ s o e =>
    describeNode "OperatorAssignment"
      [("name", .ok (Text.quoted s)), ("operator", .ok o.describe), ("rhs", e.describe)]
  | .conditional _ b => describeNode "If" [("params", b.describe)]
  | .whileLoop _ e ss =>
    describeNode "While"
      [("condition", e.describe), ("statements", describeTuple (Stmt.describeAll ss))]
  | .forLoop _ l => describeNode "For" [("params", l.describe)]
  | .expression _ e => describeNode "ExpressionStatement" [("expression", e.describe)]
  | .function _ f ps ss e =>
    describeNode "FunctionDefinition"
      [("name", .ok (Text.quoted f)),
        ("arguments", describeTuple (ps.map fun s => .ok (Text.quoted s))),
        ("statements", describeTuple (Stmt.describeAll ss)),
        ("return_expression", Expr.describeOption e)]

/-- A branch as text. -/
def Branch.describe : Branch → Except Error String
  | .mk _ e ss cs none =>
    describeNode "IfBranch"
      [("condition", e.describe), ("statements", describeTuple (Stmt.describeAll ss)),
        ("elif_data", describeTuple
          [describeTuple (Clause.describeConditions cs), describeTuple (Clause.describeBodies cs)]),
        ("else_statements", .ok "None")]
  | .mk _ e ss cs (some os) =>
    describeNode "IfBranch"
      [("condition", e.describe), ("statements", describeTuple (Stmt.describeAll ss)),
        ("elif_data", describeTuple
          [describeTuple (Clause.describeConditions cs), describeTuple (Clause.describeBodies cs)]),
        ("else_statements", describeTuple (Stmt.describeAll os))]

/-- A loop as text. -/
def Loop.describe : Loop → Except Error String
  | .mk _ x e ss =>
    describeNode "ForLoop"
      [("loop_var", .ok (Text.quoted x)), ("iterate_expression", e.describe),
        ("statements", describeTuple (Stmt.describeAll ss))]

/-- Statements as texts. -/
def Stmt.describeAll : List Stmt → List (Except Error String)
  | [] => []
  | s :: ss => s.describe :: Stmt.describeAll ss

/-- The conditions of clauses as texts. -/
def Clause.describeConditions : List Clause → List (Except Error String)
  | [] => []
  | .mk e _ :: cs => e.describe :: Clause.describeConditions cs

/-- The blocks of clauses as texts. -/
def Clause.describeBodies : List Clause → List (Except Error String)
  | [] => []
  | .mk _ ss :: cs => describeTuple (Stmt.describeAll ss) :: Clause.describeBodies cs

end

/-- A program as text. -/
def Program.describe (p : Program) : Except Error String :=
  describeNode "Program" [("statements", describeTuple (Stmt.describeAll p.statements))]

/-- A node as text. -/
def Node.describe : Node → Except Error String
  | .blank _ => describeNode "Node" []
  | .expr e => e.describe
  | .stmt s => s.describe
  | .item i => i.describe
  | .branch b => b.describe
  | .loop l => l.describe
  | .program p => p.describe

end ScriptReader
