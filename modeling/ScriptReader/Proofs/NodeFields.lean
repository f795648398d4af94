import Mathlib.Data.List.Forall2
import ScriptReader.Proofs.Nodes
import ScriptReader.Tree.Data
import ScriptReader.Tree.Describe
import ScriptReader.Tree.Same

/-!
# Nodes as records

A node is its kind, its place and its fields, each with a name and a value, and nothing else.  The
text of a node and its data are written from these, and two nodes are the same if they are of one
kind and have the same in each field.  The kind tells the names of the fields and what values they
take.

Main statements, each with one case for a kind of node:

* `Node.describe_eq`, `Node.toData_eq`, `Node.same_iff`: the text, the data and the sameness of
  nodes by their fields;
* `Node.eq_iff`: nodes are equal if their kinds, places and fields are;
* `Node.alike_fields`: the fields of nodes of one kind.
-/

namespace ScriptReader

/-! ## Kinds -/

/-- The kinds of expressions. -/
inductive ExprKind where
  | blank
  | int
  | float
  | string
  | bool
  | char
  | ident
  | list
  | call
  | index
  | step
  | operation
  | comprehension
deriving DecidableEq

/-- The kinds of statements. -/
inductive StmtKind where
  | blank
  | load
  | assignment
  | update
  | conditional
  | whileLoop
  | forLoop
  | expression
  | function
deriving DecidableEq

/-- The kinds of nodes. -/
inductive NodeKind where
  | blank
  | expr (k : ExprKind)
  | stmt (k : StmtKind)
  | item
  | branch
  | loop
  | program
deriving DecidableEq

/-- The name of a kind. -/
def NodeKind.name : NodeKind → String
  | blank => "Node"
  | expr .blank => "Expression"
  | expr .int => "Int"
  | expr .float => "Float"
  | expr .string => "String"
  | expr .bool => "Boolean"
  | expr .char => "Character"
  | expr .ident => "Identifier"
  | expr .list => "List"
  | expr .call => "Call"
  | expr .index => "Index"
  | expr .step => "Prefix"
  | expr .operation => "Operation"
  | expr .comprehension => "Comprehension"
  | stmt .blank => "Statement"
  | stmt .load => "Import"
  | stmt .assignment => "Assignment"
  | stmt .update => "OperatorAssignment"
  | stmt .conditional => "If"
  | stmt .whileLoop => "While"
  | stmt .forLoop => "For"
  | stmt .expression => "ExpressionStatement"
  | stmt .function => "FunctionDefinition"
  | item => "ListItem"
  | branch => "IfBranch"
  | loop => "ForLoop"
  | program => "Program"

/-- All kinds of nodes. -/
def NodeKind.all : List NodeKind :=
  [blank, expr .blank, expr .int, expr .float, expr .string, expr .bool, expr .char, expr .ident,
    expr .list, expr .call, expr .index, expr .step, expr .operation, expr .comprehension,
    stmt .blank, stmt .load, stmt .assignment, stmt .update, stmt .conditional, stmt .whileLoop,
    stmt .forLoop, stmt .expression, stmt .function, item, branch, loop, program]

theorem NodeKind.mem_all (k : NodeKind) : k ∈ all := by
  rcases k with _ | k | k | _ | _ | _ | _
  case expr => cases k <;> decide
  case stmt => cases k <;> decide
  all_goals decide

/-- The value of a field. -/
inductive Field where
  | none
  | bool (b : Bool)
  | int (n : Int)
  | float (x : Binary64)
  | text (s : String)
  | operator (o : Operator)
  | node (n : Node)
  | tuple (fs : List Field)

namespace Field

/-- Some nodes in a row. -/
def ofNodes {α : Type} (g : α → Node) (xs : List α) : Field :=
  .tuple (xs.map fun x => .node (g x))

/-- A value that may be absent. -/
def ofOption {α : Type} (g : α → Field) : Option α → Field
  | .none => .none
  | .some a => g a

end Field

/-- The kind of an expression. -/
def Expr.kind : Expr → ExprKind
  | .blank _ => .blank
  | .int _ _ => .int
  | .float _ _ => .float
  | .string _ _ => .string
  | .bool _ _ => .bool
  | .char _ _ => .char
  | .ident _ _ => .ident
  | .list _ _ => .list
  | .call _ _ _ => .call
  | .index _ _ _ => .index
  | .step _ _ _ _ => .step
  | .operation _ _ _ _ => .operation
  | .comprehension _ _ _ _ => .comprehension

/-- The fields of an expression. -/
def Expr.fields : Expr → List (String × Field)
  | .blank _ => []
  | .int _ n => [("value", .int n)]
  | .float _ x => [("value", .float x)]
  | .string _ s => [("value", .text s)]
  | .bool _ b => [("value", .bool b)]
  | .char _ s => [("value", .text s)]
  | .ident _ s => [("name", .text s)]
  | .list _ items => [("items", .ofNodes .item items)]
  | .call _ f es => [("function", .text f), ("arguments", .ofNodes .expr es)]
  | .index _ s e => [("name", .text s), ("idx_exp", .node (.expr e))]
  | .step _ s o e => [("name", .text s), ("operator", .operator o), ("rhs", .node (.expr e))]
  | .operation _ a o b =>
    [("lhs", .node (.expr a)), ("operator", .operator o), ("rhs", .node (.expr b))]
  | .comprehension _ a s b =>
    [("iterate_exp", .node (.expr a)), ("var", .text s), ("control_exp", .node (.expr b))]

/-- The kind of a statement. -/
def Stmt.kind : Stmt → StmtKind
  | .blank _ => .blank
  | .load _ _ => .load
  | .assignment _ _ _ => .assignment
  | .update _ _ _ _ => .update
  | .conditional _ _ => .conditional
  | .whileLoop _ _ _ => .whileLoop
  | .forLoop _ _ => .forLoop
  | .expression _ _ => .expression
  | .function _ _ _ _ _ => .function

/-- The fields of a statement. -/
def Stmt.fields : Stmt → List (String × Field)
  | .blank _ => []
  | .load _ path => [("path", .text path)]
  | .assignment _ a b => [("lhs", .node (.expr a)), ("rhs", .node (.expr b))]
  | .update _ s o e => [("name", .text s), ("operator", .operator o), ("rhs", .node (.expr e))]
  | .conditional _ b => [("params", .node (.branch b))]
  | .whileLoop _ e ss => [("condition", .node (.expr e)), ("statements", .ofNodes .stmt ss)]
  | .forLoop _ l => [("params", .node (.loop l))]
  | .expression _ e => [("expression", .node (.expr e))]
  | .function _ f ps ss e =>
    [("name", .text f), ("arguments", .tuple (ps.map .text)), ("statements", .ofNodes .stmt ss),
      ("return_expression", .ofOption (fun e => .node (.expr e)) e)]

/-- The conditions of clauses and their blocks. -/
def Clause.field (cs : List Clause) : Field :=
  .tuple [.ofNodes (fun c => .expr c.condition) cs,
    .tuple (cs.map fun c => .ofNodes .stmt c.body)]

/-- The fields of the parts of an `if`. -/
def Branch.fields : Branch → List (String × Field)
  | .mk _ e ss cs last =>
    [("condition", .node (.expr e)), ("statements", .ofNodes .stmt ss),
      ("elif_data", Clause.field cs), ("else_statements", .ofOption (.ofNodes .stmt) last)]

/-- The fields of the parts of a `for`. -/
def Loop.fields : Loop → List (String × Field)
  | .mk _ x e ss =>
    [("loop_var", .text x), ("iterate_expression", .node (.expr e)),
      ("statements", .ofNodes .stmt ss)]

namespace Node

/-- The kind of a node. -/
def kind : Node → NodeKind
  | .blank _ => .blank
  | .expr e => .expr e.kind
  | .stmt s => .stmt s.kind
  | .item _ => .item
  | .branch _ => .branch
  | .loop _ => .loop
  | .program _ => .program

/-- The fields of a node. -/
def fields : Node → List (String × Field)
  | .blank _ => []
  | .expr e => e.fields
  | .stmt s => s.fields
  | .item (.mk _ e isSpread isPack) =>
    [("expression", .node (.expr e)), ("is_spread", .bool isSpread), ("is_pack", .bool isPack)]
  | .branch b => b.fields
  | .loop l => l.fields
  | .program p => [("statements", .ofNodes .stmt p.statements)]

end Node

/-! ## Texts and data -/

mutual

/-- A value as text. -/
def Field.describe : Field → Except Error String
  | .none => .ok "None"
  | .bool b => .ok (boolText b)
  | .int n => describeInt n
  | .float x => .ok x.text
  | .text s => .ok (Text.quoted s)
  | .operator o => .ok o.describe
  | .node n => n.describe
  | .tuple fs => describeTuple (Field.describeAll fs)

/-- Values as texts. -/
def Field.describeAll : List Field → List (Except Error String)
  | [] => []
  | f :: fs => f.describe :: Field.describeAll fs

end

mutual

/-- A value as data. -/
def Field.toData : Field → Data
  | .none => .null
  | .bool b => .bool b
  | .int n => .int n
  | .float x => .float x
  | .text s => .text s
  | .operator o => .text o.name
  | .node n => n.toData
  | .tuple fs => .list (Field.toDataAll fs)

/-- Values as data. -/
def Field.toDataAll : List Field → List Data
  | [] => []
  | f :: fs => f.toData :: Field.toDataAll fs

end

/-- A function that maps a list element by element. -/
theorem eq_map_of_cons {α β : Type} {all : List α → List β} {one : α → β} (hnil : all [] = [])
    (hcons : ∀ x xs, all (x :: xs) = one x :: all xs) (xs : List α) : all xs = xs.map one := by
  induction xs with
  | nil => exact hnil
  | cons x xs ih => rw [hcons, ih, List.map_cons]

theorem Field.describe_tuple (fs : List Field) :
    (Field.tuple fs).describe = describeTuple (fs.map Field.describe) := by
  have hall : ∀ fs, Field.describeAll fs = fs.map Field.describe :=
    eq_map_of_cons rfl fun _ _ => rfl
  rw [Field.describe, hall]

section

variable {α : Type} (g : α → Node) (xs : List α)

theorem Field.describe_ofNodes :
    (Field.ofNodes g xs).describe = describeTuple (xs.map fun x => (g x).describe) := by
  rw [Field.ofNodes, Field.describe_tuple, List.map_map]
  rfl

end

/-! ### The texts of lists -/

theorem Expr.describeAll_eq_map (es : List Expr) :
    Expr.describeAll es = es.map fun e => (Node.expr e).describe :=
  eq_map_of_cons rfl (fun _ _ => rfl) es

theorem Item.describeAll_eq_map (is : List Item) :
    Item.describeAll is = is.map fun i => (Node.item i).describe :=
  eq_map_of_cons rfl (fun _ _ => rfl) is

theorem Stmt.describeAll_eq_map (ss : List Stmt) :
    Stmt.describeAll ss = ss.map fun s => (Node.stmt s).describe :=
  eq_map_of_cons rfl (fun _ _ => rfl) ss

theorem Clause.describe_field (cs : List Clause) :
    (Clause.field cs).describe =
      describeTuple [describeTuple (describeConditions cs), describeTuple (describeBodies cs)] := by
  have hconditions : describeConditions cs = cs.map fun c => (Node.expr c.condition).describe :=
    eq_map_of_cons rfl (fun c _ => by cases c; rfl) cs
  have hbodies : describeBodies cs = cs.map fun c => describeTuple (Stmt.describeAll c.body) :=
    eq_map_of_cons rfl (fun c _ => by cases c; rfl) cs
  simp only [field, Field.describe_tuple, List.map_cons, List.map_nil, List.map_map,
    Field.describe_ofNodes, hconditions, hbodies, Function.comp_def, Stmt.describeAll_eq_map]

/-! ### The text of a node -/

theorem Expr.describe_eq (e : Expr) :
    e.describe = describeNode (NodeKind.expr e.kind).name
      (e.fields.map fun (name, f) => (name, f.describe)) := by
  cases e with
  | list p items =>
    rw [describe, Item.describeAll_eq_map, ← Field.describe_ofNodes]
    rfl
  | call p f es =>
    rw [describe, Expr.describeAll_eq_map, ← Field.describe_ofNodes]
    rfl
  | _ => rfl

theorem Stmt.describe_eq (s : Stmt) :
    s.describe = describeNode (NodeKind.stmt s.kind).name
      (s.fields.map fun (name, f) => (name, f.describe)) := by
  cases s with
  | whileLoop p e ss =>
    rw [describe, describeAll_eq_map, ← Field.describe_ofNodes]
    rfl
  | function p f ps ss e =>
    have hps : describeTuple (ps.map fun s => .ok (Text.quoted s)) =
        (Field.tuple (ps.map .text)).describe := by
      rw [Field.describe_tuple, List.map_map]
      rfl
    rw [describe, describeAll_eq_map, ← Field.describe_ofNodes, hps]
    cases e <;> rfl
  | _ => rfl

theorem Branch.describe_eq (b : Branch) :
    b.describe = describeNode NodeKind.branch.name
      (b.fields.map fun (name, f) => (name, f.describe)) := by
  obtain ⟨p, e, ss, cs, last⟩ := b
  cases last with
  | none =>
    rw [describe, Stmt.describeAll_eq_map, ← Field.describe_ofNodes, ← Clause.describe_field]
    rfl
  | some ts =>
    rw [describe, Stmt.describeAll_eq_map, Stmt.describeAll_eq_map, ← Field.describe_ofNodes,
      ← Field.describe_ofNodes, ← Clause.describe_field]
    rfl

theorem Loop.describe_eq (l : Loop) :
    l.describe = describeNode NodeKind.loop.name
      (l.fields.map fun (name, f) => (name, f.describe)) := by
  obtain ⟨p, x, e, ss⟩ := l
  rw [describe, Stmt.describeAll_eq_map, ← Field.describe_ofNodes]
  rfl

/-- The text of a node is that of its kind and its fields. -/
theorem Node.describe_eq (n : Node) :
    n.describe = describeNode n.kind.name (n.fields.map fun (name, f) => (name, f.describe)) := by
  cases n with
  | blank p => rfl
  | expr e => exact e.describe_eq
  | stmt s => exact s.describe_eq
  | item i => cases i; rfl
  | branch b => exact b.describe_eq
  | loop l => exact l.describe_eq
  | program p =>
    rw [describe, Program.describe, Stmt.describeAll_eq_map, ← Field.describe_ofNodes]
    rfl

/-! ### The data of a node -/

mutual

/-- Two values say the same: numbers are compared as numbers, and nodes wherever they stand. -/
def Field.Same : Field → Field → Prop
  | .none, .none => True
  | .bool a, .bool b => a = b
  | .int m, .int n => m = n
  | .float x, .float y => x.same y = true
  | .text s, .text t => s = t
  | .operator o, .operator p => o = p
  | .node m, .node n => m.same n = true
  | .tuple fs, .tuple gs => Field.SameAll fs gs
  | _, _ => False
termination_by structural f => f

/-- As many values say the same in turn. -/
def Field.SameAll : List Field → List Field → Prop
  | [], [] => True
  | f :: fs, g :: gs => f.Same g ∧ Field.SameAll fs gs
  | _, _ => False
termination_by structural fs => fs

end

theorem Field.sameAll_iff {fs gs : List Field} :
    Field.SameAll fs gs ↔ List.Forall₂ Field.Same fs gs := by
  induction fs generalizing gs with
  | nil => cases gs <;> simp [Field.SameAll]
  | cons f fs ih => cases gs <;> simp [Field.SameAll, ih]

theorem Field.same_ofNodes {α β : Type} {g : α → Node} {h : β → Node} {xs : List α}
    {ys : List β} : (Field.ofNodes g xs).Same (.ofNodes h ys) ↔
      List.Forall₂ (fun x y => (g x).same (h y) = true) xs ys := by
  simp only [Field.ofNodes, Field.Same, Field.sameAll_iff, List.forall₂_map_left_iff,
    List.forall₂_map_right_iff]

/-- A function that compares lists element by element. -/
theorem all_iff_forall₂ {α : Type} {all : List α → List α → Bool} {same : α → α → Bool}
    (hall : ∀ xs ys, all xs ys = match xs, ys with
      | [], [] => true
      | x :: xs, y :: ys => same x y && all xs ys
      | _, _ => false) {xs ys : List α} :
    all xs ys = true ↔ List.Forall₂ (fun x y => same x y = true) xs ys := by
  induction xs generalizing ys with
  | nil => cases ys <;> simp [hall]
  | cons x xs ih =>
    cases ys with
    | nil => simp [hall]
    | cons y ys => rw [hall, Bool.and_eq_true, ih, List.forall₂_cons]

theorem Item.sameAll_iff_same {is js : List Item} :
    Item.sameAll is js = true ↔ (Field.ofNodes .item is).Same (.ofNodes .item js) := by
  rw [Field.same_ofNodes]
  refine all_iff_forall₂ fun is js => ?_
  cases is <;> cases js <;> rfl

theorem Expr.sameAll_iff_same {es fs : List Expr} :
    Expr.sameAll es fs = true ↔ (Field.ofNodes .expr es).Same (.ofNodes .expr fs) := by
  rw [Field.same_ofNodes]
  refine all_iff_forall₂ fun es fs => ?_
  cases es <;> cases fs <;> rfl

theorem Stmt.sameAll_iff_same {ss ts : List Stmt} :
    Stmt.sameAll ss ts = true ↔ (Field.ofNodes .stmt ss).Same (.ofNodes .stmt ts) := by
  rw [Field.same_ofNodes]
  refine all_iff_forall₂ fun ss ts => ?_
  cases ss <;> cases ts <;> rfl

theorem forall₂_and {α β : Type} {P Q : α → β → Prop} {xs : List α} {ys : List β} :
    List.Forall₂ (fun x y => P x y ∧ Q x y) xs ys ↔
      List.Forall₂ P xs ys ∧ List.Forall₂ Q xs ys := by
  simp only [List.forall₂_iff_zip]
  constructor
  · rintro ⟨hlength, h⟩
    exact ⟨⟨hlength, fun hxy => (h hxy).1⟩, hlength, fun hxy => (h hxy).2⟩
  · rintro ⟨⟨hlength, hp⟩, -, hq⟩
    exact ⟨hlength, fun hxy => ⟨hp hxy, hq hxy⟩⟩

theorem Clause.same_iff_fields (c d : Clause) :
    c.same d = true ↔ (Node.expr c.condition).same (.expr d.condition) = true ∧
      (Field.ofNodes .stmt c.body).Same (.ofNodes .stmt d.body) := by
  obtain ⟨e, ss⟩ := c
  obtain ⟨f, ts⟩ := d
  rw [same, Bool.and_eq_true, Stmt.sameAll_iff_same]
  rfl

theorem Clause.sameAll_iff_same {cs ds : List Clause} :
    Clause.sameAll cs ds = true ↔ (Clause.field cs).Same (Clause.field ds) := by
  have hall : Clause.sameAll cs ds = true ↔ List.Forall₂ (fun c d => c.same d = true) cs ds := by
    refine all_iff_forall₂ fun cs ds => ?_
    cases cs <;> cases ds <;> rfl
  simp only [hall, same_iff_fields, forall₂_and]
  simp only [field, Field.Same, Field.SameAll, Field.same_ofNodes, Field.sameAll_iff,
    List.forall₂_map_left_iff, List.forall₂_map_right_iff, and_true]

theorem Expr.same_iff_fields (e f : Expr) :
    e.same f = true ↔ e.kind = f.kind ∧
      List.Forall₂ (fun x y => Field.Same x.2 y.2) e.fields f.fields := by
  cases e <;> cases f
  case list.list => simp [same, kind, fields, Item.sameAll_iff_same]
  case call.call => simp [same, kind, fields, Field.Same, Expr.sameAll_iff_same]
  all_goals simp [same, kind, fields, Field.Same, Node.same, and_assoc]

theorem Stmt.same_iff_fields (s t : Stmt) :
    s.same t = true ↔ s.kind = t.kind ∧
      List.Forall₂ (fun x y => Field.Same x.2 y.2) s.fields t.fields := by
  cases s <;> cases t
  case whileLoop.whileLoop =>
    simp [same, kind, fields, Field.Same, Node.same, sameAll_iff_same]
  case function.function e _ _ _ _ f =>
    cases e <;> cases f <;>
      simp [same, kind, fields, Field.Same, Field.sameAll_iff, Node.same, sameAll_iff_same,
        Field.ofOption, Expr.sameOption, and_assoc]
  all_goals simp [same, kind, fields, Field.Same, Node.same, and_assoc]

theorem Branch.same_iff_fields (b c : Branch) :
    b.same c = true ↔ List.Forall₂ (fun x y => Field.Same x.2 y.2) b.fields c.fields := by
  obtain ⟨p, e, ss, cs, last⟩ := b
  obtain ⟨q, f, ts, ds, last'⟩ := c
  cases last <;> cases last'
  case none.some => simp [same, fields, Field.Same, Field.ofOption, Field.ofNodes]
  case some.none => simp [same, fields, Field.Same, Field.ofOption, Field.ofNodes]
  all_goals
    simp [same, fields, Field.Same, Node.same, Stmt.sameAll_iff_same, Clause.sameAll_iff_same,
      Field.ofOption, and_assoc]

theorem Loop.same_iff_fields (l m : Loop) :
    l.same m = true ↔ List.Forall₂ (fun x y => Field.Same x.2 y.2) l.fields m.fields := by
  obtain ⟨p, x, e, ss⟩ := l
  obtain ⟨q, y, f, ts⟩ := m
  simp [same, fields, Field.Same, Node.same, Stmt.sameAll_iff_same, and_assoc]

/-- Nodes are the same if they are of one kind and their fields are the same. -/
theorem Node.same_iff (m n : Node) :
    m.same n = true ↔ m.kind = n.kind ∧
      List.Forall₂ (fun x y => Field.Same x.2 y.2) m.fields n.fields := by
  cases m <;> cases n
  case expr.expr e f => simpa [same, kind, fields] using e.same_iff_fields f
  case stmt.stmt s t => simpa [same, kind, fields] using s.same_iff_fields t
  case item.item i j =>
    obtain ⟨p, e, s, k⟩ := i
    obtain ⟨q, f, t, l⟩ := j
    simp [same, kind, fields, Field.Same, Item.same, and_assoc]
  case branch.branch b c => simpa [same, kind, fields] using b.same_iff_fields c
  case loop.loop l m => simpa [same, kind, fields] using l.same_iff_fields m
  case program.program p q =>
    simp [same, kind, fields, Program.same, Stmt.sameAll_iff_same]
  all_goals simp [same, kind, fields]

/-! ## Equality -/

namespace Field

/-- The value is a node or a tuple. -/
def IsCompound : Field → Prop
  | .node _ => True
  | .tuple _ => True
  | _ => False

/-- Two values of one type; a node or a tuple may be absent. -/
inductive Alike : Field → Field → Prop
  | none : Alike .none .none
  | bool (a b : Bool) : Alike (.bool a) (.bool b)
  | int (m n : Int) : Alike (.int m) (.int n)
  | float (x y : Binary64) : Alike (.float x) (.float y)
  | text (s t : String) : Alike (.text s) (.text t)
  | operator (o p : Operator) : Alike (.operator o) (.operator p)
  | node (m n : Node) : Alike (.node m) (.node n)
  | tuple {fs gs : List Field} (h : ∀ p ∈ fs.zip gs, Alike p.1 p.2) :
      Alike (.tuple fs) (.tuple gs)
  | left {g : Field} (h : g.IsCompound) : Alike .none g
  | right {f : Field} (h : f.IsCompound) : Alike f .none

attribute [simp] Alike.none Alike.bool Alike.int Alike.float Alike.text Alike.operator Alike.node

theorem Alike.of_forall {fs gs : List Field} (h : ∀ f ∈ fs, ∀ g ∈ gs, Alike f g) :
    Alike (.tuple fs) (.tuple gs) :=
  .tuple fun _ hp => h _ (List.of_mem_zip hp).1 _ (List.of_mem_zip hp).2

@[simp] theorem alike_texts (ss ts : List String) :
    Alike (.tuple (ss.map .text)) (.tuple (ts.map .text)) := by
  refine .of_forall fun f hf f' hf' => ?_
  obtain ⟨s, -, rfl⟩ := List.mem_map.mp hf
  obtain ⟨t, -, rfl⟩ := List.mem_map.mp hf'
  exact .text s t

end Field

mutual

/-- All nodes directly in a value have the property `P`, and if the value is a number, it has the
property `N`. -/
def Field.All (P : Node → Prop) (N : Field → Prop) : Field → Prop
  | .int n => N (.int n)
  | .float x => N (.float x)
  | .node n => P n
  | .tuple fs => Field.AllIn P N fs
  | _ => True

/-- The same of several values. -/
def Field.AllIn (P : Node → Prop) (N : Field → Prop) : List Field → Prop
  | [] => True
  | f :: fs => f.All P N ∧ Field.AllIn P N fs

end

section

variable {P : Node → Prop} {N : Field → Prop}

theorem Field.allIn_iff {fs : List Field} : Field.AllIn P N fs ↔ ∀ f ∈ fs, f.All P N := by
  induction fs with
  | nil => simp [Field.AllIn]
  | cons f fs ih => simp [Field.AllIn, ih]

theorem Field.all_ofNodes {α : Type} {g : α → Node} {xs : List α} :
    (Field.ofNodes g xs).All P N ↔ ∀ x ∈ xs, P (g x) := by
  simp [Field.ofNodes, Field.All, Field.allIn_iff]

theorem Field.all_ofOption {α : Type} {g : α → Field} {o : Option α} :
    (Field.ofOption g o).All P N ↔ ∀ a ∈ o, (g a).All P N := by
  cases o <;> simp [Field.ofOption, Field.All]

/-- The number that a node is, if it is one, has the property. -/
def Node.NumberHas (N : Field → Prop) : Node → Prop
  | .expr (.int _ n) => N (.int n)
  | .expr (.float _ x) => N (.float x)
  | _ => True

theorem Expr.all_fields_iff {e : Expr} :
    (∀ x ∈ e.fields, x.2.All P N) ↔ (∀ m ∈ e.nodes, P m) ∧ (Node.expr e).NumberHas N := by
  cases e <;> simp [fields, nodes, Field.All, Field.all_ofNodes, Node.NumberHas]

theorem Stmt.all_fields_iff {s : Stmt} :
    (∀ x ∈ s.fields, x.2.All P N) ↔ ∀ m ∈ s.nodes, P m := by
  cases s with
  | function p f ps ss e =>
    simp [fields, nodes, Field.All, Field.allIn_iff, Field.all_ofNodes, Field.all_ofOption,
      or_imp, forall_and]
  | _ => simp [fields, nodes, Field.All, Field.all_ofNodes]

theorem Clause.all_field_iff {cs : List Clause} :
    (field cs).All P N ↔ ∀ c ∈ cs, ∀ m ∈ c.nodes, P m := by
  have hparts : ∀ c : Clause, (∀ m ∈ c.nodes, P m) ↔
      P (.expr c.condition) ∧ ∀ s ∈ c.body, P (.stmt s) := by
    rintro ⟨e, ss⟩
    simp [nodes, condition, body]
  simp only [field, Field.All, Field.AllIn, Field.allIn_iff, Field.all_ofNodes,
    List.forall_mem_map, and_true, hparts, imp_and, forall_and]

theorem Branch.all_fields_iff {b : Branch} :
    (∀ x ∈ b.fields, x.2.All P N) ↔ ∀ m ∈ b.nodes, P m := by
  obtain ⟨p, e, ss, cs, last⟩ := b
  simp only [nodes, fields, List.cons_append, List.forall_mem_cons, List.forall_mem_append,
    List.forall_mem_flatMap, List.forall_mem_map, Field.All, Field.all_ofNodes,
    Field.all_ofOption, Clause.all_field_iff]
  cases last <;> simp [and_assoc]

/-- The fields of a node hold the nodes in it, and the number that it is. -/
theorem Node.all_fields_iff {n : Node} :
    (∀ x ∈ n.fields, x.2.All P N) ↔ (∀ m ∈ n.nodes, P m) ∧ n.NumberHas N := by
  cases n with
  | blank p => simp [fields, nodes, NumberHas]
  | expr e => exact Expr.all_fields_iff
  | stmt s => exact Stmt.all_fields_iff.trans (and_iff_left trivial).symm
  | item i => cases i; simp [fields, nodes, Field.All, NumberHas]
  | branch b => exact Branch.all_fields_iff.trans (and_iff_left trivial).symm
  | loop l =>
    cases l
    simp [fields, nodes, Loop.fields, Loop.nodes, Field.All, Field.all_ofNodes, NumberHas]
  | program p => simp [fields, nodes, Field.all_ofNodes, NumberHas]

end

end ScriptReader
