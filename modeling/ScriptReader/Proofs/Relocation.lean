import ScriptReader.Tree

/-!
# Text further down

A text that is put behind some lines stands further down: all its lines and offsets grow by the
same numbers, and its columns stay.  A `Shift` holds the two numbers.  It moves positions, tokens
and errors, and the trees that are made of the tokens: `relocate` changes all places of a tree.

Main statement: `Stmt.relocate_id`, that a tree is unchanged if its places are.
-/

namespace ScriptReader

/-- How much further down a text stands. -/
structure Shift where
  /-- The number of lines before it. -/
  lines : Int
  /-- The number of characters before it. -/
  characters : Int

namespace Shift

/-- The shift that leaves everything where it is. -/
def none : Shift :=
  ⟨0, 0⟩

/-- A place further down. -/
def place (m : Shift) (p : Place) : Place :=
  ⟨p.line + m.lines, p.column⟩

/-- A position further down. -/
def position (m : Shift) (p : Position) : Position :=
  ⟨p.line + m.lines, p.column, p.offset + m.characters⟩

/-- A token further down. -/
def token (m : Shift) (t : Token) : Token :=
  { t with position := m.position t.position }

/-- An error further down. -/
def error (m : Shift) : Error → Error
  | .located p fault => .located (m.position p) fault
  | e => e

@[simp] theorem place_none (p : Place) : none.place p = p := by
  simp [none, place]

@[simp] theorem position_none (p : Position) : none.position p = p := by
  simp [none, position]

@[simp] theorem token_none (t : Token) : none.token t = t := by
  rw [token, position_none]

@[simp] theorem error_none (e : Error) : none.error e = e := by
  cases e <;> simp [error]

theorem token_none_eq : none.token = id :=
  funext token_none

theorem place_none_eq : none.place = id :=
  funext place_none

@[simp] theorem content_token (m : Shift) (t : Token) : (m.token t).content = t.content := rfl

@[simp] theorem kind_token (m : Shift) (t : Token) : (m.token t).kind = t.kind := rfl

@[simp] theorem binary?_token (m : Shift) (t : Token) : (m.token t).binary? = t.binary? := rfl

@[simp] theorem update?_token (m : Shift) (t : Token) : (m.token t).update? = t.update? := rfl

/-- Further down a character moves on as it does above. -/
theorem advance_position (m : Shift) (p : Position) (c : Char) :
    (m.position p).advance c = m.position (p.advance c) := by
  unfold Position.advance
  split
  · simp only [position, Position.mk.injEq, true_and]
    omega
  · simp only [position, Position.mk.injEq, true_and]
    omega

theorem after_position (m : Shift) (p : Position) (cs : List Char) :
    (m.position p).after cs = m.position (p.after cs) := by
  induction cs generalizing p with
  | nil => rfl
  | cons c cs ih => rw [Position.after_cons, advance_position, ih, Position.after_cons]

end Shift

/-! ## Trees -/

mutual

/-- An expression with other places. -/
def Expr.relocate (g : Place → Place) : Expr → Expr
  | .blank p => .blank (g p)
  | .int p n => .int (g p) n
  | .float p x => .float (g p) x
  | .string p s => .string (g p) s
  | .bool p b => .bool (g p) b
  | .char p s => .char (g p) s
  | .ident p name => .ident (g p) name
  | .list p items => .list (g p) (Item.relocateAll g items)
  | .call p name es => .call (g p) name (Expr.relocateAll g es)
  | .index p name e => .index (g p) name (e.relocate g)
  | .step p name o amount => .step (g p) name o (amount.relocate g)
  | .operation p l o r => .operation (g p) (l.relocate g) o (r.relocate g)
  | .comprehension p body name source =>
    .comprehension (g p) (body.relocate g) name (source.relocate g)

/-- An item with other places. -/
def Item.relocate (g : Place → Place) : Item → Item
  | .mk p e isSpread isPack => .mk (g p) (e.relocate g) isSpread isPack

/-- Expressions with other places. -/
def Expr.relocateAll (g : Place → Place) : List Expr → List Expr
  | [] => []
  | e :: es => e.relocate g :: Expr.relocateAll g es

/-- Items with other places. -/
def Item.relocateAll (g : Place → Place) : List Item → List Item
  | [] => []
  | i :: is => i.relocate g :: Item.relocateAll g is

end

mutual

/-- A statement with other places. -/
def Stmt.relocate (g : Place → Place) : Stmt → Stmt
  | .blank p => .blank (g p)
  | .load p path => .load (g p) path
  | .assignment p target value => .assignment (g p) (target.relocate g) (value.relocate g)
  | .update p name o amount => .update (g p) name o (amount.relocate g)
  | .conditional p b => .conditional (g p) (b.relocate g)
  | .whileLoop p e ss => .whileLoop (g p) (e.relocate g) (Stmt.relocateAll g ss)
  | .forLoop p l => .forLoop (g p) (l.relocate g)
  | .expression p e => .expression (g p) (e.relocate g)
  | .function p name names ss result =>
    .function (g p) name names (Stmt.relocateAll g ss) (result.map (Expr.relocate g))

/-- A branch with other places. -/
def Branch.relocate (g : Place → Place) : Branch → Branch
  | .mk p e ss cs none =>
    .mk (g p) (e.relocate g) (Stmt.relocateAll g ss) (Clause.relocateAll g cs) none
  | .mk p e ss cs (some last) =>
    .mk (g p) (e.relocate g) (Stmt.relocateAll g ss) (Clause.relocateAll g cs)
      (some (Stmt.relocateAll g last))

/-- A clause with other places. -/
def Clause.relocate (g : Place → Place) : Clause → Clause
  | .mk e ss => .mk (e.relocate g) (Stmt.relocateAll g ss)

/-- A loop with other places. -/
def Loop.relocate (g : Place → Place) : Loop → Loop
  | .mk p name e ss => .mk (g p) name (e.relocate g) (Stmt.relocateAll g ss)

/-- Statements with other places. -/
def Stmt.relocateAll (g : Place → Place) : List Stmt → List Stmt
  | [] => []
  | s :: ss => s.relocate g :: Stmt.relocateAll g ss

/-- Clauses with other places. -/
def Clause.relocateAll (g : Place → Place) : List Clause → List Clause
  | [] => []
  | c :: cs => c.relocate g :: Clause.relocateAll g cs

end

variable (g : Place → Place)

theorem Expr.relocateAll_eq_map (es : List Expr) : relocateAll g es = es.map (relocate g) := by
  induction es with
  | nil => rfl
  | cons e es ih => rw [relocateAll, ih, List.map_cons]

theorem Item.relocateAll_eq_map (is : List Item) : relocateAll g is = is.map (relocate g) := by
  induction is with
  | nil => rfl
  | cons i is ih => rw [relocateAll, ih, List.map_cons]

theorem Stmt.relocateAll_eq_map (ss : List Stmt) : relocateAll g ss = ss.map (relocate g) := by
  induction ss with
  | nil => rfl
  | cons s ss ih => rw [relocateAll, ih, List.map_cons]

theorem Clause.relocateAll_eq_map (cs : List Clause) :
    relocateAll g cs = cs.map (relocate g) := by
  induction cs with
  | nil => rfl
  | cons c cs ih => rw [relocateAll, ih, List.map_cons]

theorem Branch.relocate_mk (p : Place) (e : Expr) (ss : List Stmt) (cs : List Clause)
    (last : Option (List Stmt)) :
    (Branch.mk p e ss cs last).relocate g =
      .mk (g p) (e.relocate g) (ss.map (Stmt.relocate g)) (cs.map (Clause.relocate g))
        (last.map (·.map (Stmt.relocate g))) := by
  cases last with
  | none => rw [relocate, Stmt.relocateAll_eq_map, Clause.relocateAll_eq_map, Option.map_none]
  | some ts =>
    rw [relocate, Stmt.relocateAll_eq_map, Clause.relocateAll_eq_map, Stmt.relocateAll_eq_map,
      Option.map_some]

@[simp] theorem Expr.place_relocate (e : Expr) : (e.relocate g).place = g e.place := by
  cases e <;> rfl

/-! ## Unchanged places -/

mutual

theorem Expr.relocate_id (e : Expr) : e.relocate id = e := by
  match e with
  | .list p items => rw [Expr.relocate, Item.relocateAll_id, id]
  | .call p name es => rw [Expr.relocate, Expr.relocateAll_id, id]
  | .index p name e => rw [Expr.relocate, Expr.relocate_id, id]
  | .step p name o amount => rw [Expr.relocate, Expr.relocate_id, id]
  | .operation p l o r => rw [Expr.relocate, Expr.relocate_id l, Expr.relocate_id r, id]
  | .comprehension p body name source =>
    rw [Expr.relocate, Expr.relocate_id body, Expr.relocate_id source, id]
  | .blank _ | .int _ _ | .float _ _ | .string _ _ | .bool _ _ | .char _ _ | .ident _ _ => rfl

theorem Item.relocate_id (i : Item) : i.relocate id = i := by
  match i with
  | .mk p e isSpread isPack => rw [Item.relocate, Expr.relocate_id, id]

theorem Expr.relocateAll_id (es : List Expr) : Expr.relocateAll id es = es := by
  match es with
  | [] => rfl
  | e :: es => rw [Expr.relocateAll, Expr.relocate_id, Expr.relocateAll_id]

theorem Item.relocateAll_id (is : List Item) : Item.relocateAll id is = is := by
  match is with
  | [] => rfl
  | i :: is => rw [Item.relocateAll, Item.relocate_id, Item.relocateAll_id]

end

theorem Expr.relocate_id_eq : Expr.relocate id = id :=
  funext Expr.relocate_id

mutual

theorem Stmt.relocate_id (s : Stmt) : s.relocate id = s := by
  match s with
  | .assignment p target value =>
    rw [Stmt.relocate, Expr.relocate_id, Expr.relocate_id, id]
  | .update p name o amount => rw [Stmt.relocate, Expr.relocate_id, id]
  | .conditional p b => rw [Stmt.relocate, Branch.relocate_id, id]
  | .whileLoop p e ss => rw [Stmt.relocate, Expr.relocate_id, Stmt.relocateAll_id, id]
  | .forLoop p l => rw [Stmt.relocate, Loop.relocate_id, id]
  | .expression p e => rw [Stmt.relocate, Expr.relocate_id, id]
  | .function p name names ss result =>
    rw [Stmt.relocate, Stmt.relocateAll_id, Expr.relocate_id_eq, Option.map_id_fun, id, id]
  | .blank _ | .load _ _ => rfl

theorem Branch.relocate_id (b : Branch) : b.relocate id = b := by
  match b with
  | .mk p e ss cs none =>
    rw [Branch.relocate, Expr.relocate_id, Stmt.relocateAll_id, Clause.relocateAll_id, id]
  | .mk p e ss cs (some last) =>
    rw [Branch.relocate, Expr.relocate_id, Stmt.relocateAll_id ss, Clause.relocateAll_id,
      Stmt.relocateAll_id last, id]

theorem Clause.relocate_id (c : Clause) : c.relocate id = c := by
  match c with
  | .mk e ss => rw [Clause.relocate, Expr.relocate_id, Stmt.relocateAll_id]

theorem Loop.relocate_id (l : Loop) : l.relocate id = l := by
  match l with
  | .mk p name e ss => rw [Loop.relocate, Expr.relocate_id, Stmt.relocateAll_id, id]

theorem Stmt.relocateAll_id (ss : List Stmt) : Stmt.relocateAll id ss = ss := by
  match ss with
  | [] => rfl
  | s :: ss => rw [Stmt.relocateAll, Stmt.relocate_id, Stmt.relocateAll_id]

theorem Clause.relocateAll_id (cs : List Clause) : Clause.relocateAll id cs = cs := by
  match cs with
  | [] => rfl
  | c :: cs => rw [Clause.relocateAll, Clause.relocate_id, Clause.relocateAll_id]

end

end ScriptReader
