import ScriptReader.Tree

/-!
# The depth of expressions

`Expr.parts` are the expressions directly inside another one.  There are two ways to say how
deep they go.  `Expr.height` is the height of the tree, each node one more than its highest
part.  `Expr.levels` is the number of levels of nesting that are open at once while the
expression is read: the operands of a chain are read one after the other, and each operator
in front of an operand holds one level, so only the operands behind it lie deeper.

The two agree but for operations, and `Expr.depthBy` is what they have in common.

Main statements:

* `Expr.levels_operation`, `Expr.height_operation`: where they differ;
* `Expr.depthBy_le_iff`: the depth of everything else is one more than that of its parts.
-/

namespace ScriptReader

/-- The expression of an item. -/
def Item.expression : Item → Expr
  | .mk _ e _ _ => e

namespace Expr

/-- The expressions directly inside another one.  The amount of a variable that is changed
before it is read is not written and does not count. -/
def parts : Expr → List Expr
  | .list _ items => items.map Item.expression
  | .call _ _ es => es
  | .index _ _ e => [e]
  | .operation _ l _ r => [l, r]
  | .comprehension _ e _ f => [e, f]
  | _ => []

/-- The number of operators in the chain that an expression is. -/
def operators : Expr → Nat
  | .operation _ l _ _ => l.operators + 1
  | _ => 0

mutual

/-- The depth of an expression, where `g` tells that of an operation from the number of
operators on its left and the depths of its operands. -/
def depthBy (g : Nat → Nat → Nat → Nat) : Expr → Nat
  | .list _ items => depthByItems g items + 1
  | .call _ _ es => depthByAll g es + 1
  | .index _ _ e => depthBy g e + 1
  | .operation _ l _ r => g l.operators (depthBy g l) (depthBy g r)
  | .comprehension _ e _ f => max (depthBy g e) (depthBy g f) + 1
  | _ => 1
termination_by structural e => e

/-- The greatest depth of some expressions. -/
def depthByAll (g : Nat → Nat → Nat → Nat) : List Expr → Nat
  | [] => 0
  | e :: es => max (depthBy g e) (depthByAll g es)
termination_by structural es => es

/-- The greatest depth of the expressions of some items. -/
def depthByItems (g : Nat → Nat → Nat → Nat) : List Item → Nat
  | [] => 0
  | i :: is => max (depthByItem g i) (depthByItems g is)
termination_by structural is => is

/-- The depth of the expression of an item. -/
def depthByItem (g : Nat → Nat → Nat → Nat) : Item → Nat
  | .mk _ e _ _ => depthBy g e
termination_by structural i => i

end

/-- The number of levels of nesting that are open at once while an expression is read. -/
def levels (e : Expr) : Nat :=
  e.depthBy fun k l r => max l (k + 1 + r)

/-- The height of the tree of an expression. -/
def height (e : Expr) : Nat :=
  e.depthBy fun _ l r => max l r + 1

/-- An operation takes what its left operand takes, and its right operand is read with a
level held for each operator in front of it. -/
theorem levels_operation (p : Place) (l : Expr) (o : Operator) (r : Expr) :
    (operation p l o r).levels = max l.levels (l.operators + 1 + r.levels) := rfl

/-- The tree of an operation is higher than both its operands. -/
theorem height_operation (p : Place) (l : Expr) (o : Operator) (r : Expr) :
    (operation p l o r).height = max l.height r.height + 1 := rfl

theorem depthByAll_le_iff {g : Nat → Nat → Nat → Nat} {n : Nat} {es : List Expr} :
    depthByAll g es ≤ n ↔ ∀ e ∈ es, depthBy g e ≤ n := by
  induction es with
  | nil => simp [depthByAll]
  | cons e es ih => rw [depthByAll, Nat.max_le, ih, List.forall_mem_cons]

theorem depthByItems_le_iff {g : Nat → Nat → Nat → Nat} {n : Nat} {is : List Item} :
    depthByItems g is ≤ n ↔ ∀ e ∈ is.map Item.expression, depthBy g e ≤ n := by
  induction is with
  | nil => simp [depthByItems]
  | cons i is ih =>
    obtain ⟨p, e, s, k⟩ := i
    rw [depthByItems, depthByItem, Nat.max_le, ih, List.map_cons, List.forall_mem_cons,
      Item.expression]

/-- Whether an expression is a chain with an operator. -/
def IsOperation (e : Expr) : Prop :=
  ∃ p l o r, e = .operation p l o r

/-- What is no operation is one deeper than its parts. -/
theorem depthBy_le_iff {g : Nat → Nat → Nat → Nat} {n : Nat} {e : Expr} (h : ¬ e.IsOperation) :
    depthBy g e ≤ n + 1 ↔ ∀ c ∈ e.parts, depthBy g c ≤ n := by
  cases e with
  | operation p l o r => exact absurd ⟨p, l, o, r, rfl⟩ h
  | list p is => rw [depthBy, Nat.add_le_add_iff_right, depthByItems_le_iff, parts]
  | call p f es => rw [depthBy, Nat.add_le_add_iff_right, depthByAll_le_iff, parts]
  | index p x e => simp [depthBy, parts]
  | comprehension p e x f =>
    rw [depthBy, Nat.add_le_add_iff_right, Nat.max_le, parts]
    simp
  | blank | int | float | string | bool | char | ident | step => simp [depthBy, parts]

theorem operators_eq_zero {e : Expr} (h : ¬ e.IsOperation) : e.operators = 0 := by
  cases e with
  | operation p l o r => exact absurd ⟨p, l, o, r, rfl⟩ h
  | _ => rfl

theorem levels_pos (e : Expr) : 0 < e.levels := by
  cases e with
  | operation p l o r => rw [levels_operation]; omega
  | _ => exact Nat.succ_pos _

theorem operators_lt_levels (e : Expr) : e.operators < e.levels := by
  cases e with
  | operation p l o r =>
    have hr := levels_pos r
    rw [levels_operation, operators]
    omega
  | _ => exact Nat.succ_pos _

end Expr

end ScriptReader
