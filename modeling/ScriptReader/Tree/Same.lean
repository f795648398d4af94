import ScriptReader.Tree

/-!
# Equality of trees

Two trees are the same if they say the same, wherever they stand: `same` compares
every part of a node but the places.  Two programs read from differently laid out
scripts can so be compared.  Numbers are compared as numbers, and the two zeros are
one.
-/

namespace ScriptReader

mutual

/-- Whether two expressions say the same. -/
def Expr.same : Expr → Expr → Bool
  | .blank _, .blank _ => true
  | .int _ m, .int _ n => m == n
  | .float _ x, .float _ y => x.same y
  | .string _ s, .string _ t => s == t
  | .bool _ a, .bool _ b => a == b
  | .char _ s, .char _ t => s == t
  | .ident _ s, .ident _ t => s == t
  | .list _ is, .list _ js => Item.sameAll is js
  | .call _ f as, .call _ g bs => f == g && Expr.sameAll as bs
  | .index _ s e, .index _ t f => s == t && e.same f
  | .step _ s o e, .step _ t p f => s == t && o == p && e.same f
  | .operation _ a o b, .operation _ c p d => a.same c && o == p && b.same d
  | .comprehension _ a s b, .comprehension _ c t d => a.same c && s == t && b.same d
  | _, _ => false
termination_by structural x => x

/-- Whether two items say the same. -/
def Item.same : Item → Item → Bool
  | .mk _ e s p, .mk _ f t q => e.same f && s == t && p == q
termination_by structural x => x

/-- Whether two lists of expressions say the same. -/
def Expr.sameAll : List Expr → List Expr → Bool
  | [], [] => true
  | e :: es, f :: fs => e.same f && Expr.sameAll es fs
  | _, _ => false
termination_by structural x => x

/-- Whether two lists of items say the same. -/
def Item.sameAll : List Item → List Item → Bool
  | [], [] => true
  | i :: is, j :: js => i.same j && Item.sameAll is js
  | _, _ => false
termination_by structural x => x

end

/-- Whether two results of functions say the same. -/
def Expr.sameOption : Option Expr → Option Expr → Bool
  | none, none => true
  | some e, some f => e.same f
  | _, _ => false

mutual

/-- Whether two statements say the same. -/
def Stmt.same : Stmt → Stmt → Bool
  | .blank _, .blank _ => true
  | .load _ s, .load _ t => s == t
  | .assignment _ a b, .assignment _ c d => a.same c && b.same d
  | .update _ s o e, .update _ t p f => s == t && o == p && e.same f
  | .conditional _ b, .conditional _ c => b.same c
  | .whileLoop _ e ss, .whileLoop _ f ts => e.same f && Stmt.sameAll ss ts
  | .forLoop _ l, .forLoop _ m => l.same m
  | .expression _ e, .expression _ f => e.same f
  | .function _ f ps ss e, .function _ g qs ts d =>
    f == g && ps == qs && Stmt.sameAll ss ts && Expr.sameOption e d
  | _, _ => false
termination_by structural x => x

/-- Whether two branches say the same. -/
def Branch.same : Branch → Branch → Bool
  | .mk _ e ss cs none, .mk _ f ts ds none =>
    e.same f && Stmt.sameAll ss ts && Clause.sameAll cs ds
  | .mk _ e ss cs (some os), .mk _ f ts ds (some ps) =>
    e.same f && Stmt.sameAll ss ts && Clause.sameAll cs ds && Stmt.sameAll os ps
  | _, _ => false
termination_by structural x => x

/-- Whether two clauses say the same. -/
def Clause.same : Clause → Clause → Bool
  | .mk e ss, .mk f ts => e.same f && Stmt.sameAll ss ts
termination_by structural x => x

/-- Whether two loops say the same. -/
def Loop.same : Loop → Loop → Bool
  | .mk _ x e ss, .mk _ y f ts => x == y && e.same f && Stmt.sameAll ss ts
termination_by structural x => x

/-- Whether two blocks say the same. -/
def Stmt.sameAll : List Stmt → List Stmt → Bool
  | [], [] => true
  | s :: ss, t :: ts => s.same t && Stmt.sameAll ss ts
  | _, _ => false
termination_by structural x => x

/-- Whether two chains of clauses say the same. -/
def Clause.sameAll : List Clause → List Clause → Bool
  | [], [] => true
  | c :: cs, d :: ds => c.same d && Clause.sameAll cs ds
  | _, _ => false
termination_by structural x => x

end

/-- Whether two programs say the same. -/
def Program.same (p q : Program) : Bool :=
  Stmt.sameAll p.statements q.statements

/-- Whether two nodes are of one kind and say the same. -/
def Node.same : Node → Node → Bool
  | .blank _, .blank _ => true
  | .expr e, .expr f => e.same f
  | .stmt s, .stmt t => s.same t
  | .item i, .item j => i.same j
  | .branch b, .branch c => b.same c
  | .loop l, .loop m => l.same m
  | .program p, .program q => p.same q
  | _, _ => false

/-! ## Comparing many -/

/-- Every element of a list compared with every one. -/
def comparisons {α : Type} (same : α → α → Bool) (xs : List α) : List (List Bool) :=
  xs.map fun x => xs.map (same x)

/-- The elements of a list, each once: one that is the same as an earlier one is left
out. -/
def distinct {α : Type} (same : α → α → Bool) (xs : List α) : List α :=
  (xs.foldl (fun seen x => if seen.any (same · x) then seen else x :: seen) []).reverse

end ScriptReader
