import ScriptReader.Proofs.Phrase
import ScriptReader.Proofs.Depth

/-!
# The levels of phrases

An atom takes one level more than its parts, and a chain the levels of its operands with one
held for each operator.  So no expression takes more levels than it has tokens.  The same
holds of blocks, which have braces around their statements: statements with few tokens can be
read with few levels.

Main statements:

* `Phrase.Expression.levels_le_length`: an expression takes no more levels than it has tokens;
* `Phrase.Statements.mono`: what reads as an expression, and where a block may stand, can be
  replaced below as many blocks as there are tokens.
-/

namespace ScriptReader

namespace Phrase

/-! ## Atoms and chains -/

theorem Atom.not_isOperation {us : List Token} {a : Expr} (h : Atom us a) : ¬ a.IsOperation := by
  rintro ⟨p, l, o, r, rfl⟩
  cases h

/-- The levels of an atom are one more than those of its parts. -/
theorem Atom.levels_le_iff {us : List Token} {a : Expr} {n : Nat} (h : Atom us a) :
    a.levels ≤ n + 1 ↔ ∀ c ∈ a.parts, c.levels ≤ n :=
  Expr.depthBy_le_iff h.not_isOperation

/-- A chain takes no fewer levels than the operand it begins with. -/
theorem Chain.levels_le : ∀ {us : List Token} {a e : Expr}, Chain us a e → a.levels ≤ e.levels
  | _, _, _, .nil => Nat.le_refl _
  | _, _, _, .cons _ _ hc => by
    refine Nat.le_trans ?_ hc.levels_le
    rw [Expr.levels_operation]
    exact Nat.le_max_left _ _

/-! ## Levels and tokens -/

mutual

theorem Atom.levels_le_length {us : List Token} {a : Expr} (h : Atom us a) :
    a.levels ≤ us.length := by
  match h with
  | .int _ => exact Nat.le_refl 1
  | .float _ => exact Nat.le_refl 1
  | .string _ => exact Nat.le_refl 1
  | .char _ => exact Nat.le_refl 1
  | .bool _ => exact Nat.le_refl 1
  | .ident _ => exact Nat.le_refl 1
  | .step _ _ => exact Nat.le_succ 1
  | .call ht hl hes hr =>
    have hle := (Atom.call ht hl hes hr).levels_le_iff.mpr hes.levels_le_length
    simp only [List.length_append, List.length_cons]
    omega
  | .index ht hl he hr =>
    have hle := (Atom.index ht hl he hr).levels_le_iff.mpr
      (by simpa [Expr.parts] using he.levels_le_length)
    simp only [List.length_append, List.length_cons]
    omega
  | .list hl his hr =>
    have hle := (Atom.list hl his hr).levels_le_iff.mpr his.levels_le_length
    simp only [List.length_append, List.length_cons]
    omega
  | @Atom.comprehension _ _ _ _ _ _ us vs _ _ hl hb hf ht hi hs hr =>
    have hb' := hb.levels_le_length
    have hs' := hs.levels_le_length
    have hle := (Atom.comprehension hl hb hf ht hi hs hr).levels_le_iff
      (n := us.length + vs.length) |>.mpr (by
        simp only [Expr.parts, List.forall_mem_cons, List.not_mem_nil, false_imp_iff,
          implies_true, and_true]
        omega)
    simp only [List.length_append, List.length_cons]
    omega

theorem Expression.levels_le_length {us : List Token} {e : Expr} (h : Expression us e) :
    e.levels ≤ us.length := by
  match h with
  | .chain ha hc =>
    have ha' := ha.levels_le_length
    have hc' := hc.levels_le_length
    rw [Expr.operators_eq_zero ha.not_isOperation] at hc'
    rw [List.length_append]
    omega

theorem Chain.levels_le_length {us : List Token} {a e : Expr} (h : Chain us a e) :
    e.levels ≤ max a.levels (a.operators + us.length) := by
  match h with
  | .nil => exact Nat.le_max_left _ _
  | .cons _ hb hc =>
    have hb' := hb.levels_le_length
    have hc' := hc.levels_le_length
    rw [Expr.levels_operation, Expr.operators] at hc'
    simp only [List.length_append, List.length_cons]
    omega

theorem Arguments.levels_le_length {us : List Token} {es : List Expr} (h : Arguments us es) :
    ∀ e ∈ es, e.levels ≤ us.length := by
  match h with
  | .nil => simp
  | .cons he hes =>
    have he' := he.levels_le_length
    rw [List.length_append, List.forall_mem_cons]
    exact ⟨by omega, fun e hm => Nat.le_trans (hes.levels_le_length e hm) (by omega)⟩

theorem MoreArguments.levels_le_length {us : List Token} {es : List Expr}
    (h : MoreArguments us es) : ∀ e ∈ es, e.levels ≤ us.length := by
  match h with
  | .nil => simp
  | .cons _ he hes =>
    have he' := he.levels_le_length
    rw [List.length_append, List.length_cons, List.forall_mem_cons]
    exact ⟨by omega, fun e hm => Nat.le_trans (hes.levels_le_length e hm) (by omega)⟩

theorem ListItem.levels_le_length {us : List Token} {i : Item} (h : ListItem us i) :
    i.expression.levels ≤ us.length := by
  match h with
  | .mk _ he _ =>
    have he' := he.levels_le_length
    simp only [List.length_append, Item.expression]
    omega

theorem Items.levels_le_length {us : List Token} {is : List Item} (h : Items us is) :
    ∀ e ∈ is.map Item.expression, e.levels ≤ us.length := by
  match h with
  | .nil => simp
  | .cons hi his =>
    have hi' := hi.levels_le_length
    rw [List.length_append, List.map_cons, List.forall_mem_cons]
    exact ⟨by omega, fun e hm => Nat.le_trans (his.levels_le_length e hm) (by omega)⟩

theorem MoreItems.levels_le_length {us : List Token} {is : List Item} (h : MoreItems us is) :
    ∀ e ∈ is.map Item.expression, e.levels ≤ us.length := by
  match h with
  | .nil => simp
  | .comma _ => simp
  | .cons _ hi his =>
    have hi' := hi.levels_le_length
    rw [List.length_append, List.length_cons, List.map_cons, List.forall_mem_cons]
    exact ⟨by omega, fun e hm => Nat.le_trans (his.levels_le_length e hm) (by omega)⟩

end

/-! ## Blocks and tokens -/

section

variable {E E' : Nat → List Token → Expr → Prop} {B B' : Nat → Prop} {d : Nat}

/-- What reads as an expression by `E`, and where a block may stand by `B`, may do so by `E'`
and `B'` too, as long as blocks and tokens together are at most `d`. -/
structure Allows (d : Nat) (E E' : Nat → List Token → Expr → Prop) (B B' : Nat → Prop) :
    Prop where
  /-- The expressions. -/
  expression : ∀ {b us e}, E b us e → b + us.length ≤ d → E' b us e
  /-- The blocks. -/
  block : ∀ {b}, B b → b < d → B' b

theorem Condition.mono (ha : Allows d E E' B B') {b : Nat} {us : List Token} {e : Expr}
    (h : Condition E b us e) (hd : b + us.length ≤ d) : Condition E' b us e := by
  cases h with
  | mk hl he hr =>
    simp only [List.length_append, List.length_cons] at hd
    exact .mk hl (ha.expression he (by omega)) hr

theorem Result.mono (ha : Allows d E E' B B') {b : Nat} {returns : Bool} {us : List Token}
    {result : Option Expr} (h : Result E b returns us result) (hd : b + us.length ≤ d) :
    Result E' b returns us result := by
  cases h with
  | none => exact .none
  | some ht he hr =>
    simp only [List.length_append, List.length_cons] at hd
    exact .some ht (ha.expression he (by omega)) hr

mutual

theorem Statement.mono (ha : Allows d E E' B B') {b : Nat} {us : List Token} {s : Stmt}
    (h : Statement E B b us s) (hd : b + us.length ≤ d) : Statement E' B' b us s := by
  match h with
  | .load ht hu hr => exact .load ht hu hr
  | .assignment ht hq hv hr =>
    simp only [List.length_append, List.length_cons] at hd
    exact .assignment (ha.expression ht (by omega)) hq (ha.expression hv (by omega)) hr
  | .expression he hr =>
    simp only [List.length_append] at hd
    exact .expression (ha.expression he (by omega)) hr
  | .update ht hu hs he hr =>
    simp only [List.length_append, List.length_cons] at hd
    exact .update ht hu hs (ha.expression he (by omega)) hr
  | .step ht hu hr => exact .step ht hu hr
  | .conditional ht he hss hcs hl =>
    simp only [List.length_append, List.length_cons] at hd
    exact .conditional ht (he.mono ha (by omega)) (hss.mono ha (by omega)) (hcs.mono ha (by omega))
      (hl.mono ha (by omega))
  | .whileLoop ht he hss =>
    simp only [List.length_append, List.length_cons] at hd
    exact .whileLoop ht (he.mono ha (by omega)) (hss.mono ha (by omega))
  | .forLoop ht hu hi he hss =>
    simp only [List.length_append, List.length_cons] at hd
    exact .forLoop ht hu hi (ha.expression he (by omega)) (hss.mono ha (by omega))
  | .function ht hu hl hn hr hb =>
    simp only [List.length_append, List.length_cons] at hd
    exact .function ht hu hl hn hr (hb.mono ha (by omega))

theorem Statements.mono (ha : Allows d E E' B B') {b : Nat} {us : List Token} {ss : List Stmt}
    (h : Statements E B b us ss) (hd : b + us.length ≤ d) : Statements E' B' b us ss := by
  match h with
  | .nil => exact .nil
  | .cons hs hss =>
    rw [List.length_append] at hd
    exact .cons (hs.mono ha (by omega)) (hss.mono ha (by omega))

theorem Block.mono (ha : Allows d E E' B B') {b : Nat} {returns : Bool} {us : List Token}
    {x : Body} (h : Block E B b returns us x) (hd : b + us.length ≤ d) :
    Block E' B' b returns us x := by
  match h with
  | .mk hb hl hss hres hr =>
    simp only [List.length_append, List.length_cons] at hd
    exact .mk (ha.block hb (by omega)) hl (hss.mono ha (by omega)) (hres.mono ha (by omega)) hr

theorem Clauses.mono (ha : Allows d E E' B B') {b : Nat} {us : List Token} {cs : List Clause}
    (h : Clauses E B b us cs) (hd : b + us.length ≤ d) : Clauses E' B' b us cs := by
  match h with
  | .nil => exact .nil
  | .cons ht he hss hcs =>
    simp only [List.length_append, List.length_cons] at hd
    exact .cons ht (he.mono ha (by omega)) (hss.mono ha (by omega)) (hcs.mono ha (by omega))

theorem Otherwise.mono (ha : Allows d E E' B B') {b : Nat} {us : List Token}
    {last : Option (List Stmt)} (h : Otherwise E B b us last) (hd : b + us.length ≤ d) :
    Otherwise E' B' b us last := by
  match h with
  | .none => exact .none
  | .some ht hss =>
    rw [List.length_cons] at hd
    exact .some ht (hss.mono ha (by omega))

end

end

end Phrase

end ScriptReader
