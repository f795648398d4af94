import ScriptReader.Proofs.PhraseLevels

/-!
# How many levels a script needs

The operands of a chain are read one after the other, each with a level of its own, with one for
each operator in front of it, and with those that its parts need.  A block needs a level of its
own too, and those of its statements and its result.  Nothing else needs any.

What a statement needs is said of the statement as it is written: the amount of a step is not
written, so a step needs nothing, while a change of a variable by a written amount needs what
the amount does.  The tree is the same for both, so the need of a statement is a relation
between its tokens, its tree and a number.

Main definitions:

* `Expr.need`: the levels that an expression needs;
* `Phrase.StatementNeeds` and its fellows: those that a statement needs, as it is written.

Main statement: `Phrase.Expression.need_eq_levels`, that an expression needs the levels that are
open at once while it is read.
-/

namespace ScriptReader

/-- The greatest of some numbers. -/
def greatest (ns : List Nat) : Nat :=
  ns.foldr max 0

theorem greatest_le_iff {ns : List Nat} {n : Nat} : greatest ns ≤ n ↔ ∀ m ∈ ns, m ≤ n := by
  induction ns with
  | nil => simp [greatest]
  | cons m ns ih => rw [greatest, List.foldr_cons, Nat.max_le, List.forall_mem_cons, ← ih, greatest]

theorem greatest_append (ms ns : List Nat) :
    greatest (ms ++ ns) = max (greatest ms) (greatest ns) := by
  induction ms with
  | nil => simp [greatest]
  | cons m ms ih =>
    show max m (greatest (ms ++ ns)) = max (max m (greatest ms)) (greatest ns)
    rw [ih, Nat.max_assoc]

/-! ## Expressions -/

namespace Expr

/-- The operands of a chain, in the order they are written in. -/
def operands : Expr → List Expr
  | .operation _ l _ r => l.operands ++ [r]
  | e => [e]

theorem operands_of_not_isOperation {e : Expr} (h : ¬ e.IsOperation) : e.operands = [e] := by
  cases e with
  | operation p l o r => exact absurd ⟨p, l, o, r, rfl⟩ h
  | _ => rfl

theorem length_operands (e : Expr) : e.operands.length = e.operators + 1 := by
  induction e using operands.induct with
  | case1 p l o r ih => rw [operands, operators, List.length_append, ih, List.length_singleton]
  | case2 e h =>
    have hop : ¬ e.IsOperation := by
      rintro ⟨p, l, o, r, rfl⟩
      exact h p l o r rfl
    rw [operands_of_not_isOperation hop, operators_eq_zero hop]
    rfl

theorem sizeOf_part_lt {a c : Expr} (h : c ∈ a.parts) : sizeOf c < sizeOf a := by
  cases a with
  | list p items =>
    obtain ⟨⟨q, e, s, k⟩, hm, rfl⟩ := List.mem_map.mp h
    have hlt := List.sizeOf_lt_of_mem hm
    simp only [Item.mk.sizeOf_spec, list.sizeOf_spec, Item.expression] at hlt ⊢
    omega
  | call p name es =>
    have hlt : sizeOf c < sizeOf es := List.sizeOf_lt_of_mem h
    simp only [call.sizeOf_spec]
    omega
  | index p name e =>
    obtain rfl := List.mem_singleton.mp h
    simp only [index.sizeOf_spec]
    omega
  | operation p l o r =>
    simp only [parts, List.mem_cons, List.not_mem_nil, or_false] at h
    rcases h with rfl | rfl <;> simp only [operation.sizeOf_spec] <;> omega
  | comprehension p e name f =>
    simp only [parts, List.mem_cons, List.not_mem_nil, or_false] at h
    rcases h with rfl | rfl <;> simp only [comprehension.sizeOf_spec] <;> omega
  | _ => cases h

theorem sizeOf_operand_le {e a : Expr} (h : a ∈ e.operands) : sizeOf a ≤ sizeOf e := by
  induction e using operands.induct with
  | case1 p l o r ih =>
    simp only [operation.sizeOf_spec]
    rcases List.mem_append.mp h with h | h
    · have hle := ih h
      omega
    · obtain rfl := List.mem_singleton.mp h
      omega
  | case2 e hop =>
    rw [operands] at h
    · exact Nat.le_of_eq (congrArg sizeOf (List.mem_singleton.mp h))
    · exact hop

/-- The levels that an expression needs: for each operand of its chain one, one for each operator
in front of it, and those that its parts need. -/
def need (e : Expr) : Nat :=
  greatest (e.operands.attach.mapIdx fun k a =>
    1 + k + greatest (a.val.parts.attach.map fun c => c.val.need))
termination_by sizeOf e
decreasing_by exact Nat.lt_of_lt_of_le (sizeOf_part_lt c.2) (sizeOf_operand_le a.2)

/-- The levels that an operand needs inside. -/
def innerNeed (a : Expr) : Nat :=
  greatest (a.parts.map need)

theorem need_eq (e : Expr) :
    e.need = greatest (e.operands.mapIdx fun k a => 1 + k + a.innerNeed) := by
  rw [need]
  congr 1
  apply List.ext_getElem
  · simp
  · intro i _ _
    simp [innerNeed]

/-- A chain takes the levels of its operands, and one for each operator in front of them. -/
theorem levels_eq (e : Expr) : e.levels = greatest (e.operands.mapIdx fun k a => k + a.levels) := by
  induction e using operands.induct with
  | case1 p l o r ih =>
    rw [levels_operation, operands, List.mapIdx_append, greatest_append, ← ih, length_operands]
    simp [greatest]
  | case2 e h =>
    rw [operands]
    · simp [greatest]
    · exact h

/-- What is no chain takes one level more than its parts. -/
theorem levels_eq_of_not_isOperation {a : Expr} (h : ¬ a.IsOperation) :
    a.levels = 1 + greatest (a.parts.map levels) := by
  apply Nat.le_antisymm
  · rw [Nat.add_comm]
    refine (depthBy_le_iff h).mpr fun c hc => ?_
    exact greatest_le_iff.mp (Nat.le_refl _) _ (List.mem_map_of_mem hc)
  · obtain ⟨n, hn⟩ := Nat.exists_eq_succ_of_ne_zero (Nat.ne_of_gt a.levels_pos)
    have hparts := (depthBy_le_iff h).mp (Nat.le_of_eq hn)
    have hle : greatest (a.parts.map levels) ≤ n := by
      refine greatest_le_iff.mpr fun m hm => ?_
      obtain ⟨c, hc, rfl⟩ := List.mem_map.mp hm
      exact hparts c hc
    omega

/-- What is no chain takes the levels that it needs, if its parts do. -/
theorem levels_eq_innerNeed {a : Expr} (h : ¬ a.IsOperation)
    (hparts : ∀ c ∈ a.parts, c.need = c.levels) : a.levels = 1 + a.innerNeed := by
  rw [levels_eq_of_not_isOperation h, innerNeed, List.map_congr_left hparts]

/-- A chain takes the levels that it needs, if its operands do. -/
theorem need_eq_levels_of_operands {e : Expr}
    (h : ∀ a ∈ e.operands, a.levels = 1 + a.innerNeed) : e.need = e.levels := by
  rw [need_eq, levels_eq]
  congr 1
  apply List.ext_getElem
  · simp
  · intro i hi _
    simp only [List.length_mapIdx] at hi
    rw [List.getElem_mapIdx, List.getElem_mapIdx, h _ (List.getElem_mem hi)]
    omega

end Expr

namespace Phrase

mutual

theorem Atom.levels_eq {us : List Token} {a : Expr} (h : Atom us a) :
    a.levels = 1 + a.innerNeed := by
  refine Expr.levels_eq_innerNeed h.not_isOperation ?_
  match h with
  | .int _ => exact List.forall_mem_nil _
  | .float _ => exact List.forall_mem_nil _
  | .string _ => exact List.forall_mem_nil _
  | .char _ => exact List.forall_mem_nil _
  | .bool _ => exact List.forall_mem_nil _
  | .ident _ => exact List.forall_mem_nil _
  | .step _ _ => exact List.forall_mem_nil _
  | .call _ _ hes _ => exact hes.need_eq_levels
  | .index _ _ he _ => exact List.forall_mem_singleton.mpr he.need_eq_levels
  | .list _ his _ => exact his.need_eq_levels
  | .comprehension _ hb _ _ _ hs _ =>
    exact List.forall_mem_cons.mpr
      ⟨hb.need_eq_levels, List.forall_mem_singleton.mpr hs.need_eq_levels⟩

/-- An expression needs the levels that are open at once while it is read. -/
theorem Expression.need_eq_levels {us : List Token} {e : Expr} (h : Expression us e) :
    e.need = e.levels := by
  match h with
  | .chain ha hc =>
    refine Expr.need_eq_levels_of_operands (hc.levels_operands ?_)
    rw [Expr.operands_of_not_isOperation ha.not_isOperation]
    exact List.forall_mem_singleton.mpr ha.levels_eq

theorem Chain.levels_operands {us : List Token} {a e : Expr} (h : Chain us a e)
    (ha : ∀ b ∈ a.operands, b.levels = 1 + b.innerNeed) :
    ∀ b ∈ e.operands, b.levels = 1 + b.innerNeed := by
  match h with
  | .nil => exact ha
  | .cons _ hb hc =>
    refine hc.levels_operands (List.forall_mem_append.mpr ⟨ha, ?_⟩)
    exact List.forall_mem_singleton.mpr hb.levels_eq

theorem Arguments.need_eq_levels {us : List Token} {es : List Expr} (h : Arguments us es) :
    ∀ e ∈ es, e.need = e.levels := by
  match h with
  | .nil => exact List.forall_mem_nil _
  | .cons he hes => exact List.forall_mem_cons.mpr ⟨he.need_eq_levels, hes.need_eq_levels⟩

theorem MoreArguments.need_eq_levels {us : List Token} {es : List Expr}
    (h : MoreArguments us es) : ∀ e ∈ es, e.need = e.levels := by
  match h with
  | .nil => exact List.forall_mem_nil _
  | .cons _ he hes => exact List.forall_mem_cons.mpr ⟨he.need_eq_levels, hes.need_eq_levels⟩

theorem ListItem.need_eq_levels {us : List Token} {i : Item} (h : ListItem us i) :
    i.expression.need = i.expression.levels := by
  match h with
  | .mk _ he _ => exact he.need_eq_levels

theorem Items.need_eq_levels {us : List Token} {is : List Item} (h : Items us is) :
    ∀ e ∈ is.map Item.expression, e.need = e.levels := by
  match h with
  | .nil => exact List.forall_mem_nil _
  | .cons hi his => exact List.forall_mem_cons.mpr ⟨hi.need_eq_levels, his.need_eq_levels⟩

theorem MoreItems.need_eq_levels {us : List Token} {is : List Item} (h : MoreItems us is) :
    ∀ e ∈ is.map Item.expression, e.need = e.levels := by
  match h with
  | .nil => exact List.forall_mem_nil _
  | .comma _ => exact List.forall_mem_nil _
  | .cons _ hi his => exact List.forall_mem_cons.mpr ⟨hi.need_eq_levels, his.need_eq_levels⟩

end

/-! ## Statements -/

mutual

/-- What a statement needs, as it is written: the greatest need of its expressions and blocks.
The amount of a step is not written. -/
inductive StatementNeeds : List Token → Stmt → Nat → Prop
  | load {t u r : Token} {path : String} (ht : t.kind = .keyword .importWord)
      (hu : u.content = .string path) (hr : r.kind = .symbol .semicolon) :
      StatementNeeds [t, u, r] (.load t.place path) 0
  | assignment {q r : Token} {us vs : List Token} {target value : Expr}
      (ht : Expression us target) (hq : q.kind = .symbol .assign) (hv : Expression vs value)
      (hr : r.kind = .symbol .semicolon) :
      StatementNeeds (us ++ q :: vs ++ [r]) (.assignment target.place target value)
        (greatest [target.need, value.need])
  | expression {r : Token} {us : List Token} {e : Expr} (he : Expression us e)
      (hr : r.kind = .symbol .semicolon) :
      StatementNeeds (us ++ [r]) (.expression e.place e) e.need
  | update {t u r : Token} {name : String} {s : Symbol} {o : Operator} {us : List Token}
      {e : Expr} (ht : t.content = .ident name) (hu : u.update? = some (s, o))
      (hs : s.isStep = false) (he : Expression us e) (hr : r.kind = .symbol .semicolon) :
      StatementNeeds (t :: u :: us ++ [r]) (.update t.place name o e) e.need
  | step {t u r : Token} {name : String} {o : Operator} (ht : t.content = .ident name)
      (hu : u.step? = some o) (hr : r.kind = .symbol .semicolon) :
      StatementNeeds [t, u, r] (.update t.place name o (.int u.place 1)) 0
  | conditional {b m k l : Nat} {t : Token} {us vs ws xs : List Token} {e : Expr}
      {ss : List Stmt} {cs : List Clause} {last : Option (List Stmt)}
      (ht : t.kind = .keyword .ifWord) (he : Condition (fun _ => Expression) b us e)
      (hss : BlockNeeds false vs ⟨ss, none⟩ m) (hcs : ClausesNeed ws cs k)
      (hl : OtherwiseNeeds xs last l) :
      StatementNeeds (t :: us ++ vs ++ ws ++ xs) (.conditional t.place (.mk t.place e ss cs last))
        (greatest [e.need, m, k, l])
  | whileLoop {b m : Nat} {t : Token} {us vs : List Token} {e : Expr} {ss : List Stmt}
      (ht : t.kind = .keyword .whileWord) (he : Condition (fun _ => Expression) b us e)
      (hss : BlockNeeds false vs ⟨ss, none⟩ m) :
      StatementNeeds (t :: us ++ vs) (.whileLoop t.place e ss) (greatest [e.need, m])
  | forLoop {m : Nat} {t u i : Token} {name : String} {us vs : List Token} {e : Expr}
      {ss : List Stmt} (ht : t.kind = .keyword .forWord) (hu : u.content = .ident name)
      (hi : i.kind = .keyword .inWord) (he : Expression us e)
      (hss : BlockNeeds false vs ⟨ss, none⟩ m) :
      StatementNeeds (t :: u :: i :: us ++ vs) (.forLoop t.place (.mk t.place name e ss))
        (greatest [e.need, m])
  | function {m : Nat} {t u l r : Token} {name : String} {names : List String}
      {us vs : List Token} {ss : List Stmt} {result : Option Expr}
      (ht : t.kind = .keyword .fnWord) (hu : u.content = .ident name)
      (hl : l.kind = .symbol .openParen) (hn : Parameters us names)
      (hr : r.kind = .symbol .closeParen) (hb : BlockNeeds true vs ⟨ss, result⟩ m) :
      StatementNeeds (t :: u :: l :: us ++ r :: vs) (.function t.place name names ss result) m

/-- What statements in a row need: the greatest of their needs. -/
inductive StatementsNeed : List Token → List Stmt → Nat → Prop
  | nil : StatementsNeed [] [] 0
  | cons {m n : Nat} {us vs : List Token} {s : Stmt} {ss : List Stmt}
      (hs : StatementNeeds us s m) (hss : StatementsNeed vs ss n) :
      StatementsNeed (us ++ vs) (s :: ss) (max m n)

/-- What a block needs: a level, and what its statements and its result need. -/
inductive BlockNeeds : (returns : Bool) → List Token → Body → Nat → Prop
  | mk {b n : Nat} {returns : Bool} {l r : Token} {us vs : List Token} {ss : List Stmt}
      {result : Option Expr} (hl : l.kind = .symbol .openBrace) (hss : StatementsNeed us ss n)
      (hres : Result (fun _ => Expression) b returns vs result)
      (hr : r.kind = .symbol .closeBrace) :
      BlockNeeds returns (l :: us ++ vs ++ [r]) ⟨ss, result⟩
        (1 + greatest (n :: result.toList.map Expr.need))

/-- What `elif` clauses in a row need. -/
inductive ClausesNeed : List Token → List Clause → Nat → Prop
  | nil : ClausesNeed [] [] 0
  | cons {b m n : Nat} {t : Token} {us vs ws : List Token} {e : Expr} {ss : List Stmt}
      {cs : List Clause} (ht : t.kind = .keyword .elifWord)
      (he : Condition (fun _ => Expression) b us e) (hss : BlockNeeds false vs ⟨ss, none⟩ m)
      (hcs : ClausesNeed ws cs n) :
      ClausesNeed (t :: us ++ vs ++ ws) (.mk e ss :: cs) (greatest [e.need, m, n])

/-- What an `else` needs, if there is one. -/
inductive OtherwiseNeeds : List Token → Option (List Stmt) → Nat → Prop
  | none : OtherwiseNeeds [] none 0
  | some {m : Nat} {t : Token} {us : List Token} {ss : List Stmt}
      (ht : t.kind = .keyword .elseWord) (hss : BlockNeeds false us ⟨ss, none⟩ m) :
      OtherwiseNeeds (t :: us) (some ss) m

end

end Phrase

end ScriptReader
