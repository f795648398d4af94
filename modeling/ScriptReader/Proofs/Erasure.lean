import ScriptReader.Proofs.WellFormed

/-!
# Trees without places

`erase` puts all nodes of a tree at one place that is none of a script, so two trees say the
same, wherever they stand, if they are erased to one tree.

Main statement: `Program.WellFormed.of_erase_eq`, that it does not matter for a well-formed tree
where its nodes stand.
-/

namespace ScriptReader

/-- A place that no token has. -/
def Place.nowhere : Place :=
  ⟨0, 0⟩

mutual

/-- An expression without places. -/
def Expr.erase : Expr → Expr
  | .blank _ => .blank .nowhere
  | .int _ n => .int .nowhere n
  | .float _ x => .float .nowhere x
  | .string _ s => .string .nowhere s
  | .bool _ b => .bool .nowhere b
  | .char _ s => .char .nowhere s
  | .ident _ name => .ident .nowhere name
  | .list _ items => .list .nowhere (Item.eraseAll items)
  | .call _ name es => .call .nowhere name (Expr.eraseAll es)
  | .index _ name e => .index .nowhere name e.erase
  | .step _ name o amount => .step .nowhere name o amount.erase
  | .operation _ l o r => .operation .nowhere l.erase o r.erase
  | .comprehension _ body name source => .comprehension .nowhere body.erase name source.erase

/-- An item without places. -/
def Item.erase : Item → Item
  | .mk _ e isSpread isPack => .mk .nowhere e.erase isSpread isPack

/-- Expressions without places. -/
def Expr.eraseAll : List Expr → List Expr
  | [] => []
  | e :: es => e.erase :: Expr.eraseAll es

/-- Items without places. -/
def Item.eraseAll : List Item → List Item
  | [] => []
  | i :: is => i.erase :: Item.eraseAll is

end

mutual

/-- A statement without places. -/
def Stmt.erase : Stmt → Stmt
  | .blank _ => .blank .nowhere
  | .load _ path => .load .nowhere path
  | .assignment _ target value => .assignment .nowhere target.erase value.erase
  | .update _ name o amount => .update .nowhere name o amount.erase
  | .conditional _ b => .conditional .nowhere b.erase
  | .whileLoop _ e ss => .whileLoop .nowhere e.erase (Stmt.eraseAll ss)
  | .forLoop _ l => .forLoop .nowhere l.erase
  | .expression _ e => .expression .nowhere e.erase
  | .function _ name names ss result =>
    .function .nowhere name names (Stmt.eraseAll ss) (result.map Expr.erase)

/-- A branch without places. -/
def Branch.erase : Branch → Branch
  | .mk _ e ss cs none => .mk .nowhere e.erase (Stmt.eraseAll ss) (Clause.eraseAll cs) none
  | .mk _ e ss cs (some last) =>
    .mk .nowhere e.erase (Stmt.eraseAll ss) (Clause.eraseAll cs) (some (Stmt.eraseAll last))

/-- A clause without places. -/
def Clause.erase : Clause → Clause
  | .mk e ss => .mk e.erase (Stmt.eraseAll ss)

/-- A loop without places. -/
def Loop.erase : Loop → Loop
  | .mk _ name e ss => .mk .nowhere name e.erase (Stmt.eraseAll ss)

/-- Statements without places. -/
def Stmt.eraseAll : List Stmt → List Stmt
  | [] => []
  | s :: ss => s.erase :: Stmt.eraseAll ss

/-- Clauses without places. -/
def Clause.eraseAll : List Clause → List Clause
  | [] => []
  | c :: cs => c.erase :: Clause.eraseAll cs

end

/-- A program without places. -/
def Program.erase (p : Program) : Program :=
  ⟨.nowhere, p.statements.map Stmt.erase⟩

/-! ## Lists -/

theorem Expr.eraseAll_eq_map (es : List Expr) : Expr.eraseAll es = es.map Expr.erase := by
  induction es with
  | nil => rfl
  | cons e es ih => rw [Expr.eraseAll, ih, List.map_cons]

theorem Item.eraseAll_eq_map (is : List Item) : Item.eraseAll is = is.map Item.erase := by
  induction is with
  | nil => rfl
  | cons i is ih => rw [Item.eraseAll, ih, List.map_cons]

theorem Stmt.eraseAll_eq_map (ss : List Stmt) : Stmt.eraseAll ss = ss.map Stmt.erase := by
  induction ss with
  | nil => rfl
  | cons s ss ih => rw [Stmt.eraseAll, ih, List.map_cons]

theorem Clause.eraseAll_eq_map (cs : List Clause) :
    Clause.eraseAll cs = cs.map Clause.erase := by
  induction cs with
  | nil => rfl
  | cons c cs ih => rw [Clause.eraseAll, ih, List.map_cons]

theorem Branch.erase_mk (p : Place) (e : Expr) (ss : List Stmt) (cs : List Clause)
    (last : Option (List Stmt)) :
    (Branch.mk p e ss cs last).erase =
      .mk .nowhere e.erase (ss.map Stmt.erase) (cs.map Clause.erase)
        (last.map (·.map Stmt.erase)) := by
  cases last with
  | none => rw [Branch.erase, Stmt.eraseAll_eq_map, Clause.eraseAll_eq_map, Option.map_none]
  | some ts =>
    rw [Branch.erase, Stmt.eraseAll_eq_map, Clause.eraseAll_eq_map, Stmt.eraseAll_eq_map,
      Option.map_some]

/-! ## Well-formed trees -/

namespace Expr

theorem parts_erase (e : Expr) : e.erase.parts = e.parts.map erase := by
  cases e with
  | list p items =>
    rw [erase, parts, parts, Item.eraseAll_eq_map, List.map_map, List.map_map]
    refine List.map_congr_left ?_
    rintro ⟨q, e, s, k⟩ -
    rfl
  | call p name es => exact eraseAll_eq_map es
  | _ => rfl

theorem isOperation_erase {e : Expr} : e.erase.IsOperation ↔ e.IsOperation := by
  constructor
  · rintro ⟨p, l, o, r, h⟩
    cases e with
    | operation p l o r => exact ⟨p, l, o, r, rfl⟩
    | _ => cases h
  · rintro ⟨p, l, o, r, rfl⟩
    exact ⟨_, _, _, _, rfl⟩

theorem exists_int_erase {e : Expr} {n : Int} :
    (∃ p, e.erase = .int p n) ↔ ∃ p, e = .int p n := by
  constructor
  · rintro ⟨p, h⟩
    cases e with
    | int q m =>
      cases h
      exact ⟨q, rfl⟩
    | _ => cases h
  · rintro ⟨p, rfl⟩
    exact ⟨_, rfl⟩

theorem admissible_erase {e : Expr} : e.erase.Admissible ↔ e.Admissible := by
  cases e with
  | step p name o amount => rw [erase, Admissible, Admissible, exists_int_erase]
  | operation p l o r => rw [erase, Admissible, Admissible, isOperation_erase]
  | _ => rfl

theorem wellFormed_erase {e : Expr} : e.erase.WellFormed ↔ e.WellFormed := by
  constructor
  · intro h
    generalize he : e.erase = e' at h
    induction h generalizing e with
    | node h _ ih =>
      subst he
      refine .node (admissible_erase.mp h) ?_
      intro c hc
      refine ih c.erase ?_ rfl
      rw [parts_erase]
      exact List.mem_map_of_mem hc
  · intro h
    induction h with
    | @node e h _ ih =>
      refine .node (admissible_erase.mpr h) ?_
      rw [parts_erase]
      exact List.forall_mem_map.mpr ih

end Expr

theorem Clause.condition_erase (c : Clause) : c.erase.condition = c.condition.erase := by
  cases c
  rfl

theorem Clause.body_erase (c : Clause) : c.erase.body = c.body.map Stmt.erase := by
  cases c
  exact Stmt.eraseAll_eq_map _

namespace Stmt

theorem expressions_erase (s : Stmt) : s.erase.expressions = s.expressions.map Expr.erase := by
  cases s with
  | conditional p b =>
    obtain ⟨q, e, ss, cs, last⟩ := b
    rw [erase, Branch.erase_mk, expressions, expressions, List.map_cons, List.map_map,
      List.map_map]
    simp only [Function.comp_def, Clause.condition_erase]
  | forLoop p l =>
    cases l
    rfl
  | function p name names ss result => cases result <;> rfl
  | _ => rfl

theorem inner_erase (s : Stmt) : s.erase.inner = s.inner.map erase := by
  cases s with
  | conditional p b =>
    obtain ⟨q, e, ss, cs, last⟩ := b
    rw [erase, Branch.erase_mk, inner, inner]
    simp only [List.map_append, List.map_flatMap, List.flatMap_map, Clause.body_erase]
    cases last <;> rfl
  | whileLoop p e ss => exact eraseAll_eq_map ss
  | forLoop p l =>
    cases l
    exact eraseAll_eq_map _
  | function p name names ss result => exact eraseAll_eq_map ss
  | _ => rfl

theorem admissible_erase {s : Stmt} : s.erase.Admissible ↔ s.Admissible := by
  cases s with
  | forLoop p l =>
    cases l
    rfl
  | _ => rfl

theorem wellFormed_erase {s : Stmt} : s.erase.WellFormed ↔ s.WellFormed := by
  constructor
  · intro h
    generalize hs : s.erase = s' at h
    induction h generalizing s with
    | node h he _ ih =>
      subst hs
      rw [expressions_erase, List.forall_mem_map] at he
      refine .node (admissible_erase.mp h) (fun e hm => Expr.wellFormed_erase.mp (he e hm)) ?_
      intro t ht
      refine ih t.erase ?_ rfl
      rw [inner_erase]
      exact List.mem_map_of_mem ht
  · intro h
    induction h with
    | @node s h he _ ih =>
      refine .node (admissible_erase.mpr h) ?_ ?_
      · rw [expressions_erase, List.forall_mem_map]
        exact fun e hm => Expr.wellFormed_erase.mpr (he e hm)
      · rw [inner_erase]
        exact List.forall_mem_map.mpr ih

end Stmt

namespace Program

theorem wellFormed_erase {p : Program} : p.erase.WellFormed ↔ p.WellFormed := by
  unfold WellFormed erase
  rw [List.forall_mem_map]
  exact forall₂_congr fun s _ => Stmt.wellFormed_erase

/-- Where the nodes stand does not matter. -/
theorem WellFormed.of_erase_eq {p q : Program} (h : p.WellFormed) (he : p.erase = q.erase) :
    q.WellFormed := by
  rw [← wellFormed_erase, he, wellFormed_erase] at h
  exact h

end Program

end ScriptReader
