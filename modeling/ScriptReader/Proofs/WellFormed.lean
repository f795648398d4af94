import ScriptReader.Proofs.ParsedScripts

/-!
# Well-formed trees

A tree is well formed if each of its nodes says something that can be written: numbers, texts
and names that are spelled by some text, a variable that is changed before it is read by one,
up or down, and a change of a variable by one of the four arithmetical operators.  No operation
has an operation on its right, since chains are folded to the left, and no node is blank.
Where the nodes stand does not matter.

Main statement: `wellFormed_of_parse`, the tree of a script is well formed.
-/

namespace ScriptReader

/-! ## Expressions -/

namespace Expr

/-- What an expression must be like, its parts apart. -/
def Admissible : Expr → Prop
  | .blank _ => False
  | .int _ n => leastInt ≤ n ∧ n ≤ greatestInt
  | .float _ x => x.IsDecimal
  | .string _ s => '"' ∉ s.toList
  | .bool _ _ => True
  | .char _ s => IsCharacter s
  | .ident _ name => IsName name
  | .list _ _ => True
  | .call _ name _ => IsName name
  | .index _ name _ => IsName name
  | .step _ name o amount => IsName name ∧ (o = .plus ∨ o = .minus) ∧ ∃ p, amount = .int p 1
  | .operation _ _ _ r => ¬ r.IsOperation
  | .comprehension _ _ name _ => IsName name

/-- All nodes of an expression are as they must be. -/
inductive WellFormed : Expr → Prop
  | node {e : Expr} (h : e.Admissible) (hs : ∀ c ∈ e.parts, WellFormed c) : WellFormed e

theorem WellFormed.leaf {e : Expr} (h : e.Admissible) (hs : e.parts = []) : e.WellFormed := by
  refine .node h ?_
  rw [hs]
  nofun

end Expr

/-! ## Statements -/

namespace Stmt

/-- The expressions that stand directly in a statement. -/
def expressions : Stmt → List Expr
  | .assignment _ target value => [target, value]
  | .update _ _ _ amount => [amount]
  | .conditional _ (.mk _ e _ cs _) => e :: cs.map Clause.condition
  | .whileLoop _ e _ => [e]
  | .forLoop _ (.mk _ _ e _) => [e]
  | .expression _ e => [e]
  | .function _ _ _ _ result => result.toList
  | _ => []

/-- The statements directly in the blocks of a statement. -/
def inner : Stmt → List Stmt
  | .conditional _ (.mk _ _ ss cs last) => ss ++ cs.flatMap Clause.body ++ last.getD []
  | .whileLoop _ _ ss => ss
  | .forLoop _ (.mk _ _ _ ss) => ss
  | .function _ _ _ ss _ => ss
  | _ => []

theorem forall_inner_conditional {P : Stmt → Prop} {p q : Place} {e : Expr} {ss : List Stmt}
    {cs : List Clause} {last : Option (List Stmt)} :
    (∀ s ∈ (conditional p (.mk q e ss cs last)).inner, P s) ↔
      (∀ s ∈ ss, P s) ∧ (∀ c ∈ cs, ∀ s ∈ c.body, P s) ∧ ∀ s ∈ last.getD [], P s := by
  rw [inner, List.append_assoc, List.forall_mem_append, List.forall_mem_append,
    List.forall_mem_flatMap]

/-- What a statement must be like, its expressions and blocks apart. -/
def Admissible : Stmt → Prop
  | .blank _ => False
  | .load _ path => '"' ∉ path.toList
  | .assignment _ _ _ => True
  | .update _ name o _ => IsName name ∧ o ∈ [Operator.plus, .minus, .times, .divide]
  | .conditional _ _ => True
  | .whileLoop _ _ _ => True
  | .forLoop _ (.mk _ name _ _) => IsName name
  | .expression _ _ => True
  | .function _ name names _ _ => IsName name ∧ ∀ n ∈ names, IsName n

/-- All nodes of a statement are as they must be. -/
inductive WellFormed : Stmt → Prop
  | node {s : Stmt} (h : s.Admissible) (he : ∀ e ∈ s.expressions, e.WellFormed)
      (hs : ∀ t ∈ s.inner, WellFormed t) : WellFormed s

end Stmt

/-- All nodes of a program are as they must be. -/
def Program.WellFormed (p : Program) : Prop :=
  ∀ s ∈ p.statements, s.WellFormed

/-! ## Phrases of spelled tokens -/

theorem Token.Spelled.spellable {t : Token} {c : Content} (h : t.Spelled) (hc : t.content = c) :
    c.Spellable := by
  subst hc
  exact Content.spellable_of_spelled h

/-- A variable is changed by one of the four arithmetical operators. -/
theorem Token.mem_of_update? {t : Token} {s : Symbol} {o : Operator}
    (h : t.update? = some (s, o)) : o ∈ [Operator.plus, .minus, .times, .divide] := by
  rw [update?_eq (kind_of_update? h)] at h
  cases s <;> cases h <;> decide

namespace Phrase

/-- All tokens of the list are spelled by rules of the lexicon. -/
def Spelled (ts : List Token) : Prop :=
  ∀ t ∈ ts, t.Spelled

@[simp] theorem spelled_cons {t : Token} {ts : List Token} :
    Spelled (t :: ts) ↔ t.Spelled ∧ Spelled ts := by
  simp [Spelled]

@[simp] theorem spelled_append {us vs : List Token} :
    Spelled (us ++ vs) ↔ Spelled us ∧ Spelled vs := by
  simp only [Spelled, List.mem_append, or_imp, forall_and]

mutual

theorem Atom.wellFormed {us : List Token} {a : Expr} (h : Atom us a) (hs : Spelled us) :
    a.WellFormed := by
  match h with
  | .int h => exact .leaf ((spelled_cons.mp hs).1.spellable h) rfl
  | .float h => exact .leaf ((spelled_cons.mp hs).1.spellable h) rfl
  | .string h => exact .leaf ((spelled_cons.mp hs).1.spellable h) rfl
  | .char h => exact .leaf ((spelled_cons.mp hs).1.spellable h) rfl
  | .bool _ => exact .leaf trivial rfl
  | .ident h => exact .leaf ((spelled_cons.mp hs).1.spellable h) rfl
  | .step ht hu =>
    simp only [spelled_cons] at hs
    refine .leaf ⟨hs.2.1.spellable hu, ?_, _, rfl⟩ rfl
    rcases Token.step?_eq_some.mp ht with ⟨-, rfl⟩ | ⟨-, rfl⟩
    · exact Or.inl rfl
    · exact Or.inr rfl
  | .call ht _ hes _ =>
    simp only [List.cons_append, spelled_cons, spelled_append] at hs
    exact .node (hs.1.spellable ht) (hes.wellFormed hs.2.2.1)
  | .index ht _ he _ =>
    simp only [List.cons_append, spelled_cons, spelled_append] at hs
    exact .node (hs.1.spellable ht) (List.forall_mem_singleton.mpr (he.wellFormed hs.2.2.1))
  | .list _ his _ =>
    simp only [List.cons_append, spelled_cons, spelled_append] at hs
    exact .node trivial (his.wellFormed hs.2.1)
  | .comprehension _ hb _ ht _ hv _ =>
    simp only [List.cons_append, List.append_assoc, spelled_cons, spelled_append] at hs
    obtain ⟨-, hus, -, hname, -, hvs, -⟩ := hs
    refine .node (hname.spellable ht) ?_
    exact List.forall_mem_cons.mpr
      ⟨hb.wellFormed hus, List.forall_mem_singleton.mpr (hv.wellFormed hvs)⟩

theorem Expression.wellFormed {us : List Token} {e : Expr} (h : Expression us e)
    (hs : Spelled us) : e.WellFormed := by
  match h with
  | .chain ha hc =>
    rw [spelled_append] at hs
    exact hc.wellFormed hs.2 (ha.wellFormed hs.1)

theorem Chain.wellFormed {us : List Token} {a e : Expr} (h : Chain us a e) (hs : Spelled us)
    (ha : a.WellFormed) : e.WellFormed := by
  match h with
  | .nil => exact ha
  | .cons _ hb hc =>
    simp only [List.cons_append, spelled_cons, spelled_append] at hs
    refine hc.wellFormed hs.2.2 (.node hb.not_isOperation ?_)
    exact List.forall_mem_cons.mpr ⟨ha, List.forall_mem_singleton.mpr (hb.wellFormed hs.2.1)⟩

theorem Arguments.wellFormed {us : List Token} {es : List Expr} (h : Arguments us es)
    (hs : Spelled us) : ∀ e ∈ es, e.WellFormed := by
  match h with
  | .nil => simp
  | .cons he hes =>
    rw [spelled_append] at hs
    exact List.forall_mem_cons.mpr ⟨he.wellFormed hs.1, hes.wellFormed hs.2⟩

theorem MoreArguments.wellFormed {us : List Token} {es : List Expr} (h : MoreArguments us es)
    (hs : Spelled us) : ∀ e ∈ es, e.WellFormed := by
  match h with
  | .nil => simp
  | .cons _ he hes =>
    simp only [List.cons_append, spelled_cons, spelled_append] at hs
    exact List.forall_mem_cons.mpr ⟨he.wellFormed hs.2.1, hes.wellFormed hs.2.2⟩

theorem ListItem.wellFormed {us : List Token} {i : Item} (h : ListItem us i) (hs : Spelled us) :
    i.expression.WellFormed := by
  match h with
  | .mk _ he _ =>
    simp only [spelled_append] at hs
    exact he.wellFormed hs.1.2

theorem Items.wellFormed {us : List Token} {is : List Item} (h : Items us is)
    (hs : Spelled us) : ∀ e ∈ is.map Item.expression, e.WellFormed := by
  match h with
  | .nil => simp
  | .cons hi his =>
    rw [spelled_append] at hs
    exact List.forall_mem_cons.mpr ⟨hi.wellFormed hs.1, his.wellFormed hs.2⟩

theorem MoreItems.wellFormed {us : List Token} {is : List Item} (h : MoreItems us is)
    (hs : Spelled us) : ∀ e ∈ is.map Item.expression, e.WellFormed := by
  match h with
  | .nil => simp
  | .comma _ => simp
  | .cons _ hi his =>
    simp only [List.cons_append, spelled_cons, spelled_append] at hs
    exact List.forall_mem_cons.mpr ⟨hi.wellFormed hs.2.1, his.wellFormed hs.2.2⟩

end

theorem MoreParameters.isName {us : List Token} {names : List String}
    (h : MoreParameters us names) (hs : Spelled us) : ∀ n ∈ names, IsName n := by
  induction h with
  | nil => simp
  | cons _ hu _ ih =>
    simp only [spelled_cons] at hs
    exact List.forall_mem_cons.mpr ⟨hs.2.1.spellable hu, ih hs.2.2⟩

theorem Parameters.isName {us : List Token} {names : List String} (h : Parameters us names)
    (hs : Spelled us) : ∀ n ∈ names, IsName n := by
  cases h with
  | nil => simp
  | cons ht hus =>
    rw [spelled_cons] at hs
    exact List.forall_mem_cons.mpr ⟨hs.1.spellable ht, hus.isName hs.2⟩

section

variable {E : Nat → List Token → Expr → Prop} {B : Nat → Prop}

theorem Condition.wellFormed (hE : ∀ b us e, E b us e → Spelled us → e.WellFormed) {b : Nat}
    {us : List Token} {e : Expr} (h : Condition E b us e) (hs : Spelled us) : e.WellFormed := by
  cases h with
  | mk _ he _ =>
    simp only [List.cons_append, spelled_cons, spelled_append] at hs
    exact hE _ _ _ he hs.2.1

theorem Result.wellFormed (hE : ∀ b us e, E b us e → Spelled us → e.WellFormed) {b : Nat}
    {returns : Bool} {us : List Token} {result : Option Expr} (h : Result E b returns us result)
    (hs : Spelled us) : ∀ e ∈ result.toList, e.WellFormed := by
  cases h with
  | none => simp
  | some _ he _ =>
    simp only [List.cons_append, spelled_cons, spelled_append] at hs
    exact List.forall_mem_singleton.mpr (hE _ _ _ he hs.2.1)

mutual

theorem Statement.wellFormed (hE : ∀ b us e, E b us e → Spelled us → e.WellFormed) {b : Nat}
    {us : List Token} {s : Stmt} (h : Statement E B b us s) (hs : Spelled us) :
    s.WellFormed := by
  match h with
  | .load _ hu _ =>
    simp only [spelled_cons] at hs
    exact .node (hs.2.1.spellable hu) nofun nofun
  | .assignment ht _ hv _ =>
    simp only [List.append_assoc, List.cons_append, spelled_cons, spelled_append] at hs
    refine .node trivial ?_ nofun
    exact List.forall_mem_cons.mpr
      ⟨hE _ _ _ ht hs.1, List.forall_mem_singleton.mpr (hE _ _ _ hv hs.2.2.1)⟩
  | .expression he _ =>
    rw [spelled_append] at hs
    exact .node trivial (List.forall_mem_singleton.mpr (hE _ _ _ he hs.1)) nofun
  | .update ht hu _ he _ =>
    simp only [List.cons_append, spelled_cons, spelled_append] at hs
    refine .node ⟨hs.1.spellable ht, Token.mem_of_update? hu⟩ ?_ nofun
    exact List.forall_mem_singleton.mpr (hE _ _ _ he hs.2.2.1)
  | .step ht hu _ =>
    simp only [spelled_cons] at hs
    obtain ⟨s, hu', -⟩ := Token.step?_eq_some_iff_update?.mp hu
    refine .node ⟨hs.1.spellable ht, Token.mem_of_update? hu'⟩ ?_ nofun
    exact List.forall_mem_singleton.mpr
      (.leaf (show leastInt ≤ 1 ∧ 1 ≤ greatestInt by decide) rfl)
  | .conditional _ he hss hcs hl =>
    simp only [List.cons_append, spelled_cons, spelled_append] at hs
    obtain ⟨-, ⟨⟨hus, hvs⟩, hws⟩, hxs⟩ := hs
    have hclauses := hcs.wellFormed hE hws
    refine .node trivial ?_ ?_
    · refine List.forall_mem_cons.mpr ⟨he.wellFormed hE hus, ?_⟩
      exact List.forall_mem_map.mpr fun c hc => (hclauses c hc).1
    · exact Stmt.forall_inner_conditional.mpr
        ⟨(hss.wellFormed hE hvs).1, fun c hc => (hclauses c hc).2, hl.wellFormed hE hxs⟩
  | .whileLoop _ he hss =>
    simp only [List.cons_append, spelled_cons, spelled_append] at hs
    exact .node trivial (List.forall_mem_singleton.mpr (he.wellFormed hE hs.2.1))
      (hss.wellFormed hE hs.2.2).1
  | .forLoop _ hu _ he hss =>
    simp only [List.cons_append, spelled_cons, spelled_append] at hs
    exact .node (hs.2.1.spellable hu) (List.forall_mem_singleton.mpr (hE _ _ _ he hs.2.2.2.1))
      (hss.wellFormed hE hs.2.2.2.2).1
  | .function _ hu _ hn _ hb =>
    simp only [List.cons_append, spelled_cons, spelled_append] at hs
    obtain ⟨-, hname, -, hus, -, hvs⟩ := hs
    have hbody := hb.wellFormed hE hvs
    exact .node ⟨hname.spellable hu, hn.isName hus⟩ hbody.2 hbody.1

theorem Statements.wellFormed (hE : ∀ b us e, E b us e → Spelled us → e.WellFormed) {b : Nat}
    {us : List Token} {ss : List Stmt} (h : Statements E B b us ss) (hs : Spelled us) :
    ∀ s ∈ ss, s.WellFormed := by
  match h with
  | .nil => simp
  | .cons h hss =>
    rw [spelled_append] at hs
    exact List.forall_mem_cons.mpr ⟨h.wellFormed hE hs.1, hss.wellFormed hE hs.2⟩

theorem Block.wellFormed (hE : ∀ b us e, E b us e → Spelled us → e.WellFormed) {b : Nat}
    {returns : Bool} {us : List Token} {body : Body} (h : Block E B b returns us body)
    (hs : Spelled us) :
    (∀ s ∈ body.statements, s.WellFormed) ∧ ∀ e ∈ body.result.toList, e.WellFormed := by
  match h with
  | .mk _ _ hss hres _ =>
    simp only [List.cons_append, spelled_cons, spelled_append] at hs
    exact ⟨hss.wellFormed hE hs.2.1.1, hres.wellFormed hE hs.2.1.2⟩

theorem Clauses.wellFormed (hE : ∀ b us e, E b us e → Spelled us → e.WellFormed) {b : Nat}
    {us : List Token} {cs : List Clause} (h : Clauses E B b us cs) (hs : Spelled us) :
    ∀ c ∈ cs, c.condition.WellFormed ∧ ∀ s ∈ c.body, s.WellFormed := by
  match h with
  | .nil => simp
  | .cons _ he hss hcs =>
    simp only [List.cons_append, spelled_cons, spelled_append] at hs
    obtain ⟨-, ⟨hus, hvs⟩, hws⟩ := hs
    exact List.forall_mem_cons.mpr
      ⟨⟨he.wellFormed hE hus, (hss.wellFormed hE hvs).1⟩, hcs.wellFormed hE hws⟩

theorem Otherwise.wellFormed (hE : ∀ b us e, E b us e → Spelled us → e.WellFormed) {b : Nat}
    {us : List Token} {last : Option (List Stmt)} (h : Otherwise E B b us last)
    (hs : Spelled us) : ∀ s ∈ last.getD [], s.WellFormed := by
  match h with
  | .none => simp
  | .some _ hss =>
    rw [spelled_cons] at hs
    exact (hss.wellFormed hE hs.2).1

end

end

theorem Script.wellFormed {us : List Token} {p : Program} (h : Script us p) (hs : Spelled us) :
    p.WellFormed := by
  cases h with
  | mk h => exact h.wellFormed (fun _ _ _ he => he.wellFormed) hs

end Phrase

/-- The tree of a script is well formed. -/
theorem wellFormed_of_parse {source : String} {limit : Int} {p : Program}
    (h : parse source limit = .ok p) : p.WellFormed := by
  obtain ⟨ts, e, htok, hts⟩ := script_of_parse h
  obtain ⟨ts', e', heq, -, hspelled⟩ := spelled_of_tokenize htok
  obtain ⟨rfl, -⟩ := List.append_inj' heq rfl
  exact hts.wellFormed hspelled

end ScriptReader
