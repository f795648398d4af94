import ScriptReader.Tree.Same
import ScriptReader.Proofs.ExactGrammar
import ScriptReader.Proofs.ReadingBack

/-!
# Trees that are the same

Two well-formed trees are the same if they are equal without their places: a number that some
decimal text has as its value is no undefined one and not the negative zero, so it is the same
only as itself.  And they are equal without their places if their tokens say the same: what is
written for a tree does not depend on places, and is read back as the tree.

Main statements:

* `Program.WellFormed.same_iff`: being the same, and being equal without places;
* `Program.WellFormed.contents_eq_iff`: and having the same written for it.
-/

namespace ScriptReader

/-! ## Numbers -/

namespace Binary64

/-- A number with a decimal text is finite and has no sign. -/
theorem IsDecimal.magnitude_eq {x : Binary64} (h : x.IsDecimal) :
    x.magnitude = x.bits.toNat ∧ x.isUndefined = false := by
  obtain ⟨whole, part, -, -, hx⟩ := h
  unfold ofDecimal? nearest? at hx
  dsimp only at hx
  split at hx
  · next hp =>
    cases hx
    generalize nearestPattern _ _ = p at hp ⊢
    have hlt : p < Nat.pow 2 63 := Nat.lt_trans hp (by decide)
    have hbits : (UInt64.ofNat p).toNat = p :=
      UInt64.toNat_ofNat_of_lt (Nat.lt_trans hlt (by decide))
    have hm : magnitude ⟨UInt64.ofNat p⟩ = p := by
      rw [magnitude, hbits, Nat.mod_eq_of_lt hlt]
    refine ⟨hm.trans hbits.symm, ?_⟩
    rw [isUndefined, hm]
    exact decide_eq_false (Nat.lt_asymm hp)
  · cases hx

/-- A number with a decimal text is the same only as itself. -/
theorem IsDecimal.same_iff {x y : Binary64} (hx : x.IsDecimal) (hy : y.IsDecimal) :
    x.same y = true ↔ x = y := by
  obtain ⟨hmx, hux⟩ := hx.magnitude_eq
  obtain ⟨hmy, -⟩ := hy.magnitude_eq
  constructor
  · intro h
    simp only [same, hux, hmx, hmy, Bool.not_false, Bool.true_and, Bool.or_eq_true, beq_iff_eq,
      Bool.and_eq_true] at h
    obtain ⟨x⟩ := x
    obtain ⟨y⟩ := y
    rcases h with rfl | ⟨hx, hy⟩
    · rfl
    · exact congrArg mk (UInt64.toNat_inj.mp (hx.trans hy.symm))
  · rintro rfl
    exact same_self hux

end Binary64

/-! ## Lists -/

/-- Lists that are compared element by element are the same if their images under `g` are equal,
if that holds of their elements. -/
theorem map_eq_iff_of_all {α : Type} {all : List α → List α → Bool} {same : α → α → Bool}
    {g : α → α}
    (hall : ∀ xs ys, all xs ys = match xs, ys with
      | [], [] => true
      | x :: xs, y :: ys => same x y && all xs ys
      | _, _ => false)
    {xs ys : List α} (h : ∀ x ∈ xs, ∀ y ∈ ys, same x y = true ↔ g x = g y) :
    all xs ys = true ↔ xs.map g = ys.map g := by
  induction xs generalizing ys with
  | nil => cases ys <;> simp [hall]
  | cons x xs ih =>
    cases ys with
    | nil => simp [hall]
    | cons y ys =>
      have hrest := ih fun x' hx' y' hy' =>
        h x' (List.mem_cons_of_mem x hx') y' (List.mem_cons_of_mem y hy')
      rw [hall, Bool.and_eq_true, h x List.mem_cons_self y List.mem_cons_self, hrest,
        List.map_cons, List.map_cons, List.cons.injEq]

theorem Expr.sameAll_iff {es fs : List Expr}
    (h : ∀ e ∈ es, ∀ f ∈ fs, e.same f = true ↔ e.erase = f.erase) :
    Expr.sameAll es fs = true ↔ es.map Expr.erase = fs.map Expr.erase := by
  refine map_eq_iff_of_all ?_ h
  intro es fs
  cases es <;> cases fs <;> rfl

theorem Item.sameAll_iff {is js : List Item}
    (h : ∀ i ∈ is, ∀ j ∈ js, i.same j = true ↔ i.erase = j.erase) :
    Item.sameAll is js = true ↔ is.map Item.erase = js.map Item.erase := by
  refine map_eq_iff_of_all ?_ h
  intro is js
  cases is <;> cases js <;> rfl

theorem Stmt.sameAll_iff {ss ts : List Stmt}
    (h : ∀ s ∈ ss, ∀ t ∈ ts, s.same t = true ↔ s.erase = t.erase) :
    Stmt.sameAll ss ts = true ↔ ss.map Stmt.erase = ts.map Stmt.erase := by
  refine map_eq_iff_of_all ?_ h
  intro ss ts
  cases ss <;> cases ts <;> rfl

theorem Clause.sameAll_iff {cs ds : List Clause}
    (h : ∀ c ∈ cs, ∀ d ∈ ds, c.same d = true ↔ c.erase = d.erase) :
    Clause.sameAll cs ds = true ↔ cs.map Clause.erase = ds.map Clause.erase := by
  refine map_eq_iff_of_all ?_ h
  intro cs ds
  cases cs <;> cases ds <;> rfl

/-! ## Expressions -/

theorem Item.same_iff {i j : Item}
    (h : i.expression.same j.expression = true ↔ i.expression.erase = j.expression.erase) :
    i.same j = true ↔ i.erase = j.erase := by
  obtain ⟨p, e, s, k⟩ := i
  obtain ⟨q, f, t, l⟩ := j
  simp only [Item.expression] at h
  simp [Item.same, Item.erase, h, and_assoc]

/-- Two well-formed expressions are the same if they are equal without their places. -/
theorem Expr.WellFormed.same_iff {e f : Expr} (he : e.WellFormed) (hf : f.WellFormed) :
    e.same f = true ↔ e.erase = f.erase := by
  induction he generalizing f with
  | @node e h _ ih =>
    cases hf with
    | node hf hfs =>
      have hparts : ∀ c ∈ e.parts, ∀ c' ∈ f.parts, c.same c' = true ↔ c.erase = c'.erase :=
        fun c hc c' hc' => ih c hc (hfs c' hc')
      cases e with
      | blank p => exact absurd h id
      | float p x =>
        cases f with
        | float q y => simp [same, erase, Binary64.IsDecimal.same_iff h hf]
        | _ => simp [same, erase]
      | list p items =>
        cases f with
        | list q items' =>
          have hitems : ∀ i ∈ items, ∀ j ∈ items', i.same j = true ↔ i.erase = j.erase :=
            fun i hi j hj =>
              Item.same_iff (hparts _ (List.mem_map_of_mem hi) _ (List.mem_map_of_mem hj))
          rw [same, Item.sameAll_iff hitems, erase, erase, Item.eraseAll_eq_map,
            Item.eraseAll_eq_map]
          simp
        | _ => simp [same, erase]
      | call p name es =>
        cases f with
        | call q name' es' =>
          have hes : sameAll es es' = true ↔ es.map erase = es'.map erase := sameAll_iff hparts
          rw [same, Bool.and_eq_true, hes, erase, erase, eraseAll_eq_map, eraseAll_eq_map]
          simp
        | _ => simp [same, erase]
      | index p name e =>
        cases f with
        | index q name' e' =>
          simp [same, erase, hparts e List.mem_cons_self e' List.mem_cons_self]
        | _ => simp [same, erase]
      | step p name o amount =>
        cases f with
        | step q name' o' amount' =>
          obtain ⟨-, -, -, rfl⟩ := h
          obtain ⟨-, -, -, rfl⟩ := hf
          simp [same, erase]
        | _ => simp [same, erase]
      | operation p l o r =>
        cases f with
        | operation q l' o' r' =>
          have hl := hparts l List.mem_cons_self l' List.mem_cons_self
          have hr := hparts r (by simp [parts]) r' (by simp [parts])
          simp [same, erase, hl, hr, and_assoc]
        | _ => simp [same, erase]
      | comprehension p body name source =>
        cases f with
        | comprehension q body' name' source' =>
          have hb := hparts body List.mem_cons_self body' List.mem_cons_self
          have hs := hparts source (by simp [parts]) source' (by simp [parts])
          simp [same, erase, hb, hs, and_assoc]
        | _ => simp [same, erase]
      | int | string | bool | char | ident => cases f <;> simp [same, erase]

theorem Expr.sameOption_iff {o o' : Option Expr}
    (h : ∀ e ∈ o.toList, ∀ f ∈ o'.toList, e.same f = true ↔ e.erase = f.erase) :
    Expr.sameOption o o' = true ↔ o.map Expr.erase = o'.map Expr.erase := by
  cases o with
  | none => cases o' <;> simp [Expr.sameOption]
  | some e =>
    cases o' with
    | none => simp [Expr.sameOption]
    | some f =>
      have hef := h e (List.mem_singleton_self e) f (List.mem_singleton_self f)
      rw [Expr.sameOption, hef, Option.map_some, Option.map_some, Option.some.injEq]

/-! ## Statements -/

theorem Clause.same_iff {c d : Clause}
    (he : c.condition.same d.condition = true ↔ c.condition.erase = d.condition.erase)
    (hs : ∀ s ∈ c.body, ∀ t ∈ d.body, s.same t = true ↔ s.erase = t.erase) :
    c.same d = true ↔ c.erase = d.erase := by
  obtain ⟨e, ss⟩ := c
  obtain ⟨f, ts⟩ := d
  have hss : Stmt.sameAll ss ts = true ↔ ss.map Stmt.erase = ts.map Stmt.erase :=
    Stmt.sameAll_iff hs
  simp only [Clause.condition] at he
  rw [Clause.same, Bool.and_eq_true, he, hss, Clause.erase, Clause.erase, Stmt.eraseAll_eq_map,
    Stmt.eraseAll_eq_map, Clause.mk.injEq]

theorem Branch.same_iff {p q : Place} {e f : Expr} {ss ts : List Stmt} {cs ds : List Clause}
    {last last' : Option (List Stmt)} (he : e.same f = true ↔ e.erase = f.erase)
    (hs : ∀ s ∈ ss, ∀ t ∈ ts, s.same t = true ↔ s.erase = t.erase)
    (hc : ∀ c ∈ cs, ∀ d ∈ ds, c.same d = true ↔ c.erase = d.erase)
    (hl : ∀ s ∈ last.getD [], ∀ t ∈ last'.getD [], s.same t = true ↔ s.erase = t.erase) :
    (Branch.mk p e ss cs last).same (.mk q f ts ds last') = true ↔
      (Branch.mk p e ss cs last).erase = (Branch.mk q f ts ds last').erase := by
  have hss := Stmt.sameAll_iff hs
  have hcs := Clause.sameAll_iff hc
  rw [Branch.erase_mk, Branch.erase_mk]
  cases last with
  | none => cases last' <;> simp [Branch.same, he, hss, hcs, and_assoc]
  | some os =>
    cases last' with
    | none => simp [Branch.same]
    | some os' =>
      have hos : Stmt.sameAll os os' = true ↔ os.map Stmt.erase = os'.map Stmt.erase :=
        Stmt.sameAll_iff hl
      simp [Branch.same, he, hss, hcs, hos, and_assoc]

section

variable {p q : Place} {e : Expr} {ss : List Stmt} {cs : List Clause} {last : Option (List Stmt)}
  {s : Stmt}

theorem Stmt.mem_inner_of_body (h : s ∈ ss) :
    s ∈ (conditional p (.mk q e ss cs last)).inner :=
  List.mem_append_left _ (List.mem_append_left _ h)

theorem Stmt.mem_inner_of_clause {c : Clause} (hc : c ∈ cs) (h : s ∈ c.body) :
    s ∈ (conditional p (.mk q e ss cs last)).inner :=
  List.mem_append_left _ (List.mem_append_right _ (List.mem_flatMap.mpr ⟨c, hc, h⟩))

theorem Stmt.mem_inner_of_last (h : s ∈ last.getD []) :
    s ∈ (conditional p (.mk q e ss cs last)).inner :=
  List.mem_append_right _ h

end

/-- Two well-formed statements are the same if they are equal without their places. -/
theorem Stmt.WellFormed.same_iff {s t : Stmt} (hs : s.WellFormed) (ht : t.WellFormed) :
    s.same t = true ↔ s.erase = t.erase := by
  induction hs generalizing t with
  | @node s h he _ ih =>
    cases ht with
    | node h' he' hs' =>
      have hexpr : ∀ e ∈ s.expressions, ∀ f ∈ t.expressions,
          e.same f = true ↔ e.erase = f.erase :=
        fun e hm f hm' => (he e hm).same_iff (he' f hm')
      have hinner : ∀ u ∈ s.inner, ∀ v ∈ t.inner, u.same v = true ↔ u.erase = v.erase :=
        fun u hu v hv => ih u hu (hs' v hv)
      cases s with
      | blank p => exact absurd h id
      | load p path => cases t <;> simp [same, erase]
      | assignment p target value =>
        cases t with
        | assignment q target' value' =>
          have hx := hexpr target List.mem_cons_self target' List.mem_cons_self
          have hv := hexpr value (by simp [expressions]) value' (by simp [expressions])
          simp [same, erase, hx, hv]
        | _ => simp [same, erase]
      | update p name o amount =>
        cases t with
        | update q name' o' amount' =>
          have ha := hexpr amount List.mem_cons_self amount' List.mem_cons_self
          simp [same, erase, ha, and_assoc]
        | _ => simp [same, erase]
      | conditional p branch =>
        cases t with
        | conditional q branch' =>
          obtain ⟨p', e, ss, cs, last⟩ := branch
          obtain ⟨q', f, ts, ds, last'⟩ := branch'
          have hef := hexpr e List.mem_cons_self f List.mem_cons_self
          have hcs : ∀ c ∈ cs, ∀ d ∈ ds, c.same d = true ↔ c.erase = d.erase := by
            intro c hc d hd
            refine Clause.same_iff ?_ fun u hu v hv => ?_
            · exact hexpr _ (List.mem_cons_of_mem _ (List.mem_map_of_mem hc)) _
                (List.mem_cons_of_mem _ (List.mem_map_of_mem hd))
            · exact hinner u (mem_inner_of_clause hc hu) v (mem_inner_of_clause hd hv)
          have hbranch := Branch.same_iff (p := p') (q := q') hef
            (fun u hu v hv => hinner u (mem_inner_of_body hu) v (mem_inner_of_body hv)) hcs
            (fun u hu v hv => hinner u (mem_inner_of_last hu) v (mem_inner_of_last hv))
          rw [same, hbranch, erase, erase, conditional.injEq]
          simp
        | _ => simp [same, erase]
      | whileLoop p e ss =>
        cases t with
        | whileLoop q f ts =>
          have hef := hexpr e List.mem_cons_self f List.mem_cons_self
          have hss : sameAll ss ts = true ↔ ss.map erase = ts.map erase := sameAll_iff hinner
          simp [same, erase, hef, hss, eraseAll_eq_map]
        | _ => simp [same, erase]
      | forLoop p loop =>
        cases t with
        | forLoop q loop' =>
          obtain ⟨p', name, e, ss⟩ := loop
          obtain ⟨q', name', f, ts⟩ := loop'
          have hef := hexpr e List.mem_cons_self f List.mem_cons_self
          have hss : sameAll ss ts = true ↔ ss.map erase = ts.map erase := sameAll_iff hinner
          simp [same, erase, Loop.same, Loop.erase, hef, hss, eraseAll_eq_map, and_assoc]
        | _ => simp [same, erase]
      | expression p e =>
        cases t with
        | expression q f =>
          simp [same, erase, hexpr e List.mem_cons_self f List.mem_cons_self]
        | _ => simp [same, erase]
      | function p name names ss result =>
        cases t with
        | function q name' names' ts result' =>
          have hss : sameAll ss ts = true ↔ ss.map erase = ts.map erase := sameAll_iff hinner
          have hres : Expr.sameOption result result' = true ↔
              result.map Expr.erase = result'.map Expr.erase := Expr.sameOption_iff hexpr
          simp [same, erase, hss, hres, eraseAll_eq_map, and_assoc]
        | _ => simp [same, erase]

theorem Program.WellFormed.same_iff {p q : Program} (hp : p.WellFormed) (hq : q.WellFormed) :
    p.same q = true ↔ p.erase = q.erase := by
  have hss := Stmt.sameAll_iff fun s hs t ht => (hp s hs).same_iff (hq t ht)
  rw [same, hss, erase, erase, mk.injEq]
  simp

/-! ## What is written -/

mutual

/-- What is written for an expression does not depend on places. -/
theorem Expr.contents_erase (e : Expr) : e.erase.contents = e.contents := by
  cases e with
  | list p items => rw [Expr.erase, Expr.contents, Expr.contents, Item.contentsEach_erase items]
  | call p name es => rw [Expr.erase, Expr.contents, Expr.contents, Expr.contentsEach_erase es]
  | index p name e => rw [Expr.erase, Expr.contents, Expr.contents, e.contents_erase]
  | operation p l o r =>
    rw [Expr.erase, Expr.contents, Expr.contents, l.contents_erase, r.contents_erase]
  | comprehension p body name source =>
    rw [Expr.erase, Expr.contents, Expr.contents, body.contents_erase, source.contents_erase]
  | _ => rfl

theorem Item.contents_erase (i : Item) : i.erase.contents = i.contents := by
  cases i with
  | mk p e isSpread isPack => rw [Item.erase, Item.contents, Item.contents, e.contents_erase]

theorem Expr.contentsEach_erase (es : List Expr) :
    Expr.contentsEach (Expr.eraseAll es) = Expr.contentsEach es := by
  cases es with
  | nil => rfl
  | cons e es =>
    rw [Expr.eraseAll, Expr.contentsEach, Expr.contentsEach, e.contents_erase,
      Expr.contentsEach_erase es]

theorem Item.contentsEach_erase (is : List Item) :
    Item.contentsEach (Item.eraseAll is) = Item.contentsEach is := by
  cases is with
  | nil => rfl
  | cons i is =>
    rw [Item.eraseAll, Item.contentsEach, Item.contentsEach, i.contents_erase,
      Item.contentsEach_erase is]

end

theorem conditionContents_erase (e : Expr) : conditionContents e.erase = conditionContents e := by
  rw [conditionContents, conditionContents, e.contents_erase]

theorem resultContents_erase (result : Option Expr) :
    resultContents (result.map Expr.erase) = resultContents result := by
  cases result with
  | none => rfl
  | some e => rw [Option.map_some, resultContents, resultContents, e.contents_erase]

mutual

theorem Stmt.contents_erase (s : Stmt) : s.erase.contents = s.contents := by
  cases s with
  | assignment p target value =>
    rw [Stmt.erase, Stmt.contents, Stmt.contents, target.contents_erase, value.contents_erase]
  | update p name o amount => rw [Stmt.erase, Stmt.contents, Stmt.contents, amount.contents_erase]
  | conditional p branch => rw [Stmt.erase, Stmt.contents, Stmt.contents, branch.contents_erase]
  | whileLoop p e ss =>
    rw [Stmt.erase, Stmt.contents, Stmt.contents, conditionContents_erase,
      Stmt.contentsAll_erase ss]
  | forLoop p loop => rw [Stmt.erase, Stmt.contents, Stmt.contents, loop.contents_erase]
  | expression p e => rw [Stmt.erase, Stmt.contents, Stmt.contents, e.contents_erase]
  | function p name names ss result =>
    rw [Stmt.erase, Stmt.contents, Stmt.contents, Stmt.contentsAll_erase ss, resultContents_erase]
  | _ => rfl

theorem Branch.contents_erase (b : Branch) : b.erase.contents = b.contents := by
  match b with
  | .mk p e ss cs none =>
    rw [Branch.erase, Branch.contents, Branch.contents, conditionContents_erase,
      Stmt.contentsAll_erase ss, Clause.contentsAll_erase cs]
  | .mk p e ss cs (some last) =>
    rw [Branch.erase, Branch.contents, Branch.contents, conditionContents_erase,
      Stmt.contentsAll_erase ss, Clause.contentsAll_erase cs, Stmt.contentsAll_erase last]

theorem Clause.contents_erase (c : Clause) : c.erase.contents = c.contents := by
  cases c with
  | mk e ss =>
    rw [Clause.erase, Clause.contents, Clause.contents, conditionContents_erase,
      Stmt.contentsAll_erase ss]

theorem Loop.contents_erase (l : Loop) : l.erase.contents = l.contents := by
  cases l with
  | mk p name e ss =>
    rw [Loop.erase, Loop.contents, Loop.contents, e.contents_erase, Stmt.contentsAll_erase ss]

theorem Stmt.contentsAll_erase (ss : List Stmt) :
    Stmt.contentsAll (Stmt.eraseAll ss) = Stmt.contentsAll ss := by
  cases ss with
  | nil => rfl
  | cons s ss =>
    rw [Stmt.eraseAll, Stmt.contentsAll, Stmt.contentsAll, s.contents_erase,
      Stmt.contentsAll_erase ss]

theorem Clause.contentsAll_erase (cs : List Clause) :
    Clause.contentsAll (Clause.eraseAll cs) = Clause.contentsAll cs := by
  cases cs with
  | nil => rfl
  | cons c cs =>
    rw [Clause.eraseAll, Clause.contentsAll, Clause.contentsAll, c.contents_erase,
      Clause.contentsAll_erase cs]

end

theorem Program.contents_erase (p : Program) : p.erase.contents = p.contents := by
  rw [contents, contents, erase, ← Stmt.eraseAll_eq_map, Stmt.contentsAll_erase]

/-- Two well-formed programs have the same written for them if they are equal without their
places. -/
theorem Program.WellFormed.contents_eq_iff {p q : Program} (hp : p.WellFormed)
    (hq : q.WellFormed) : p.contents = q.contents ↔ p.erase = q.erase := by
  constructor
  · intro h
    -- one token for each of the contents, wherever it stands
    let us : List Token := p.contents.map fun c => ⟨c, .start, c.plain⟩
    have hus : Phrase.Carries us p.contents := by
      rw [Phrase.Carries, List.map_map]
      exact List.map_id _
    obtain ⟨p', hp', hep⟩ := hp.exists_script hus
    obtain ⟨q', hq', heq⟩ := hq.exists_script (h ▸ hus)
    rw [← hep, ← heq, hp'.unique hq']
  · intro h
    rw [← p.contents_erase, h, q.contents_erase]

end ScriptReader
