import ScriptReader.Proofs.Erasure
import ScriptReader.Proofs.Printing

/-!
# Trees read back

Tokens that say what is written for a well-formed tree are a phrase.  Its tree is the one that
was written but for the places of the nodes, since these are those of the tokens.

Main statements:

* `Expr.WellFormed.readable`, `Stmt.WellFormed.readable`: one expression, one statement;
* `Program.WellFormed.exists_script`: a whole program.
-/

namespace ScriptReader

/-! ## Tokens that say it -/

namespace Phrase

/-- The tokens say the contents, one after the other. -/
def Carries (us : List Token) (cs : List Content) : Prop :=
  us.map Token.content = cs

theorem carries_nil {us : List Token} : Carries us [] ↔ us = [] :=
  List.map_eq_nil_iff

theorem carries_cons {us : List Token} {c : Content} {cs : List Content} :
    Carries us (c :: cs) ↔ ∃ t vs, us = t :: vs ∧ t.content = c ∧ Carries vs cs :=
  List.map_eq_cons_iff

theorem carries_singleton {us : List Token} {c : Content} :
    Carries us [c] ↔ ∃ t, us = [t] ∧ t.content = c :=
  List.map_eq_singleton_iff

theorem carries_append {us : List Token} {cs ds : List Content} :
    Carries us (cs ++ ds) ↔ ∃ vs ws, us = vs ++ ws ∧ Carries vs cs ∧ Carries ws ds :=
  List.map_eq_append_iff

/-- Contents between an opening and a closing one. -/
theorem Carries.enclosed {us : List Token} {c d : Content} {cs : List Content}
    (h : Carries us (c :: cs ++ [d])) :
    ∃ l vs r, us = l :: vs ++ [r] ∧ l.content = c ∧ Carries vs cs ∧ r.content = d := by
  obtain ⟨_, _, rfl, hl, hr⟩ := carries_append.mp h
  obtain ⟨l, vs, rfl, hlc, hvs⟩ := carries_cons.mp hl
  obtain ⟨r, rfl, hrc⟩ := carries_singleton.mp hr
  exact ⟨l, vs, r, rfl, hlc, hvs, hrc⟩

end Phrase

namespace Token

theorem binary?_of_content {t : Token} {o : Operator} (h : t.content = o.symbol.content) :
    t.binary? = some o := by
  have hk : t.kind = .symbol o.symbol := kind_eq h
  rw [binary?_eq hk]
  cases o <;> rfl

theorem step?_of_content {t : Token} {o : Operator} (h : t.content = o.stepSymbol.content)
    (ho : o = .plus ∨ o = .minus) : t.step? = some o := by
  have hk : t.kind = .symbol o.stepSymbol := kind_eq h
  rcases ho with rfl | rfl
  · exact step?_eq_some.mpr (Or.inl ⟨hk, rfl⟩)
  · exact step?_eq_some.mpr (Or.inr ⟨hk, rfl⟩)

theorem update?_of_content {t : Token} {o : Operator} (h : t.content = o.updateSymbol.content)
    (ho : o ∈ [Operator.plus, .minus, .times, .divide]) :
    t.update? = some (o.updateSymbol, o) := by
  have hk : t.kind = .symbol o.updateSymbol := kind_eq h
  rw [update?_eq hk]
  cases o with
  | plus | minus | times | divide => rfl
  | lessThan | greaterThan | equal | notEqual => exact absurd ho (by decide)

end Token

theorem Operator.isStep_updateSymbol (o : Operator) : o.updateSymbol.isStep = false := by
  cases o <;> rfl

namespace Phrase

/-! ## Expressions -/

theorem Dots.of_carries {us : List Token} {b : Bool} (h : Carries us (dotsContents b)) :
    Dots us b := by
  cases b with
  | false =>
    obtain rfl := carries_nil.mp h
    exact .absent
  | true =>
    obtain ⟨t, rfl, ht⟩ := carries_singleton.mp h
    exact .present (Token.kind_eq ht)

end Phrase

open Phrase

/-- Tokens that say what is written for the expression are a phrase of it, and those of an atom
if it is no operation. -/
def Expr.Readable (e : Expr) : Prop :=
  ∀ us, Carries us e.contents →
    ∃ e', Expression us e' ∧ (¬ e.IsOperation → Atom us e') ∧ e'.erase = e.erase

theorem Expr.Readable.of_atom {e : Expr}
    (h : ∀ us, Carries us e.contents → ∃ a, Atom us a ∧ a.erase = e.erase) : e.Readable := by
  intro us hus
  obtain ⟨a, ha, he⟩ := h us hus
  exact ⟨a, ha.expression, fun _ => ha, he⟩

namespace Phrase

theorem MoreArguments.of_readable {es : List Expr} (h : ∀ e ∈ es, e.Readable) {us : List Token}
    (hus : Carries us ((es.map Expr.contents).flatMap fun cs => Symbol.comma.content :: cs)) :
    ∃ es', MoreArguments us es' ∧ es'.map Expr.erase = es.map Expr.erase := by
  induction es generalizing us with
  | nil =>
    obtain rfl := carries_nil.mp hus
    exact ⟨[], .nil, rfl⟩
  | cons e es ih =>
    obtain ⟨he, hes⟩ := List.forall_mem_cons.mp h
    rw [List.map_cons, List.flatMap_cons, carries_append] at hus
    obtain ⟨_, ws, rfl, hvs, hws⟩ := hus
    obtain ⟨t, vs, rfl, ht, hvs⟩ := carries_cons.mp hvs
    obtain ⟨e', he', -, hee⟩ := he vs hvs
    obtain ⟨es', hes', hees⟩ := ih hes hws
    exact ⟨e' :: es', .cons (Token.kind_eq ht) he' hes', by rw [List.map_cons, hee, hees]; rfl⟩

theorem Arguments.of_readable {es : List Expr} (h : ∀ e ∈ es, e.Readable) {us : List Token}
    (hus : Carries us (separated (es.map Expr.contents))) :
    ∃ es', Arguments us es' ∧ es'.map Expr.erase = es.map Expr.erase := by
  cases es with
  | nil =>
    obtain rfl := carries_nil.mp hus
    exact ⟨[], .nil, rfl⟩
  | cons e es =>
    obtain ⟨he, hes⟩ := List.forall_mem_cons.mp h
    obtain ⟨vs, ws, rfl, hvs, hws⟩ := carries_append.mp hus
    obtain ⟨e', he', -, hee⟩ := he vs hvs
    obtain ⟨es', hes', hees⟩ := MoreArguments.of_readable hes hws
    exact ⟨e' :: es', .cons he' hes', by rw [List.map_cons, hee, hees]; rfl⟩

theorem ListItem.of_readable {i : Item} (h : i.expression.Readable) {us : List Token}
    (hus : Carries us i.contents) : ∃ i', ListItem us i' ∧ i'.erase = i.erase := by
  obtain ⟨p, e, isSpread, isPack⟩ := i
  rw [Item.contents] at hus
  obtain ⟨_, ss, rfl, hvs, hss⟩ := carries_append.mp hus
  obtain ⟨ps, vs, rfl, hps, hvs⟩ := carries_append.mp hvs
  obtain ⟨e', he', -, hee⟩ := h vs hvs
  refine ⟨_, .mk (.of_carries hps) he' (.of_carries hss), ?_⟩
  rw [Item.erase, Item.erase, hee]
  rfl

theorem MoreItems.of_readable {is : List Item} (h : ∀ e ∈ is.map Item.expression, e.Readable)
    {us : List Token}
    (hus : Carries us ((is.map Item.contents).flatMap fun cs => Symbol.comma.content :: cs)) :
    ∃ is', MoreItems us is' ∧ is'.map Item.erase = is.map Item.erase := by
  induction is generalizing us with
  | nil =>
    obtain rfl := carries_nil.mp hus
    exact ⟨[], .nil, rfl⟩
  | cons i is ih =>
    obtain ⟨hi, his⟩ := List.forall_mem_cons.mp h
    rw [List.map_cons, List.flatMap_cons, carries_append] at hus
    obtain ⟨_, ws, rfl, hvs, hws⟩ := hus
    obtain ⟨t, vs, rfl, ht, hvs⟩ := carries_cons.mp hvs
    obtain ⟨i', hi', hii⟩ := ListItem.of_readable hi hvs
    obtain ⟨is', his', hiis⟩ := ih his hws
    exact ⟨i' :: is', .cons (Token.kind_eq ht) hi' his', by rw [List.map_cons, hii, hiis]; rfl⟩

theorem Items.of_readable {is : List Item} (h : ∀ e ∈ is.map Item.expression, e.Readable)
    {us : List Token} (hus : Carries us (separated (is.map Item.contents))) :
    ∃ is', Items us is' ∧ is'.map Item.erase = is.map Item.erase := by
  cases is with
  | nil =>
    obtain rfl := carries_nil.mp hus
    exact ⟨[], .nil, rfl⟩
  | cons i is =>
    obtain ⟨hi, his⟩ := List.forall_mem_cons.mp h
    obtain ⟨vs, ws, rfl, hvs, hws⟩ := carries_append.mp hus
    obtain ⟨i', hi', hii⟩ := ListItem.of_readable hi hvs
    obtain ⟨is', his', hiis⟩ := MoreItems.of_readable his hws
    exact ⟨i' :: is', .cons hi' his', by rw [List.map_cons, hii, hiis]; rfl⟩

end Phrase

namespace Expr

namespace Readable

theorem leaf {e : Expr} {c : Content} (hc : e.contents = [c])
    (h : ∀ t : Token, t.content = c → ∃ a, Atom [t] a ∧ a.erase = e.erase) : e.Readable := by
  apply Readable.of_atom
  intro ts hts
  rw [hc] at hts
  obtain ⟨t, rfl, ht⟩ := carries_singleton.mp hts
  exact h t ht

theorem list {p : Place} {items : List Item}
    (h : ∀ e ∈ items.map Item.expression, e.Readable) : (list p items).Readable := by
  apply Readable.of_atom
  intro ts hts
  rw [contents, Item.contentsEach_eq_map] at hts
  obtain ⟨l, us, r, rfl, hl, hus, hr⟩ := hts.enclosed
  obtain ⟨is', his', hiis⟩ := Items.of_readable h hus
  refine ⟨_, .list (Token.kind_eq hl) his' (Token.kind_eq hr), ?_⟩
  rw [erase, erase, Item.eraseAll_eq_map, Item.eraseAll_eq_map, hiis]

theorem call {p : Place} {name : String} {es : List Expr} (h : ∀ e ∈ es, e.Readable) :
    (call p name es).Readable := by
  apply Readable.of_atom
  intro ts hts
  rw [contents, contentsEach_eq_map] at hts
  obtain ⟨t, ws, rfl, ht, hws⟩ := carries_cons.mp hts
  obtain ⟨l, us, r, rfl, hl, hus, hr⟩ := hws.enclosed
  obtain ⟨es', hes', hees⟩ := Arguments.of_readable h hus
  refine ⟨_, .call ht (Token.kind_eq hl) hes' (Token.kind_eq hr), ?_⟩
  rw [erase, erase, eraseAll_eq_map, eraseAll_eq_map, hees]

theorem index {p : Place} {name : String} {e : Expr} (h : e.Readable) :
    (index p name e).Readable := by
  apply Readable.of_atom
  intro ts hts
  obtain ⟨t, ws, rfl, ht, hws⟩ := carries_cons.mp hts
  obtain ⟨l, us, r, rfl, hl, hus, hr⟩ := hws.enclosed
  obtain ⟨e', he', -, hee⟩ := h us hus
  refine ⟨_, .index ht (Token.kind_eq hl) he' (Token.kind_eq hr), ?_⟩
  rw [erase, erase, hee]

theorem step {p q : Place} {name : String} {o : Operator} (ho : o = .plus ∨ o = .minus) :
    (step p name o (.int q 1)).Readable := by
  apply Readable.of_atom
  intro ts hts
  obtain ⟨t, us, rfl, ht, hus⟩ := carries_cons.mp hts
  obtain ⟨u, rfl, hu⟩ := carries_singleton.mp hus
  exact ⟨_, .step (Token.step?_of_content ht ho) hu, rfl⟩

/-- An operand that is no operation goes on the chain in front of it. -/
theorem operation {p : Place} {l r : Expr} {o : Operator} (hl : l.Readable) (hr : r.Readable)
    (hop : ¬ r.IsOperation) : (operation p l o r).Readable := by
  intro ts hts
  obtain ⟨us, ws, rfl, hus, hws⟩ := carries_append.mp hts
  obtain ⟨t, vs, rfl, ht, hvs⟩ := carries_cons.mp hws
  obtain ⟨l', hl', -, hel⟩ := hl us hus
  obtain ⟨r', -, hr', her⟩ := hr vs hvs
  cases hl' with
  | chain ha hc =>
    have hc' := hc.snoc (Token.binary?_of_content ht) (hr' hop)
    rw [List.append_assoc]
    refine ⟨_, .chain ha hc', fun hn => absurd ⟨p, l, o, r, rfl⟩ hn, ?_⟩
    rw [erase, erase, hel, her]

theorem comprehension {p : Place} {body source : Expr} {name : String} (hb : body.Readable)
    (hs : source.Readable) : (comprehension p body name source).Readable := by
  apply Readable.of_atom
  intro ts hts
  obtain ⟨_, _, rfl, hxs, hzs⟩ := carries_append.mp hts
  obtain ⟨_, _, rfl, hws, hys⟩ := carries_append.mp hxs
  obtain ⟨l, us, rfl, hl, hus⟩ := carries_cons.mp hws
  obtain ⟨f, ys, rfl, hf, hys⟩ := carries_cons.mp hys
  obtain ⟨t, xs, rfl, ht, hxs⟩ := carries_cons.mp hys
  obtain ⟨i, vs, rfl, hi, hvs⟩ := carries_cons.mp hxs
  obtain ⟨r, rfl, hr⟩ := carries_singleton.mp hzs
  obtain ⟨b', hb', -, heb⟩ := hb us hus
  obtain ⟨s', hs', -, hes⟩ := hs vs hvs
  refine ⟨_, .comprehension (Token.kind_eq hl) hb' (Token.kind_eq hf) ht (Token.kind_eq hi)
    hs' (Token.kind_eq hr), ?_⟩
  rw [erase, erase, heb, hes]

end Readable

/-- Tokens that say what is written for a well-formed expression are a phrase of it. -/
theorem WellFormed.readable {e : Expr} (h : e.WellFormed) : e.Readable := by
  induction h with
  | @node e h _ ih =>
    cases e with
    | blank p => exact absurd h id
    | int p n => exact .leaf rfl fun t ht => ⟨_, .int ht, rfl⟩
    | float p x => exact .leaf rfl fun t ht => ⟨_, .float ht, rfl⟩
    | string p s => exact .leaf rfl fun t ht => ⟨_, .string ht, rfl⟩
    | bool p b => exact .leaf rfl fun t ht => ⟨_, .bool ht, rfl⟩
    | char p s => exact .leaf rfl fun t ht => ⟨_, .char ht, rfl⟩
    | ident p name => exact .leaf rfl fun t ht => ⟨_, .ident ht, rfl⟩
    | list p items => exact .list ih
    | call p name es => exact .call ih
    | index p name e => exact .index (List.forall_mem_singleton.mp ih)
    | step p name o amount =>
      obtain ⟨-, ho, q, rfl⟩ := h
      exact .step ho
    | operation p l o r =>
      obtain ⟨hl, hr⟩ := List.forall_mem_cons.mp ih
      exact .operation hl (List.forall_mem_singleton.mp hr) h
    | comprehension p body name source =>
      obtain ⟨hb, hs⟩ := List.forall_mem_cons.mp ih
      exact .comprehension hb (List.forall_mem_singleton.mp hs)

end Expr

/-! ## Statements -/

/-- Tokens that say what is written for the statement are a phrase of it, below any number of
blocks. -/
def Stmt.Readable (s : Stmt) : Prop :=
  ∀ b us, Carries us s.contents →
    ∃ s', Statement (fun _ => Expression) (fun _ => True) b us s' ∧ s'.erase = s.erase

namespace Phrase

theorem MoreParameters.of_carries {names : List String} {us : List Token}
    (hus : Carries us ((names.map fun n => [Content.ident n]).flatMap fun cs =>
      Symbol.comma.content :: cs)) : MoreParameters us names := by
  induction names generalizing us with
  | nil =>
    obtain rfl := carries_nil.mp hus
    exact .nil
  | cons n names ih =>
    rw [List.map_cons, List.flatMap_cons, carries_append] at hus
    obtain ⟨_, ws, rfl, hvs, hws⟩ := hus
    obtain ⟨t, xs, rfl, ht, hxs⟩ := carries_cons.mp hvs
    obtain ⟨u, rfl, hu⟩ := carries_singleton.mp hxs
    exact .cons (Token.kind_eq ht) hu (ih hws)

theorem Parameters.of_carries {names : List String} {us : List Token}
    (hus : Carries us (separated (names.map fun n => [Content.ident n]))) :
    Parameters us names := by
  cases names with
  | nil =>
    obtain rfl := carries_nil.mp hus
    exact .nil
  | cons n names =>
    obtain ⟨vs, ws, rfl, hvs, hws⟩ := carries_append.mp hus
    obtain ⟨t, rfl, ht⟩ := carries_singleton.mp hvs
    exact .cons ht (.of_carries hws)

theorem Condition.of_readable {e : Expr} (h : e.Readable) {b : Nat} {us : List Token}
    (hus : Carries us (conditionContents e)) :
    ∃ e', Condition (fun _ => Expression) b us e' ∧ e'.erase = e.erase := by
  obtain ⟨l, vs, r, rfl, hl, hvs, hr⟩ := hus.enclosed
  obtain ⟨e', he', -, hee⟩ := h vs hvs
  exact ⟨e', .mk (Token.kind_eq hl) he' (Token.kind_eq hr), hee⟩

theorem Result.of_readable {result : Option Expr} (h : ∀ e ∈ result.toList, e.Readable)
    {b : Nat} {returns : Bool} (hr : returns = true ∨ result = Option.none) {us : List Token}
    (hus : Carries us (resultContents result)) :
    ∃ result', Result (fun _ => Expression) b returns us result' ∧
      result'.map Expr.erase = result.map Expr.erase := by
  cases result with
  | none =>
    obtain rfl := carries_nil.mp hus
    exact ⟨Option.none, .none, rfl⟩
  | some e =>
    obtain rfl : returns = true := hr.resolve_right (Option.some_ne_none e)
    obtain ⟨t, vs, r, rfl, ht, hvs, hr⟩ := hus.enclosed
    obtain ⟨e', he', -, hee⟩ := h e (List.mem_singleton_self e) vs hvs
    exact ⟨Option.some e', .some (Token.kind_eq ht) he' (Token.kind_eq hr),
      congrArg Option.some hee⟩

theorem Statements.of_readable {ss : List Stmt} (h : ∀ s ∈ ss, s.Readable) {b : Nat}
    {us : List Token} (hus : Carries us (Stmt.contentsAll ss)) :
    ∃ ss', Statements (fun _ => Expression) (fun _ => True) b us ss' ∧
      ss'.map Stmt.erase = ss.map Stmt.erase := by
  induction ss generalizing us with
  | nil =>
    obtain rfl := carries_nil.mp hus
    exact ⟨[], .nil, rfl⟩
  | cons s ss ih =>
    obtain ⟨hs, hss⟩ := List.forall_mem_cons.mp h
    obtain ⟨vs, ws, rfl, hvs, hws⟩ := carries_append.mp hus
    obtain ⟨s', hs', hes⟩ := hs b vs hvs
    obtain ⟨ss', hss', hess⟩ := ih hss hws
    exact ⟨s' :: ss', .cons hs' hss', by rw [List.map_cons, hes, hess]; rfl⟩

/-- A block with a result, where the block may have one. -/
theorem Block.of_readable_result {ss : List Stmt} {result : Option Expr}
    (hss : ∀ s ∈ ss, s.Readable) (hres : ∀ e ∈ result.toList, e.Readable) {b : Nat}
    {returns : Bool} (hr : returns = true ∨ result = none) {us : List Token}
    (hus : Carries us (blockContents (Stmt.contentsAll ss) (resultContents result))) :
    ∃ ss' result', Block (fun _ => Expression) (fun _ => True) b returns us ⟨ss', result'⟩ ∧
      ss'.map Stmt.erase = ss.map Stmt.erase ∧
      result'.map Expr.erase = result.map Expr.erase := by
  obtain ⟨_, _, rfl, hlvw, hrs⟩ := carries_append.mp hus
  obtain ⟨_, ws, rfl, hlv, hws⟩ := carries_append.mp hlvw
  obtain ⟨l, vs, rfl, hl, hvs⟩ := carries_cons.mp hlv
  obtain ⟨r, rfl, hrc⟩ := carries_singleton.mp hrs
  obtain ⟨ss', hss', hess⟩ := Statements.of_readable hss hvs
  obtain ⟨result', hres', heres⟩ := Result.of_readable hres hr hws
  exact ⟨ss', result', .mk trivial (Token.kind_eq hl) hss' hres' (Token.kind_eq hrc), hess,
    heres⟩

theorem Block.of_readable {ss : List Stmt} (h : ∀ s ∈ ss, s.Readable) {b : Nat}
    {us : List Token} (hus : Carries us (blockContents (Stmt.contentsAll ss) [])) :
    ∃ ss', Block (fun _ => Expression) (fun _ => True) b false us ⟨ss', none⟩ ∧
      ss'.map Stmt.erase = ss.map Stmt.erase := by
  obtain ⟨ss', result', hb, hess, heres⟩ := Block.of_readable_result h (by simp) (Or.inr rfl)
    (show Carries us (blockContents (Stmt.contentsAll ss) (resultContents none)) from hus)
  obtain rfl : result' = none := Option.map_eq_none_iff.mp heres
  exact ⟨ss', hb, hess⟩

theorem Clauses.of_readable {cs : List Clause}
    (h : ∀ c ∈ cs, c.condition.Readable ∧ ∀ s ∈ c.body, s.Readable) {b : Nat}
    {us : List Token} (hus : Carries us (Clause.contentsAll cs)) :
    ∃ cs', Clauses (fun _ => Expression) (fun _ => True) b us cs' ∧
      cs'.map Clause.erase = cs.map Clause.erase := by
  induction cs generalizing us with
  | nil =>
    obtain rfl := carries_nil.mp hus
    exact ⟨[], .nil, rfl⟩
  | cons c cs ih =>
    obtain ⟨⟨he, hss⟩, hcs⟩ := List.forall_mem_cons.mp h
    obtain ⟨e, ss⟩ := c
    obtain ⟨_, ws, rfl, htuv, hws⟩ := carries_append.mp hus
    rw [Clause.contents] at htuv
    obtain ⟨_, vs, rfl, htu, hvs⟩ := carries_append.mp htuv
    obtain ⟨t, us, rfl, ht, hus⟩ := carries_cons.mp htu
    obtain ⟨e', he', hee⟩ := Condition.of_readable he hus
    obtain ⟨ss', hss', hess⟩ := Block.of_readable hss hvs
    obtain ⟨cs', hcs', hecs⟩ := ih hcs hws
    refine ⟨.mk e' ss' :: cs', .cons (Token.kind_eq ht) he' hss' hcs', ?_⟩
    rw [List.map_cons, List.map_cons, hecs, Clause.erase, Clause.erase, Stmt.eraseAll_eq_map,
      Stmt.eraseAll_eq_map, hee, hess, Clause.condition, Clause.body]

theorem Otherwise.of_readable {last : Option (List Stmt)}
    (h : ∀ s ∈ last.getD [], s.Readable) {b : Nat} {us : List Token}
    (hus : Carries us (otherwiseContents last)) :
    ∃ last', Otherwise (fun _ => Expression) (fun _ => True) b us last' ∧
      last'.map (·.map Stmt.erase) = last.map (·.map Stmt.erase) := by
  cases last with
  | none =>
    obtain rfl := carries_nil.mp hus
    exact ⟨Option.none, .none, rfl⟩
  | some ss =>
    obtain ⟨t, vs, rfl, ht, hvs⟩ := carries_cons.mp hus
    obtain ⟨ss', hss', hess⟩ := Block.of_readable h hvs
    exact ⟨Option.some ss', .some (Token.kind_eq ht) hss', congrArg Option.some hess⟩

end Phrase

namespace Stmt

namespace Readable

theorem load {p : Place} {path : String} : (load p path).Readable := by
  intro b ts hts
  obtain ⟨t, us, rfl, ht, hus⟩ := carries_cons.mp hts
  obtain ⟨u, vs, rfl, hu, hvs⟩ := carries_cons.mp hus
  obtain ⟨r, rfl, hr⟩ := carries_singleton.mp hvs
  exact ⟨_, .load (Token.kind_eq ht) hu (Token.kind_eq hr), rfl⟩

theorem assignment {p : Place} {target value : Expr} (ht : target.Readable)
    (hv : value.Readable) : (assignment p target value).Readable := by
  intro b ts hts
  obtain ⟨_, _, rfl, huqv, hrs⟩ := carries_append.mp hts
  obtain ⟨us, _, rfl, hus, hqv⟩ := carries_append.mp huqv
  obtain ⟨q, vs, rfl, hq, hvs⟩ := carries_cons.mp hqv
  obtain ⟨r, rfl, hr⟩ := carries_singleton.mp hrs
  obtain ⟨l', hl', -, hel⟩ := ht us hus
  obtain ⟨v', hv', -, hev⟩ := hv vs hvs
  refine ⟨_, .assignment hl' (Token.kind_eq hq) hv' (Token.kind_eq hr), ?_⟩
  rw [erase, erase, hel, hev]

theorem update {p : Place} {name : String} {o : Operator} {amount : Expr}
    (ho : o ∈ [Operator.plus, .minus, .times, .divide]) (ha : amount.Readable) :
    (update p name o amount).Readable := by
  intro b ts hts
  obtain ⟨t, us, rfl, ht, hus⟩ := carries_cons.mp hts
  obtain ⟨u, vs, r, rfl, hu, hvs, hr⟩ := hus.enclosed
  obtain ⟨e', he', -, hee⟩ := ha vs hvs
  refine ⟨_, .update ht (Token.update?_of_content hu ho) o.isStep_updateSymbol he'
    (Token.kind_eq hr), ?_⟩
  rw [erase, erase, hee]

theorem conditional {p q : Place} {e : Expr} {ss : List Stmt} {cs : List Clause}
    {last : Option (List Stmt)} (he : e.Readable) (hss : ∀ s ∈ ss, s.Readable)
    (hcs : ∀ c ∈ cs, c.condition.Readable ∧ ∀ s ∈ c.body, s.Readable)
    (hlast : ∀ s ∈ last.getD [], s.Readable) :
    (conditional p (.mk q e ss cs last)).Readable := by
  intro b ts hts
  rw [contents, Branch.contents_mk] at hts
  obtain ⟨t, _, rfl, ht, huvwx⟩ := carries_cons.mp hts
  obtain ⟨_, xs, rfl, huvw, hxs⟩ := carries_append.mp huvwx
  obtain ⟨_, ws, rfl, huv, hws⟩ := carries_append.mp huvw
  obtain ⟨us, vs, rfl, hus, hvs⟩ := carries_append.mp huv
  obtain ⟨e', he', hee⟩ := Condition.of_readable he hus
  obtain ⟨ss', hss', hess⟩ := Block.of_readable hss hvs
  obtain ⟨cs', hcs', hecs⟩ := Clauses.of_readable hcs hws
  obtain ⟨last', hlast', helast⟩ := Otherwise.of_readable hlast hxs
  refine ⟨_, .conditional (Token.kind_eq ht) he' hss' hcs' hlast', ?_⟩
  rw [erase, erase, Branch.erase_mk, Branch.erase_mk, hee, hess, hecs, helast]

theorem whileLoop {p : Place} {e : Expr} {ss : List Stmt} (he : e.Readable)
    (hss : ∀ s ∈ ss, s.Readable) : (whileLoop p e ss).Readable := by
  intro b ts hts
  obtain ⟨_, vs, rfl, htu, hvs⟩ := carries_append.mp hts
  obtain ⟨t, us, rfl, ht, hus⟩ := carries_cons.mp htu
  obtain ⟨e', he', hee⟩ := Condition.of_readable he hus
  obtain ⟨ss', hss', hess⟩ := Block.of_readable hss hvs
  refine ⟨_, .whileLoop (Token.kind_eq ht) he' hss', ?_⟩
  rw [erase, erase, eraseAll_eq_map, eraseAll_eq_map, hee, hess]

theorem forLoop {p q : Place} {name : String} {e : Expr} {ss : List Stmt} (he : e.Readable)
    (hss : ∀ s ∈ ss, s.Readable) : (forLoop p (.mk q name e ss)).Readable := by
  intro b ts hts
  rw [contents, Loop.contents] at hts
  obtain ⟨t, _, rfl, ht, huiv⟩ := carries_cons.mp hts
  obtain ⟨_, vs, rfl, hui, hvs⟩ := carries_append.mp huiv
  obtain ⟨u, _, rfl, hu, hi⟩ := carries_cons.mp hui
  obtain ⟨i, us, rfl, hi, hus⟩ := carries_cons.mp hi
  obtain ⟨e', he', -, hee⟩ := he us hus
  obtain ⟨ss', hss', hess⟩ := Block.of_readable hss hvs
  refine ⟨_, .forLoop (Token.kind_eq ht) hu (Token.kind_eq hi) he' hss', ?_⟩
  rw [erase, erase, Loop.erase, Loop.erase, eraseAll_eq_map, eraseAll_eq_map, hee, hess]

theorem expression {p : Place} {e : Expr} (he : e.Readable) : (expression p e).Readable := by
  intro b ts hts
  obtain ⟨us, _, rfl, hus, hrs⟩ := carries_append.mp hts
  obtain ⟨r, rfl, hr⟩ := carries_singleton.mp hrs
  obtain ⟨e', he', -, hee⟩ := he us hus
  refine ⟨_, .expression he' (Token.kind_eq hr), ?_⟩
  rw [erase, erase, hee]

theorem function {p : Place} {name : String} {names : List String} {ss : List Stmt}
    {result : Option Expr} (hss : ∀ s ∈ ss, s.Readable)
    (hres : ∀ e ∈ result.toList, e.Readable) : (function p name names ss result).Readable := by
  intro b ts hts
  obtain ⟨_, _, rfl, htulp, hrv⟩ := carries_append.mp hts
  obtain ⟨t, _, rfl, ht, hulp⟩ := carries_cons.mp htulp
  obtain ⟨u, _, rfl, hu, hlp⟩ := carries_cons.mp hulp
  obtain ⟨l, us, rfl, hl, hus⟩ := carries_cons.mp hlp
  obtain ⟨r, vs, rfl, hr, hvs⟩ := carries_cons.mp hrv
  obtain ⟨ss', result', hb, hess, heres⟩ := Block.of_readable_result hss hres (Or.inl rfl) hvs
  refine ⟨_, .function (Token.kind_eq ht) hu (Token.kind_eq hl) (.of_carries hus)
    (Token.kind_eq hr) hb, ?_⟩
  rw [erase, erase, eraseAll_eq_map, eraseAll_eq_map, hess, heres]

end Readable

/-- Tokens that say what is written for a well-formed statement are a phrase of it. -/
theorem WellFormed.readable {s : Stmt} (h : s.WellFormed) : s.Readable := by
  induction h with
  | @node s h he _ ih =>
    have hexpr : ∀ e ∈ s.expressions, e.Readable := fun e hm => (he e hm).readable
    cases s with
    | blank p => exact absurd h id
    | load p path => exact .load
    | assignment p target value =>
      obtain ⟨ht, hv⟩ := List.forall_mem_cons.mp hexpr
      exact .assignment ht (List.forall_mem_singleton.mp hv)
    | update p name o amount => exact .update h.2 (List.forall_mem_singleton.mp hexpr)
    | conditional p branch =>
      obtain ⟨q, e, ss, cs, last⟩ := branch
      obtain ⟨hce, hcs⟩ := List.forall_mem_cons.mp hexpr
      obtain ⟨hss, hbodies, hlast⟩ := forall_inner_conditional.mp ih
      refine .conditional hce hss ?_ hlast
      intro c hc
      exact ⟨hcs _ (List.mem_map_of_mem hc), hbodies c hc⟩
    | whileLoop p e ss => exact .whileLoop (List.forall_mem_singleton.mp hexpr) ih
    | forLoop p loop =>
      obtain ⟨q, name, e, ss⟩ := loop
      exact .forLoop (List.forall_mem_singleton.mp hexpr) ih
    | expression p e => exact .expression (List.forall_mem_singleton.mp hexpr)
    | function p name names ss result => exact .function ih hexpr

end Stmt

/-- Tokens that say what is written for a well-formed program are a script of it. -/
theorem Program.WellFormed.exists_script {p : Program} (h : p.WellFormed) {us : List Token}
    (hus : Carries us p.contents) : ∃ q, Script us q ∧ q.erase = p.erase := by
  obtain ⟨ss, hss, hess⟩ := Statements.of_readable (fun s hs => (h s hs).readable) hus
  exact ⟨⟨⟨1, 1⟩, ss⟩, .mk hss, by rw [erase, erase, hess]⟩

end ScriptReader
