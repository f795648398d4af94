import Mathlib
import ScriptReader.Proofs.SameTrees

/-!
# Scripts written out

There are two ways to write less: a comma may stand behind the last item of a list, and a step
behind a name says that the variable is changed by one.  `writtenOut` undoes both, token by
token: it looks at one token in front and one behind.  The tokens of a script, written out, are
what is written for its tree.  So all that a tree does not tell of its script is where the tokens
stand, how the literals are spelled, and these two.

That a token is written out depends on its neighbours, which may belong to other phrases.  But no
phrase ends with a comma or a step, so `WritesOut` says what a phrase is written out as, whatever
is around it.

Main statements:

* `Phrase.Script.writesOut`: a script, written out, is what is written for its tree;
* `same_iff_writtenOut`: two scripts have the same tree if, written out, they say the same.
-/

namespace ScriptReader

/-! ## Writing out -/

/-- What stands for a token when it is written out.  A comma in front of a closing bracket is
left out, and a step between a name and a semicolon is an update by one. -/
def Content.writtenOut (before : Option Kind) (c : Content) (behind : Option Kind) :
    List Content :=
  if c.kind = .symbol .comma ∧ behind = some (.symbol .closeBracket) then []
  else if before = some .ident ∧ behind = some (.symbol .semicolon) then
    if c.kind = .symbol .increment then [Symbol.plusAssign.content, .int 1]
    else if c.kind = .symbol .decrement then [Symbol.minusAssign.content, .int 1]
    else [c]
  else [c]

/-- The tokens written out, behind a token of the kind `before`. -/
def writtenOutBehind (before : Option Kind) : List Content → List Content
  | [] => []
  | c :: cs =>
    c.writtenOut before (cs.head?.map Content.kind) ++ writtenOutBehind (some c.kind) cs

/-- The tokens of a script written out. -/
def writtenOut (cs : List Content) : List Content :=
  writtenOutBehind none cs

namespace Content

variable {before behind : Option Kind} {c : Content}

theorem writtenOut_of_not_mem
    (hc : c.kind ∉ [Kind.symbol .comma, .symbol .increment, .symbol .decrement]) :
    c.writtenOut before behind = [c] := by
  simp only [List.mem_cons, List.not_mem_nil, or_false, not_or] at hc
  obtain ⟨hcomma, hinc, hdec⟩ := hc
  simp only [writtenOut, hcomma, hinc, hdec, false_and, if_false, ite_self]

/-- Elsewhere than in front of a closing bracket and of a semicolon all stays. -/
theorem writtenOut_of_behind (hbracket : behind ≠ some (.symbol .closeBracket))
    (hsemicolon : behind ≠ some (.symbol .semicolon)) : c.writtenOut before behind = [c] := by
  rw [writtenOut, if_neg fun h => hbracket h.2, if_neg fun h => hsemicolon h.2]

theorem writtenOut_comma (hc : c.kind = .symbol .comma) :
    c.writtenOut before (some (.symbol .closeBracket)) = [] := by
  rw [writtenOut, if_pos ⟨hc, rfl⟩]

/-- A step between a name and a semicolon is an update by one. -/
theorem writtenOut_step {o : Operator}
    (h : c.kind = .symbol .increment ∧ o = .plus ∨ c.kind = .symbol .decrement ∧ o = .minus) :
    c.writtenOut (some .ident) (some (.symbol .semicolon)) = [o.updateSymbol.content, .int 1] := by
  rcases h with ⟨hc, rfl⟩ | ⟨hc, rfl⟩
  · simp only [writtenOut, hc]
    rfl
  · simp only [writtenOut, hc]
    rfl

end Content

namespace Token.Spelled

theorem content_of_symbol {t : Token} {s : Symbol} (h : t.Spelled) (hk : t.kind = .symbol s) :
    t.content = s.content := by
  obtain ⟨text, hc⟩ := exists_text hk
  obtain rfl : text = s.text := h.spellable hc
  exact hc

theorem content_of_keyword {t : Token} {k : Keyword} (h : t.Spelled) (hk : t.kind = .keyword k) :
    t.content = k.content := by
  unfold Token.kind at hk
  cases hc : t.content <;> rw [hc] at hk <;> cases hk
  next text =>
    obtain rfl : text = k.text := h.spellable hc
    rfl

end Token.Spelled

namespace Phrase

/-- The tokens are written out as `ds`, whatever is in front and behind. -/
def WritesOut (us : List Token) (ds : List Content) : Prop :=
  ∀ before rest, ∃ before',
    writtenOutBehind before (us.map Token.content ++ rest) = ds ++ writtenOutBehind before' rest

variable {us vs : List Token} {cs ds : List Content} {t u r : Token} {c : Content}

namespace WritesOut

theorem nil : WritesOut [] [] := by
  intro before rest
  exact ⟨before, rfl⟩

theorem append (hus : WritesOut us cs) (hvs : WritesOut vs ds) :
    WritesOut (us ++ vs) (cs ++ ds) := by
  intro before rest
  obtain ⟨before', h⟩ := hus before (vs.map Token.content ++ rest)
  obtain ⟨before'', h'⟩ := hvs before' rest
  refine ⟨before'', ?_⟩
  rw [List.map_append, List.append_assoc, h, h', List.append_assoc]

theorem cons (ht : WritesOut [t] [c]) (hus : WritesOut us ds) :
    WritesOut (t :: us) (c :: ds) :=
  ht.append hus

/-- What is written out with a look at the token behind only. -/
theorem cons_of_behind (h : ∀ before, t.content.writtenOut before (some u.kind) = cs)
    (hus : WritesOut (u :: us) ds) : WritesOut (t :: u :: us) (cs ++ ds) := by
  intro before rest
  obtain ⟨before', hrest⟩ := hus (some t.kind) rest
  refine ⟨before', ?_⟩
  show t.content.writtenOut before (some u.kind) ++
    writtenOutBehind (some t.kind) ((u :: us).map Token.content ++ rest) = _
  rw [h, hrest, List.append_assoc]

theorem single (h : t.content = c)
    (hc : c.kind ∉ [Kind.symbol .comma, .symbol .increment, .symbol .decrement]) :
    WritesOut [t] [c] := by
  intro before rest
  refine ⟨some c.kind, ?_⟩
  show writtenOutBehind before (t.content :: rest) = _
  rw [writtenOutBehind, h, Content.writtenOut_of_not_mem hc]

theorem symbol {s : Symbol} (ht : t.Spelled) (hk : t.kind = .symbol s)
    (hs : s ∉ [Symbol.comma, .increment, .decrement]) : WritesOut [t] [s.content] := by
  refine single (ht.content_of_symbol hk) ?_
  simpa [Symbol.content, Content.kind] using hs

theorem keyword {k : Keyword} (ht : t.Spelled) (hk : t.kind = .keyword k) :
    WritesOut [t] [k.content] :=
  single (ht.content_of_keyword hk) (by simp [Keyword.content, Content.kind])

/-- A comma in front of an expression stays, and in front of the dots beside one. -/
theorem comma (ht : t.Spelled) (hk : t.kind = .symbol .comma) (hus : WritesOut us ds)
    (hopens : ∃ u vs, us = u :: vs ∧ u.kind ∈ .symbol .dots :: Kind.atomStarts) :
    WritesOut (t :: us) (Symbol.comma.content :: ds) := by
  obtain ⟨u, vs, rfl, hu⟩ := hopens
  have hstay : ∀ before, t.content.writtenOut before (some u.kind) = [Symbol.comma.content] := by
    intro before
    rw [ht.content_of_symbol hk]
    apply Content.writtenOut_of_behind
    · intro he
      exact absurd hu (by rw [Option.some.inj he]; decide)
    · intro he
      exact absurd hu (by rw [Option.some.inj he]; decide)
  exact cons_of_behind hstay hus

/-- A comma in front of a closing bracket is left out. -/
theorem trailing (hk : t.kind = .symbol .comma) (hr : r.Spelled)
    (hrk : r.kind = .symbol .closeBracket) :
    WritesOut [t, r] [Symbol.closeBracket.content] := by
  have hgone : ∀ before, t.content.writtenOut before (some r.kind) = [] := by
    intro before
    rw [hrk]
    exact Content.writtenOut_comma hk
  exact cons_of_behind hgone (symbol hr hrk (by decide))

theorem step {o : Operator} {name : String} (ht : t.Spelled) (hs : t.step? = some o)
    (hu : u.content = .ident name) : WritesOut [t, u] [o.stepSymbol.content, .ident name] := by
  have hstay : ∀ before, t.content.writtenOut before (some u.kind) = [o.stepSymbol.content] := by
    intro before
    have hbehind : t.content.writtenOut before (some .ident) = [t.content] :=
      Content.writtenOut_of_behind (by decide) (by decide)
    rw [Token.kind_eq hu, Content.kind, hbehind]
    rcases Token.step?_eq_some.mp hs with ⟨hk, rfl⟩ | ⟨hk, rfl⟩
    · rw [ht.content_of_symbol hk]
      rfl
    · rw [ht.content_of_symbol hk]
      rfl
  exact cons_of_behind hstay (single hu (by simp [Content.kind]))

/-- A step behind a name and in front of a semicolon is an update by one. -/
theorem update {o : Operator} {name : String} (ht : t.content = .ident name)
    (hu : u.step? = some o) (hr : r.Spelled) (hrk : r.kind = .symbol .semicolon) :
    WritesOut [t, u, r]
      [.ident name, o.updateSymbol.content, .int 1, Symbol.semicolon.content] := by
  intro before rest
  obtain ⟨before', hrest⟩ := symbol hr hrk (by decide) (some u.kind) rest
  refine ⟨before', ?_⟩
  show t.content.writtenOut before (some u.kind) ++ (u.content.writtenOut (some t.kind)
    (some r.kind) ++ writtenOutBehind (some u.kind) ([r].map Token.content ++ rest)) = _
  rw [hrest, Token.kind_eq ht, hrk, ht, Content.kind,
    Content.writtenOut_of_not_mem (by simp [Content.kind]),
    Content.writtenOut_step (Token.step?_eq_some.mp hu)]
  rfl

end WritesOut

/-! ## Expressions -/

/-- An operator between operands is spelled as its symbol. -/
theorem writesOut_binary {o : Operator} (ht : t.Spelled) (ho : t.binary? = some o) :
    WritesOut [t] [o.symbol.content] := by
  obtain ⟨s, hk, hs⟩ := Token.binary?_eq_some_iff.mp ho
  obtain rfl : s = o.symbol := by cases s <;> cases hs <;> rfl
  exact .symbol ht hk (by cases o <;> decide)

theorem Dots.writesOut {b : Bool} (h : Dots us b) (hs : Spelled us) :
    WritesOut us (dotsContents b) := by
  cases h with
  | absent => exact .nil
  | present ht => exact .symbol (spelled_cons.mp hs).1 ht (by decide)

theorem ListItem.opens {i : Item} (h : ListItem us i) :
    ∃ u vs, us = u :: vs ∧ u.kind ∈ .symbol .dots :: Kind.atomStarts := by
  cases h with
  | mk hp he _ =>
    cases hp with
    | absent =>
      obtain ⟨u, vs, rfl, hk, -⟩ := he.opens
      exact ⟨u, _, rfl, List.mem_cons_of_mem _ hk⟩
    | present ht => exact ⟨_, _, rfl, by rw [ht]; exact List.mem_cons_self⟩

theorem writesOut_ident {name : String} (h : t.content = .ident name) :
    WritesOut [t] [.ident name] :=
  .single h (by simp [Content.kind])

mutual

/-- An atom is written out as what is written for its tree. -/
theorem Atom.writesOut {us : List Token} {a : Expr} (h : Atom us a) (hs : Spelled us) :
    WritesOut us a.contents := by
  match h with
  | .int h => exact .single h (by simp [Content.kind])
  | .float h => exact .single h (by simp [Content.kind])
  | .string h => exact .single h (by simp [Content.kind])
  | .char h => exact .single h (by simp [Content.kind])
  | .bool h => exact .single h (by simp [Content.kind])
  | .ident h => exact writesOut_ident h
  | .step ht hu => exact .step (spelled_cons.mp hs).1 ht hu
  | .call ht hl hes hr =>
    simp only [List.cons_append, spelled_cons, spelled_append] at hs
    obtain ⟨-, hls, hus, hrs, -⟩ := hs
    rw [Expr.contents, Expr.contentsEach_eq_map]
    exact (writesOut_ident ht).cons
      (((WritesOut.symbol hls hl (by decide)).cons (hes.writesOut hus)).append
        (.symbol hrs hr (by decide)))
  | .index ht hl he hr =>
    simp only [List.cons_append, spelled_cons, spelled_append] at hs
    obtain ⟨-, hls, hus, hrs, -⟩ := hs
    exact (writesOut_ident ht).cons
      (((WritesOut.symbol hls hl (by decide)).cons (he.writesOut hus)).append
        (.symbol hrs hr (by decide)))
  | .list hl his hr =>
    simp only [List.cons_append, spelled_cons, spelled_append] at hs
    obtain ⟨hls, hus, hrs, -⟩ := hs
    rw [Expr.contents, Item.contentsEach_eq_map]
    exact (WritesOut.symbol hls hl (by decide)).cons (his.writesOut hus hrs hr)
  | .comprehension hl hb hf ht hi hsource hr =>
    simp only [List.cons_append, spelled_cons, spelled_append] at hs
    obtain ⟨hls, ⟨hus, hfs, -, his, hvs⟩, hrs, -⟩ := hs
    have hfor := (WritesOut.keyword hfs hf).cons
      ((writesOut_ident ht).cons ((WritesOut.keyword his hi).cons (hsource.writesOut hvs)))
    exact (((WritesOut.symbol hls hl (by decide)).cons (hb.writesOut hus)).append hfor).append
      (.symbol hrs hr (by decide))

theorem Expression.writesOut {us : List Token} {e : Expr} (h : Expression us e)
    (hs : Spelled us) : WritesOut us e.contents := by
  match h with
  | .chain ha hc =>
    obtain ⟨hus, hvs⟩ := spelled_append.mp hs
    obtain ⟨ds, he, hds⟩ := hc.writesOut hvs
    rw [he]
    exact (ha.writesOut hus).append hds

theorem Chain.writesOut {us : List Token} {a e : Expr} (h : Chain us a e) (hs : Spelled us) :
    ∃ ds, e.contents = a.contents ++ ds ∧ WritesOut us ds := by
  match h with
  | .nil => exact ⟨[], (List.append_nil _).symm, .nil⟩
  | .cons ht hb hc =>
    simp only [List.cons_append, spelled_cons, spelled_append] at hs
    obtain ⟨hts, hus, hvs⟩ := hs
    obtain ⟨ds, he, hds⟩ := hc.writesOut hvs
    refine ⟨_, ?_, ((writesOut_binary hts ht).cons (hb.writesOut hus)).append hds⟩
    rw [he, Expr.contents, List.append_assoc]

theorem Arguments.writesOut {us : List Token} {es : List Expr} (h : Arguments us es)
    (hs : Spelled us) : WritesOut us (separated (es.map Expr.contents)) := by
  match h with
  | .nil => exact .nil
  | .cons he hes =>
    obtain ⟨hus, hvs⟩ := spelled_append.mp hs
    exact (he.writesOut hus).append (hes.writesOut hvs)

theorem MoreArguments.writesOut {us : List Token} {es : List Expr} (h : MoreArguments us es)
    (hs : Spelled us) :
    WritesOut us ((es.map Expr.contents).flatMap fun ds => Symbol.comma.content :: ds) := by
  match h with
  | .nil => exact .nil
  | .cons ht he hes =>
    simp only [List.cons_append, spelled_cons, spelled_append] at hs
    obtain ⟨hts, hus, hvs⟩ := hs
    obtain ⟨u, ws, hu, hk, -⟩ := he.opens
    exact (WritesOut.comma hts ht (he.writesOut hus) ⟨u, ws, hu, .tail _ hk⟩).append
      (hes.writesOut hvs)

theorem ListItem.writesOut {us : List Token} {i : Item} (h : ListItem us i) (hs : Spelled us) :
    WritesOut us i.contents := by
  match h with
  | .mk hp he hd =>
    simp only [spelled_append] at hs
    exact ((hp.writesOut hs.1.1).append (he.writesOut hs.1.2)).append (hd.writesOut hs.2)

theorem Items.writesOut {us : List Token} {is : List Item} (h : Items us is) (hs : Spelled us)
    {r : Token} (hrs : r.Spelled) (hr : r.kind = .symbol .closeBracket) :
    WritesOut (us ++ [r])
      (separated (is.map Item.contents) ++ [Symbol.closeBracket.content]) := by
  match h with
  | .nil => exact .symbol hrs hr (by decide)
  | .cons hi his =>
    obtain ⟨hus, hvs⟩ := spelled_append.mp hs
    rw [List.append_assoc, List.map_cons, separated, List.append_assoc]
    exact (hi.writesOut hus).append (his.writesOut hvs hrs hr)

theorem MoreItems.writesOut {us : List Token} {is : List Item} (h : MoreItems us is)
    (hs : Spelled us) {r : Token} (hrs : r.Spelled) (hr : r.kind = .symbol .closeBracket) :
    WritesOut (us ++ [r])
      ((is.map Item.contents).flatMap (fun ds => Symbol.comma.content :: ds) ++
        [Symbol.closeBracket.content]) := by
  match h with
  | .nil => exact .symbol hrs hr (by decide)
  | .comma ht => exact .trailing ht hrs hr
  | .cons ht hi his =>
    simp only [List.cons_append, spelled_cons, spelled_append] at hs
    obtain ⟨hts, hus, hvs⟩ := hs
    rw [List.append_assoc, List.map_cons, List.flatMap_cons, List.append_assoc]
    exact (WritesOut.comma hts ht (hi.writesOut hus) hi.opens).append (his.writesOut hvs hrs hr)

end

/-! ## Statements -/

theorem MoreParameters.writesOut {names : List String} (h : MoreParameters us names)
    (hs : Spelled us) :
    WritesOut us
      ((names.map fun n => [.ident n]).flatMap fun ds => Symbol.comma.content :: ds) := by
  induction h with
  | nil => exact .nil
  | cons ht hu _ ih =>
    simp only [spelled_cons] at hs
    obtain ⟨hts, -, hvs⟩ := hs
    have hopens := kind_mem_atomStarts hu (Or.inr rfl)
    exact (WritesOut.comma hts ht (writesOut_ident hu) ⟨_, [], rfl, .tail _ hopens⟩).append
      (ih hvs)

theorem Parameters.writesOut {names : List String} (h : Parameters us names) (hs : Spelled us) :
    WritesOut us (separated (names.map fun n => [.ident n])) := by
  cases h with
  | nil => exact .nil
  | cons ht hus => exact (writesOut_ident ht).append (hus.writesOut (spelled_cons.mp hs).2)

section

variable {B : Nat → Prop} {b : Nat}

theorem Condition.writesOut {e : Expr} (h : Condition (fun _ => Expression) b us e)
    (hs : Spelled us) : WritesOut us (conditionContents e) := by
  cases h with
  | mk hl he hr =>
    simp only [List.cons_append, spelled_cons, spelled_append] at hs
    obtain ⟨hls, hus, hrs, -⟩ := hs
    exact ((WritesOut.symbol hls hl (by decide)).cons (he.writesOut hus)).append
      (.symbol hrs hr (by decide))

theorem Result.writesOut {returns : Bool} {result : Option Expr}
    (h : Result (fun _ => Expression) b returns us result) (hs : Spelled us) :
    WritesOut us (resultContents result) := by
  cases h with
  | none => exact .nil
  | some ht he hr =>
    simp only [List.cons_append, spelled_cons, spelled_append] at hs
    obtain ⟨hts, hus, hrs, -⟩ := hs
    exact ((WritesOut.keyword hts ht).cons (he.writesOut hus)).append
      (.symbol hrs hr (by decide))

/-- An operator with an amount behind it is spelled as its symbol. -/
theorem writesOut_update {s : Symbol} {o : Operator} (ht : t.Spelled)
    (hu : t.update? = some (s, o)) (hs : s.isStep = false) :
    WritesOut [t] [o.updateSymbol.content] := by
  have hk := Token.kind_of_update? hu
  rw [Token.update?_eq hk] at hu
  obtain rfl : s = o.updateSymbol := by cases s <;> cases hu <;> first | rfl | cases hs
  exact .symbol ht hk (by cases o <;> decide)

mutual

theorem Statement.writesOut {b : Nat} {us : List Token} {s : Stmt}
    (h : Statement (fun _ => Expression) B b us s) (hs : Spelled us) :
    WritesOut us s.contents := by
  match h with
  | .load ht hu hr =>
    simp only [spelled_cons] at hs
    obtain ⟨hts, -, hrs, -⟩ := hs
    exact (WritesOut.keyword hts ht).cons
      ((WritesOut.single hu (by simp [Content.kind])).cons (.symbol hrs hr (by decide)))
  | .assignment ht hq hv hr =>
    simp only [List.append_assoc, List.cons_append, spelled_cons, spelled_append] at hs
    obtain ⟨hus, hqs, hvs, hrs, -⟩ := hs
    exact ((ht.writesOut hus).append
      ((WritesOut.symbol hqs hq (by decide)).cons (hv.writesOut hvs))).append
        (.symbol hrs hr (by decide))
  | .expression he hr =>
    simp only [spelled_append, spelled_cons] at hs
    exact (he.writesOut hs.1).append (.symbol hs.2.1 hr (by decide))
  | .update ht hu hstep he hr =>
    simp only [List.cons_append, spelled_cons, spelled_append] at hs
    obtain ⟨-, hqs, hus, hrs, -⟩ := hs
    exact (writesOut_ident ht).cons
      (((writesOut_update hqs hu hstep).cons (he.writesOut hus)).append
        (.symbol hrs hr (by decide)))
  | .step ht hu hr =>
    simp only [spelled_cons] at hs
    exact .update ht hu hs.2.2.1 hr
  | .conditional ht he hss hcs hl =>
    simp only [List.cons_append, spelled_cons, spelled_append] at hs
    obtain ⟨hts, ⟨⟨hus, hvs⟩, hws⟩, hxs⟩ := hs
    rw [Stmt.contents, Branch.contents_mk]
    exact (WritesOut.keyword hts ht).cons
      ((((he.writesOut hus).append (hss.writesOut hvs)).append (hcs.writesOut hws)).append
        (hl.writesOut hxs))
  | .whileLoop ht he hss =>
    simp only [List.cons_append, spelled_cons, spelled_append] at hs
    obtain ⟨hts, hus, hvs⟩ := hs
    exact ((WritesOut.keyword hts ht).cons (he.writesOut hus)).append (hss.writesOut hvs)
  | .forLoop ht hu hi he hss =>
    simp only [List.cons_append, spelled_cons, spelled_append] at hs
    obtain ⟨hts, -, his, hus, hvs⟩ := hs
    exact (WritesOut.keyword hts ht).cons ((writesOut_ident hu).cons
      (((WritesOut.keyword his hi).cons (he.writesOut hus)).append (hss.writesOut hvs)))
  | .function ht hu hl hn hr hx =>
    simp only [List.cons_append, spelled_cons, spelled_append] at hs
    obtain ⟨hts, -, hls, hus, hrs, hvs⟩ := hs
    exact (WritesOut.keyword hts ht).cons ((writesOut_ident hu).cons
      (((WritesOut.symbol hls hl (by decide)).cons (hn.writesOut hus)).append
        ((WritesOut.symbol hrs hr (by decide)).cons (hx.writesOut hvs))))

theorem Statements.writesOut {b : Nat} {us : List Token} {ss : List Stmt}
    (h : Statements (fun _ => Expression) B b us ss) (hs : Spelled us) :
    WritesOut us (Stmt.contentsAll ss) := by
  match h with
  | .nil => exact .nil
  | .cons h hss =>
    obtain ⟨hus, hvs⟩ := spelled_append.mp hs
    exact (h.writesOut hus).append (hss.writesOut hvs)

theorem Block.writesOut {b : Nat} {returns : Bool} {us : List Token} {x : Body}
    (h : Block (fun _ => Expression) B b returns us x) (hs : Spelled us) :
    WritesOut us (blockContents (Stmt.contentsAll x.statements) (resultContents x.result)) := by
  match h with
  | .mk _ hl hss hres hr =>
    simp only [List.cons_append, spelled_cons, spelled_append] at hs
    obtain ⟨hls, ⟨hus, hvs⟩, hrs, -⟩ := hs
    exact (((WritesOut.symbol hls hl (by decide)).cons (hss.writesOut hus)).append
      (hres.writesOut hvs)).append (.symbol hrs hr (by decide))

theorem Clauses.writesOut {b : Nat} {us : List Token} {cs : List Clause}
    (h : Clauses (fun _ => Expression) B b us cs) (hs : Spelled us) :
    WritesOut us (Clause.contentsAll cs) := by
  match h with
  | .nil => exact .nil
  | .cons ht he hss hcs =>
    simp only [List.cons_append, spelled_cons, spelled_append] at hs
    obtain ⟨hts, ⟨hus, hvs⟩, hws⟩ := hs
    exact (((WritesOut.keyword hts ht).cons (he.writesOut hus)).append (hss.writesOut hvs)).append
      (hcs.writesOut hws)

theorem Otherwise.writesOut {b : Nat} {us : List Token} {last : Option (List Stmt)}
    (h : Otherwise (fun _ => Expression) B b us last) (hs : Spelled us) :
    WritesOut us (otherwiseContents last) := by
  match h with
  | .none => exact .nil
  | .some ht hss =>
    obtain ⟨hts, hus⟩ := spelled_cons.mp hs
    exact (WritesOut.keyword hts ht).cons (hss.writesOut hus)

end

end

/-- A script, written out, is what is written for its tree. -/
theorem Script.writesOut {p : Program} (h : Script us p) (hs : Spelled us) :
    WritesOut us p.contents := by
  cases h with
  | mk h => exact h.writesOut hs

end Phrase

/-! ## Equal scripts -/

namespace Content

/-- Whether a content has a value of its own: names have, and literals. -/
def hasValue : Content → Bool
  | int _ => true
  | float _ => true
  | bool _ => true
  | string _ => true
  | char _ => true
  | ident _ => true
  | _ => false

/-- The kinds are equal, and for names and literals the values too. -/
def Agrees (c d : Content) : Prop :=
  c.kind = d.kind ∧ (c.hasValue = true → c.same d = true)

theorem Spellable.agrees_iff {c d : Content} (hc : c.Spellable) (hd : d.Spellable) :
    c.Agrees d ↔ c = d := by
  constructor
  · rintro ⟨hk, hv⟩
    cases c with
    | float x =>
      cases d with
      | float y => exact congrArg float ((Binary64.IsDecimal.same_iff hc hd).mp (hv rfl))
      | _ => cases hk
    | keyword k text =>
      cases d with
      | keyword l text' =>
        cases hk
        rw [show text = k.text from hc, show text' = k.text from hd]
      | _ => cases hk
    | symbol s text =>
      cases d with
      | symbol t text' =>
        cases hk
        rw [show text = s.text from hc, show text' = s.text from hd]
      | _ => cases hk
    | eof text => exact absurd hc id
    | other name text => exact absurd hc id
    | int | bool | string | char | ident => exact eq_of_beq (hv rfl)
  · rintro rfl
    refine ⟨rfl, fun _ => ?_⟩
    cases c with
    | float x => exact (Binary64.IsDecimal.same_iff hc hc).mpr rfl
    | _ => exact beq_self_eq_true _

end Content

/-- The tokens of a script that is parsed, written out: what is written for its tree, and the end
mark. -/
theorem writtenOut_of_parse {source : String} {limit : Int} {p : Program}
    (h : parse source limit = .ok p) :
    ∃ ts e, tokenize source = .ok (ts ++ [e]) ∧ e.isEnd = true ∧
      writtenOut ((ts ++ [e]).map Token.content) = p.contents ++ [e.content] := by
  obtain ⟨ts, e, htok, hts⟩ := script_of_parse h
  obtain ⟨ts', e', heq, he, hspelled⟩ := spelled_of_tokenize htok
  obtain ⟨rfl, hee⟩ := List.append_inj' heq rfl
  obtain rfl := (List.cons.inj hee).1
  obtain ⟨before, hout⟩ := hts.writesOut hspelled none [e.content]
  refine ⟨ts, e, htok, he, ?_⟩
  have hk : e.content.kind = .eof := by simpa [Token.isEnd, Token.kind] using he
  rw [writtenOut, List.map_append, List.map_singleton, hout, writtenOutBehind, writtenOutBehind,
    List.append_nil, Content.writtenOut_of_not_mem (by simp [hk])]

/-- Contents that can be spelled agree, with an end mark behind each, if they are equal. -/
theorem forall₂_agrees_append_iff {cs ds : List Content} {e f : Content} (hcs : Writable cs)
    (hds : Writable ds) (hef : e.Agrees f) :
    List.Forall₂ Content.Agrees (cs ++ [e]) (ds ++ [f]) ↔ cs = ds := by
  induction cs generalizing ds with
  | nil =>
    cases ds with
    | nil => simp [hef]
    | cons d ds =>
      refine iff_of_false (fun h => ?_) (List.cons_ne_nil d ds).symm
      have hlength := h.length_eq
      simp at hlength
  | cons c cs ih =>
    cases ds with
    | nil =>
      refine iff_of_false (fun h => ?_) (List.cons_ne_nil c cs)
      have hlength := h.length_eq
      simp at hlength
    | cons d ds =>
      obtain ⟨hc, hcs⟩ := writable_cons.mp hcs
      obtain ⟨hd, hds⟩ := writable_cons.mp hds
      rw [List.cons_append, List.cons_append, List.forall₂_cons, hc.agrees_iff hd, ih hcs hds,
        List.cons.injEq]

/-- Let two scripts be parsed, under any limits.  Their trees are the same, the places of the
nodes apart, if and only if their tokens agree when they are written out: kind by kind, and value
by value where they are names or literals. -/
theorem same_iff_writtenOut {a b : String} {c d : Int} {p q : Program}
    (hp : parse a c = .ok p) (hq : parse b d = .ok q) :
    ∃ ts us, tokenize a = .ok ts ∧ tokenize b = .ok us ∧
      (p.same q = true ↔
        List.Forall₂ Content.Agrees (writtenOut (ts.map Token.content))
          (writtenOut (us.map Token.content))) := by
  obtain ⟨ts, e, hts, he, houtp⟩ := writtenOut_of_parse hp
  obtain ⟨us, f, hus, hf, houtq⟩ := writtenOut_of_parse hq
  have hwp := wellFormed_of_parse hp
  have hwq := wellFormed_of_parse hq
  refine ⟨ts ++ [e], us ++ [f], hts, hus, ?_⟩
  have hef : e.content.Agrees f.content := by
    simp only [Token.isEnd, Token.kind, beq_iff_eq] at he hf
    refine ⟨he.trans hf.symm, ?_⟩
    cases hc : e.content <;> rw [hc] at he <;> cases he
    intro hvalue
    cases hvalue
  rw [houtp, houtq, forall₂_agrees_append_iff hwp.writable hwq.writable hef, hwp.same_iff hwq,
    hwp.contents_eq_iff hwq]

/-- A step and a comma behind the last item are not seen in the tree, nor are lines and
comments. -/
theorem same_iff_writtenOut_sugar :
    let p : Program := ⟨⟨1, 1⟩, [.update ⟨1, 1⟩ "x" .plus (.int ⟨1, 2⟩ 1),
      .expression ⟨1, 5⟩ (.list ⟨1, 5⟩ [.mk ⟨1, 6⟩ (.int ⟨1, 6⟩ 1) false false])]⟩
    let q : Program := ⟨⟨1, 1⟩, [.update ⟨1, 1⟩ "x" .plus (.int ⟨1, 6⟩ 1),
      .expression ⟨2, 1⟩ (.list ⟨2, 1⟩ [.mk ⟨2, 2⟩ (.int ⟨2, 2⟩ 1) false false])]⟩
    parse "x++;[1,];" 2 = .ok p ∧ parse "x += 1; // y\n[01];" 3 = .ok q ∧ p.same q = true ∧
      ∃ ts us, tokenize "x++;[1,];" = .ok ts ∧ tokenize "x += 1; // y\n[01];" = .ok us ∧
        List.Forall₂ Content.Agrees (writtenOut (ts.map Token.content))
          (writtenOut (us.map Token.content)) := by
  intro p q
  have hp : parse "x++;[1,];" 2 = .ok p := by cbv
  have hq : parse "x += 1; // y\n[01];" 3 = .ok q := by cbv
  have hsame : p.same q = true := rfl
  obtain ⟨ts, us, hts, hus, hiff⟩ := same_iff_writtenOut hp hq
  exact ⟨hp, hq, hsame, ts, us, hts, hus, hiff.mp hsame⟩

end ScriptReader
