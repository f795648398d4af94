import ScriptReader.Proofs.ExpressionPhrases

/-!
# Statements are read as their phrases

The rules for statements are given the rules for the expressions and the blocks inside.  Let
the first read the expressions with a property, and the second the blocks; then each rule
reads its phrases, and `reads_body` puts the rules together by induction on the number of
levels.  Below `b` blocks, with `d - b` levels left, the expressions that are read are those
that take at most `d - b` levels, and there is room for another block if `b < d`.

What follows a statement must not carry it on: `elif` and `else` do.  The rest of a script
never begins with one of them, since each statement begins with a token of its own kinds.

Main statements:

* `reads_body`: the rule for bodies reads the blocks that fit in the levels left;
* `program_ok`: so does the rule for programs.
-/

namespace ScriptReader

namespace Phrase

/-- The expressions that have a property below some number of blocks. -/
def Having (Q : Nat → Expr → Prop) (b : Nat) (us : List Token) (e : Expr) : Prop :=
  Expression us e ∧ Q b e

theorem Having.isOpen {Q : Nat → Expr → Prop} (b : Nat) (us : List Token) (e : Expr)
    (h : Having Q b us e) : Open us :=
  h.1.isOpen

/-- The grammar allows all expressions and all blocks. -/
theorem allows_all {Q : Nat → Expr → Prop} {B : Nat → Prop} (d : Nat) :
    Allows d (Having Q) (fun _ => Expression) B (fun _ => True) where
  expression he _ := he.1
  block _ _ := trivial

/-- The tokens ahead do not carry on a statement. -/
def Settled (ts : List Token) : Prop :=
  (firstToken ts).kind ≠ .keyword .elifWord ∧ (firstToken ts).kind ≠ .keyword .elseWord

/-- The tokens ahead do not carry on the statement `s`: only a choice without an `else` is. -/
def SettledBehind (s : Stmt) (ts : List Token) : Prop :=
  match s with
  | .conditional _ (.mk _ _ _ _ none) => Settled ts
  | _ => True

theorem Settled.behind {ts : List Token} (h : Settled ts) (s : Stmt) : SettledBehind s ts := by
  unfold SettledBehind
  split
  · exact h
  · trivial

theorem kind_statementStarts_of_atomStarts {k : Kind} (h : k ∈ Kind.atomStarts) :
    k ∈ Kind.statementStarts :=
  List.mem_append_left _ h

/-- A statement begins with a token of its own kinds. -/
theorem Statement.opens {Q : Nat → Expr → Prop} {B : Nat → Prop} {b : Nat} {us : List Token}
    {s : Stmt} (h : Statement (Having Q) B b us s) :
    ∃ t vs, us = t :: vs ∧ t.kind ∈ Kind.statementStarts := by
  cases h with
  | load ht _ _ => exact ⟨_, _, rfl, by rw [ht]; decide⟩
  | assignment ht _ _ _ =>
    obtain ⟨t, vs, rfl, hk, -⟩ := ht.1.opens
    exact ⟨t, _, rfl, kind_statementStarts_of_atomStarts hk⟩
  | expression he _ =>
    obtain ⟨t, vs, rfl, hk, -⟩ := he.1.opens
    exact ⟨t, _, rfl, kind_statementStarts_of_atomStarts hk⟩
  | update ht _ _ _ _ =>
    exact ⟨_, _, rfl, kind_statementStarts_of_atomStarts (kind_mem_atomStarts ht (Or.inr rfl))⟩
  | step ht _ _ =>
    exact ⟨_, _, rfl, kind_statementStarts_of_atomStarts (kind_mem_atomStarts ht (Or.inr rfl))⟩
  | conditional ht _ _ _ _ => exact ⟨_, _, rfl, by rw [ht]; decide⟩
  | whileLoop ht _ _ => exact ⟨_, _, rfl, by rw [ht]; decide⟩
  | forLoop ht _ _ _ _ => exact ⟨_, _, rfl, by rw [ht]; decide⟩
  | function ht _ _ _ _ _ => exact ⟨_, _, rfl, by rw [ht]; decide⟩

end Phrase

namespace Grammar

open Rule Phrase

/-- A rule reads the blocks below `b` others, where the expressions below `b` blocks have the
property `Q b` and `B b` says whether a block may stand there. -/
def ReadsBody (rule : Bool → Rule Body) (Q : Nat → Expr → Prop) (B : Nat → Prop) (b : Nat) :
    Prop :=
  ∀ {returns : Bool} {ts rest : List Token} {body : Body},
    rule returns ts = .ok body rest ↔
      ∃ us, ts = us ++ rest ∧ Block (Having Q) B b returns us body

variable {expr : (alternatives : List Kind) → Rule Expr} {body : (returns : Bool) → Rule Body}
variable {Q : Nat → Expr → Prop} {B : Nat → Prop} {b : Nat}

/-! ## Statements without blocks -/

theorem endExpr_ok {others : List Kind} {u : Unit} {ts rest : List Token} :
    endExpr others ts = .ok u rest ↔ ∃ r, ts = r :: rest ∧ r.kind = .symbol .semicolon := by
  unfold endExpr
  rw [bind_ok]
  constructor
  · rintro ⟨r, mid, h, k⟩
    obtain ⟨rfl, hr⟩ := (token_one_ok (by decide)).mp h
    obtain ⟨-, rfl⟩ := pure_ok.mp k
    exact ⟨r, rfl, hr⟩
  · rintro ⟨r, rfl, hr⟩
    exact ⟨r, rest, (token_one_ok (by decide)).mpr ⟨rfl, hr⟩, rfl⟩

theorem load_ok {ts rest : List Token} {s : Stmt} :
    load ts = .ok s rest ↔
      ∃ t u r path, ts = t :: u :: r :: rest ∧ t.kind = .keyword .importWord ∧
        u.content = .string path ∧ r.kind = .symbol .semicolon ∧ s = .load t.place path := by
  unfold load
  constructor
  · intro h
    obtain ⟨t, _, h₁, k₁⟩ := bind_ok.mp h
    obtain ⟨path, _, h₂, k₂⟩ := bind_ok.mp k₁
    obtain ⟨r, h₃, rfl⟩ := map_ok.mp k₂
    obtain ⟨rfl, ht⟩ := (token_one_ok (by decide)).mp h₁
    obtain ⟨u, rfl, hu⟩ := (accept_ok rfl).mp h₂
    obtain ⟨rfl, hr⟩ := (token_one_ok (by decide)).mp h₃
    refine ⟨t, u, r, path, rfl, ht, ?_, hr, rfl⟩
    split at hu
    · next hc =>
      cases hu
      exact hc
    · cases hu
  · rintro ⟨t, u, r, path, rfl, ht, hu, hr, rfl⟩
    refine bind_ok.mpr ⟨t, _, (token_one_ok (by decide)).mpr ⟨rfl, ht⟩, ?_⟩
    refine bind_ok.mpr ⟨path, _, (accept_ok rfl).mpr ⟨u, rfl, by rw [hu]⟩, ?_⟩
    exact map_ok.mpr ⟨r, (token_one_ok (by decide)).mpr ⟨rfl, hr⟩, rfl⟩

/-- What is read where an expression stands is the expression, as a statement or as the target
of an assignment. -/
theorem assignmentOrExpression_sound (hexpr : Reads expr (Q b)) {ts rest : List Token} {s : Stmt}
    (h : assignmentOrExpression expr ts = .ok s rest) :
    ∃ us, ts = us ++ rest ∧ Statement (Having Q) B b us s ∧ SettledBehind s rest := by
  obtain ⟨t, _, h₁, k₁⟩ := bind_ok.mp h
  obtain ⟨rfl, rfl⟩ := here_ok.mp h₁
  obtain ⟨e, _, h₂, k₂⟩ := bind_ok.mp k₁
  obtain ⟨us, rfl, hus, hq⟩ := hexpr.sound h₂
  rw [place_firstToken hus] at k₂
  obtain ⟨isAssigned, _, h₃, k₃⟩ := bind_ok.mp k₂
  rcases (skipIf_ok (by decide)).mp h₃ with ⟨rfl, q, rfl, hk⟩ | ⟨rfl, rfl, -⟩
  · obtain ⟨value, _, h₄, k₄⟩ := bind_ok.mp k₃
    obtain ⟨_, h₅, rfl⟩ := map_ok.mp k₄
    obtain ⟨vs, rfl, hvs, hqv⟩ := hexpr.sound h₄
    obtain ⟨r, rfl, hr⟩ := endExpr_ok.mp h₅
    exact ⟨us ++ q :: vs ++ [r], by simp, .assignment ⟨hus, hq⟩ hk ⟨hvs, hqv⟩ hr, trivial⟩
  · obtain ⟨_, h₄, rfl⟩ := map_ok.mp k₃
    obtain ⟨r, rfl, hr⟩ := endExpr_ok.mp h₄
    exact ⟨us ++ [r], by simp, .expression ⟨hus, hq⟩ hr, trivial⟩

theorem assignment_complete (hexpr : Reads expr (Q b)) (rest : List Token) {us vs : List Token}
    {q r : Token} {target value : Expr} (ht : Having Q b us target) (hq : q.kind = .symbol .assign)
    (hv : Having Q b vs value) (hr : r.kind = .symbol .semicolon) :
    assignmentOrExpression expr (us ++ q :: (vs ++ r :: rest)) =
      .ok (.assignment target.place target value) rest := by
  refine bind_ok.mpr ⟨_, _, here_ok.mpr ⟨rfl, rfl⟩, ?_⟩
  rw [place_firstToken ht.1]
  have hus := hexpr.complete [] (q :: (vs ++ r :: rest)) ht.1 ht.2
    (stops_of_kind hq (by decide))
  have hvs := hexpr.complete [] (r :: rest) hv.1 hv.2 (stops_of_kind hr (by decide))
  refine bind_ok.mpr ⟨target, _, hus, ?_⟩
  refine bind_ok.mpr ⟨true, _, (skipIf_ok (by decide)).mpr (Or.inl ⟨rfl, q, rfl, hq⟩), ?_⟩
  refine bind_ok.mpr ⟨value, _, hvs, ?_⟩
  exact map_ok.mpr ⟨(), endExpr_ok.mpr ⟨r, rfl, hr⟩, rfl⟩

theorem expression_complete (hexpr : Reads expr (Q b)) (rest : List Token) {us : List Token}
    {r : Token} {e : Expr} (he : Having Q b us e) (hr : r.kind = .symbol .semicolon) :
    assignmentOrExpression expr (us ++ r :: rest) = .ok (.expression e.place e) rest := by
  refine bind_ok.mpr ⟨_, _, here_ok.mpr ⟨rfl, rfl⟩, ?_⟩
  rw [place_firstToken he.1]
  have hus := hexpr.complete [] (r :: rest) he.1 he.2 (stops_of_kind hr (by decide))
  refine bind_ok.mpr ⟨e, _, hus, ?_⟩
  refine bind_ok.mpr ⟨false, _, (skipIf_ok (by decide)).mpr (Or.inr ⟨rfl, rfl, ?_⟩), ?_⟩
  · simp [firstToken, hr]
  · exact map_ok.mpr ⟨(), endExpr_ok.mpr ⟨r, rfl, hr⟩, rfl⟩

/-- A change of a variable is a name, an operator, and an amount unless the operator is a
step. -/
theorem update_sound (hexpr : Reads expr (Q b)) {ts rest : List Token} {s : Stmt}
    (h : update expr ts = .ok s rest) :
    ∃ us, ts = us ++ rest ∧ Statement (Having Q) B b us s ∧ SettledBehind s rest := by
  obtain ⟨⟨t, name⟩, _, h₁, k₁⟩ := bind_ok.mp h
  obtain ⟨rfl, ht⟩ := ident_ok.mp h₁
  obtain ⟨⟨u, sym, o⟩, _, h₂, k₂⟩ := bind_ok.mp k₁
  obtain ⟨u', rfl, hu'⟩ := (accept_ok rfl).mp h₂
  obtain ⟨⟨sym', o'⟩, hu, he⟩ := Option.map_eq_some_iff.mp hu'
  cases he
  dsimp only at k₂
  split at k₂
  · next hstep =>
    obtain ⟨r, h₃, rfl⟩ := map_ok.mp k₂
    obtain ⟨rfl, hr⟩ := (token_one_ok (by decide)).mp h₃
    have hs := Token.step?_eq_some_iff_update?.mpr ⟨sym, hu, hstep⟩
    exact ⟨[t, u, r], rfl, .step ht hs hr, trivial⟩
  · next hstep =>
    obtain ⟨e, _, h₃, k₃⟩ := bind_ok.mp k₂
    obtain ⟨_, h₄, rfl⟩ := map_ok.mp k₃
    obtain ⟨us, rfl, hus, hq⟩ := hexpr.sound h₃
    obtain ⟨r, rfl, hr⟩ := endExpr_ok.mp h₄
    have hs : sym.isStep = false := by simpa using hstep
    exact ⟨t :: u :: us ++ [r], by simp, .update ht hu hs ⟨hus, hq⟩ hr, trivial⟩

theorem update_complete (hexpr : Reads expr (Q b)) (rest : List Token) {t u r : Token}
    {us : List Token} {name : String} {s : Symbol} {o : Operator} {e : Expr}
    (ht : t.content = .ident name) (hu : u.update? = some (s, o)) (hs : s.isStep = false)
    (he : Having Q b us e) (hr : r.kind = .symbol .semicolon) :
    update expr (t :: u :: (us ++ r :: rest)) = .ok (.update t.place name o e) rest := by
  refine bind_ok.mpr ⟨(t, name), _, ident_ok.mpr ⟨rfl, ht⟩, ?_⟩
  refine bind_ok.mpr ⟨(u, s, o), _, (accept_ok rfl).mpr ⟨u, rfl, by rw [hu]; rfl⟩, ?_⟩
  have hus := hexpr.complete [] (r :: rest) he.1 he.2 (stops_of_kind hr (by decide))
  simp only [hs]
  exact bind_ok.mpr ⟨e, _, hus, map_ok.mpr ⟨(), endExpr_ok.mpr ⟨r, rfl, hr⟩, rfl⟩⟩

theorem update_complete_step {t u r : Token} {rest : List Token} {name : String} {o : Operator}
    (ht : t.content = .ident name) (hu : u.step? = some o) (hr : r.kind = .symbol .semicolon) :
    update expr (t :: u :: r :: rest) =
      .ok (.update t.place name o (.int u.place 1)) rest := by
  obtain ⟨s, hu', hs⟩ := Token.step?_eq_some_iff_update?.mp hu
  refine bind_ok.mpr ⟨(t, name), _, ident_ok.mpr ⟨rfl, ht⟩, ?_⟩
  refine bind_ok.mpr ⟨(u, s, o), _, (accept_ok rfl).mpr ⟨u, rfl, by rw [hu']; rfl⟩, ?_⟩
  simp only [hs]
  exact map_ok.mpr ⟨r, (token_one_ok (by decide)).mpr ⟨rfl, hr⟩, rfl⟩

/-! ## Conditions and blocks -/

theorem condition_ok (hexpr : Reads expr (Q b)) {ts rest : List Token} {e : Expr} :
    condition expr ts = .ok e rest ↔ ∃ us, ts = us ++ rest ∧ Condition (Having Q) b us e := by
  unfold condition
  constructor
  · intro h
    obtain ⟨l, _, h₁, k₁⟩ := bind_ok.mp h
    obtain ⟨e', _, h₂, k₂⟩ := bind_ok.mp k₁
    obtain ⟨r, h₃, rfl⟩ := map_ok.mp k₂
    obtain ⟨rfl, hl⟩ := (token_one_ok (by decide)).mp h₁
    obtain ⟨us, rfl, hus, hq⟩ := hexpr.sound h₂
    obtain ⟨rfl, hr⟩ := (token_one_ok (by decide)).mp h₃
    exact ⟨l :: us ++ [r], by simp, .mk hl ⟨hus, hq⟩ hr⟩
  · rintro ⟨_, rfl, h⟩
    cases h with
    | @mk l r us e hl he hr =>
      rw [List.append_assoc]
      refine bind_ok.mpr ⟨l, _, (token_one_ok (by decide)).mpr ⟨rfl, hl⟩, ?_⟩
      have hus := hexpr.complete [] (r :: rest) he.1 he.2 (stops_of_kind hr (by decide))
      refine bind_ok.mpr ⟨e, r :: rest, hus, ?_⟩
      exact map_ok.mpr ⟨r, (token_one_ok (by decide)).mpr ⟨rfl, hr⟩, rfl⟩

theorem block_ok (hbody : ReadsBody body Q B b) {ts rest : List Token} {ss : List Stmt} :
    block body ts = .ok ss rest ↔
      ∃ us, ts = us ++ rest ∧ Block (Having Q) B b false us ⟨ss, none⟩ := by
  unfold block
  rw [map_ok]
  constructor
  · rintro ⟨⟨ss', result⟩, h, rfl⟩
    obtain ⟨us, rfl, hus⟩ := hbody.mp h
    have hr : result = none := by
      cases hus with
      | mk _ _ _ hres _ =>
        cases hres
        rfl
    subst hr
    exact ⟨us, rfl, hus⟩
  · rintro ⟨us, rfl, hus⟩
    exact ⟨⟨ss, none⟩, hbody.mpr ⟨us, rfl, hus⟩, rfl⟩

/-! ## Choices -/

theorem nextClause_ok (hexpr : Reads expr (Q b)) (hbody : ReadsBody body Q B b)
    {ts rest : List Token} {o : Option Clause} :
    nextClause expr body ts = .ok o rest ↔
      (o = none ∧ ts = rest ∧ (firstToken ts).kind ≠ .keyword .elifWord) ∨
        ∃ t us vs e ss, ts = t :: us ++ vs ++ rest ∧ t.kind = .keyword .elifWord ∧
          Condition (Having Q) b us e ∧ Block (Having Q) B b false vs ⟨ss, none⟩ ∧
          o = some (.mk e ss) := by
  unfold nextClause
  rw [bind_ok]
  constructor
  · rintro ⟨isClause, _, h₁, k₁⟩
    rcases (skipIf_ok (by decide)).mp h₁ with ⟨rfl, t, rfl, ht⟩ | ⟨rfl, rfl, ht⟩
    · obtain ⟨e, _, h₂, k₂⟩ := bind_ok.mp k₁
      obtain ⟨ss, h₃, rfl⟩ := map_ok.mp k₂
      obtain ⟨us, rfl, hus⟩ := (condition_ok hexpr).mp h₂
      obtain ⟨vs, rfl, hvs⟩ := (block_ok hbody).mp h₃
      exact Or.inr ⟨t, us, vs, e, ss, by simp, ht, hus, hvs, rfl⟩
    · obtain ⟨rfl, rfl⟩ := pure_ok.mp k₁
      exact Or.inl ⟨rfl, rfl, ht⟩
  · rintro (⟨rfl, rfl, ht⟩ | ⟨t, us, vs, e, ss, rfl, ht, hus, hvs, rfl⟩)
    · exact ⟨false, ts, (skipIf_ok (by decide)).mpr (Or.inr ⟨rfl, rfl, ht⟩), rfl⟩
    · refine ⟨true, us ++ (vs ++ rest), ?_, ?_⟩
      · exact (skipIf_ok (by decide)).mpr (Or.inl ⟨rfl, t, by simp, ht⟩)
      · refine bind_ok.mpr ⟨e, vs ++ rest, (condition_ok hexpr).mpr ⟨us, rfl, hus⟩, ?_⟩
        exact map_ok.mpr ⟨ss, (block_ok hbody).mpr ⟨vs, rfl, hvs⟩, rfl⟩

theorem nextClause_takes (hexpr : Reads expr (Q b)) (hbody : ReadsBody body Q B b)
    (ts : List Token) (c : Clause) (rest : List Token)
    (h : nextClause expr body ts = .ok (some c) rest) : rest.length < ts.length := by
  rcases (nextClause_ok hexpr hbody).mp h with ⟨ho, _⟩ | ⟨t, us, vs, _, _, rfl, _⟩
  · cases ho
  · simp only [List.length_append, List.length_cons]
    omega

theorem clauses_sound (hexpr : Reads expr (Q b)) (hbody : ReadsBody body Q B b)
    {ts rest : List Token} {cs : List Clause} (h : Collects (nextClause expr body) ts cs rest) :
    ∃ us, ts = us ++ rest ∧ Clauses (Having Q) B b us cs ∧
      (firstToken rest).kind ≠ .keyword .elifWord := by
  induction h with
  | done h =>
    rcases (nextClause_ok hexpr hbody).mp h with ⟨-, rfl, ht⟩ | ⟨_, _, _, _, _, _, _, _, _, ho⟩
    · exact ⟨[], rfl, .nil, ht⟩
    · cases ho
  | more h _ ih =>
    rcases (nextClause_ok hexpr hbody).mp h with ⟨ho, -⟩ | ⟨t, us, vs, e, ss, rfl, ht, hus, hvs, ho⟩
    · cases ho
    · cases ho
      obtain ⟨ws, rfl, hws, hr⟩ := ih
      exact ⟨t :: us ++ vs ++ ws, by simp, .cons ht hus hvs hws, hr⟩

theorem clauses_complete (hexpr : Reads expr (Q b)) (hbody : ReadsBody body Q B b)
    {rest : List Token} (hr : (firstToken rest).kind ≠ .keyword .elifWord) :
    ∀ {us : List Token} {cs : List Clause}, Clauses (Having Q) B b us cs →
      Collects (nextClause expr body) (us ++ rest) cs rest := by
  intro us cs
  induction cs generalizing us with
  | nil =>
    intro h
    cases h
    exact .done ((nextClause_ok hexpr hbody).mpr (Or.inl ⟨rfl, rfl, hr⟩))
  | cons c cs ih =>
    intro h
    cases h with
    | @cons _ t us vs ws e ss _ ht he hss hcs =>
      refine .more ((nextClause_ok hexpr hbody).mpr (Or.inr ?_)) (ih hcs)
      exact ⟨t, us, vs, e, ss, by simp, ht, he, hss, rfl⟩

theorem otherwise_sound (hbody : ReadsBody body Q B b) {ts rest : List Token}
    {last : Option (List Stmt)} (h : otherwise body ts = .ok last rest) :
    ∃ us, ts = us ++ rest ∧ Otherwise (Having Q) B b us last ∧
      (last = none → (firstToken ts).kind ≠ .keyword .elseWord) := by
  obtain ⟨isLast, _, h₁, k₁⟩ := bind_ok.mp h
  rcases (skipIf_ok (by decide)).mp h₁ with ⟨rfl, t, rfl, ht⟩ | ⟨rfl, rfl, ht⟩
  · obtain ⟨ss, h₂, rfl⟩ := map_ok.mp k₁
    obtain ⟨us, rfl, hus⟩ := (block_ok hbody).mp h₂
    exact ⟨t :: us, rfl, .some ht hus, nofun⟩
  · obtain ⟨rfl, rfl⟩ := pure_ok.mp k₁
    exact ⟨[], rfl, .none, fun _ => ht⟩

theorem otherwise_complete (hbody : ReadsBody body Q B b) {us rest : List Token}
    {last : Option (List Stmt)} (h : Otherwise (Having Q) B b us last)
    (hr : last = none → (firstToken rest).kind ≠ .keyword .elseWord) :
    otherwise body (us ++ rest) = .ok last rest := by
  cases h with
  | none =>
    exact bind_ok.mpr ⟨false, _, (skipIf_ok (by decide)).mpr (Or.inr ⟨rfl, rfl, hr rfl⟩), rfl⟩
  | @some _ t us ss ht hss =>
    refine bind_ok.mpr ⟨true, us ++ rest, ?_, ?_⟩
    · exact (skipIf_ok (by decide)).mpr (Or.inl ⟨rfl, t, rfl, ht⟩)
    · exact map_ok.mpr ⟨ss, (block_ok hbody).mpr ⟨us, rfl, hss⟩, rfl⟩

theorem conditional_sound (hexpr : Reads expr (Q b)) (hbody : ReadsBody body Q B b)
    {ts rest : List Token} {s : Stmt} (h : conditional expr body ts = .ok s rest) :
    ∃ us, ts = us ++ rest ∧ Statement (Having Q) B b us s ∧ SettledBehind s rest := by
  obtain ⟨t, _, h₁, k₁⟩ := bind_ok.mp h
  obtain ⟨e, _, h₂, k₂⟩ := bind_ok.mp k₁
  obtain ⟨ss, _, h₃, k₃⟩ := bind_ok.mp k₂
  obtain ⟨cs, _, h₄, k₄⟩ := bind_ok.mp k₃
  obtain ⟨last, h₅, rfl⟩ := map_ok.mp k₄
  obtain ⟨rfl, ht⟩ := (token_one_ok (by decide)).mp h₁
  obtain ⟨us, rfl, hus⟩ := (condition_ok hexpr).mp h₂
  obtain ⟨vs, rfl, hvs⟩ := (block_ok hbody).mp h₃
  obtain ⟨ws, rfl, hws, helif⟩ :=
    clauses_sound hexpr hbody ((collect_ok (nextClause_takes hexpr hbody)).mp h₄)
  obtain ⟨xs, rfl, hxs, helse⟩ := otherwise_sound hbody h₅
  refine ⟨t :: us ++ vs ++ ws ++ xs, by simp, .conditional ht hus hvs hws hxs, ?_⟩
  cases hxs with
  | none => exact ⟨helif, helse rfl⟩
  | some _ _ => trivial

theorem Otherwise.kind_ne_elif {us rest : List Token} {last : Option (List Stmt)}
    (h : Otherwise (Having Q) B b us last) (hr : last = none → Settled rest) :
    (firstToken (us ++ rest)).kind ≠ .keyword .elifWord := by
  cases h with
  | none => exact (hr rfl).1
  | some ht _ => simp [firstToken, ht]

theorem conditional_complete (hexpr : Reads expr (Q b)) (hbody : ReadsBody body Q B b)
    {t : Token} {us vs ws xs rest : List Token} {e : Expr} {ss : List Stmt} {cs : List Clause}
    {last : Option (List Stmt)} (ht : t.kind = .keyword .ifWord)
    (he : Condition (Having Q) b us e) (hss : Block (Having Q) B b false vs ⟨ss, none⟩)
    (hcs : Clauses (Having Q) B b ws cs) (hl : Otherwise (Having Q) B b xs last)
    (hr : last = none → Settled rest) :
    conditional expr body (t :: (us ++ (vs ++ (ws ++ (xs ++ rest))))) =
      .ok (.conditional t.place (.mk t.place e ss cs last)) rest := by
  have hcs' := clauses_complete hexpr hbody (Otherwise.kind_ne_elif hl hr) hcs
  refine bind_ok.mpr ⟨t, _, (token_one_ok (by decide)).mpr ⟨rfl, ht⟩, ?_⟩
  refine bind_ok.mpr ⟨e, _, (condition_ok hexpr).mpr ⟨us, rfl, he⟩, ?_⟩
  refine bind_ok.mpr ⟨ss, _, (block_ok hbody).mpr ⟨vs, rfl, hss⟩, ?_⟩
  refine bind_ok.mpr ⟨cs, _, (collect_ok (nextClause_takes hexpr hbody)).mpr hcs', ?_⟩
  exact map_ok.mpr ⟨last, otherwise_complete hbody hl fun hnone => (hr hnone).2, rfl⟩

/-! ## Loops -/

theorem whileLoop_ok (hexpr : Reads expr (Q b)) (hbody : ReadsBody body Q B b)
    {ts rest : List Token} {s : Stmt} :
    whileLoop expr body ts = .ok s rest ↔
      ∃ t us vs e ss, ts = t :: (us ++ (vs ++ rest)) ∧ t.kind = .keyword .whileWord ∧
        Condition (Having Q) b us e ∧ Block (Having Q) B b false vs ⟨ss, none⟩ ∧
        s = .whileLoop t.place e ss := by
  unfold whileLoop
  constructor
  · intro h
    obtain ⟨t, _, h₁, k₁⟩ := bind_ok.mp h
    obtain ⟨e, _, h₂, k₂⟩ := bind_ok.mp k₁
    obtain ⟨ss, h₃, rfl⟩ := map_ok.mp k₂
    obtain ⟨rfl, ht⟩ := (token_one_ok (by decide)).mp h₁
    obtain ⟨us, rfl, hus⟩ := (condition_ok hexpr).mp h₂
    obtain ⟨vs, rfl, hvs⟩ := (block_ok hbody).mp h₃
    exact ⟨t, us, vs, e, ss, rfl, ht, hus, hvs, rfl⟩
  · rintro ⟨t, us, vs, e, ss, rfl, ht, hus, hvs, rfl⟩
    refine bind_ok.mpr ⟨t, _, (token_one_ok (by decide)).mpr ⟨rfl, ht⟩, ?_⟩
    refine bind_ok.mpr ⟨e, _, (condition_ok hexpr).mpr ⟨us, rfl, hus⟩, ?_⟩
    exact map_ok.mpr ⟨ss, (block_ok hbody).mpr ⟨vs, rfl, hvs⟩, rfl⟩

theorem Block.kind_firstToken {E : Nat → List Token → Expr → Prop} {returns : Bool}
    {us : List Token} {x : Body} (h : Block E B b returns us x) (rest : List Token) :
    (firstToken (us ++ rest)).kind = .symbol .openBrace := by
  cases h with
  | mk _ hl _ _ _ => exact hl

theorem Block.ne_nil {E : Nat → List Token → Expr → Prop} {returns : Bool} {us : List Token}
    {x : Body} (h : Block E B b returns us x) : us ≠ [] := by
  cases h
  exact List.cons_ne_nil _ _

theorem forLoop_ok (hexpr : Reads expr (Q b)) (hbody : ReadsBody body Q B b)
    {ts rest : List Token} {s : Stmt} :
    forLoop expr body ts = .ok s rest ↔
      ∃ t u i us vs name e ss, ts = t :: u :: i :: (us ++ (vs ++ rest)) ∧
        t.kind = .keyword .forWord ∧ u.content = .ident name ∧ i.kind = .keyword .inWord ∧
        Having Q b us e ∧ Block (Having Q) B b false vs ⟨ss, none⟩ ∧
        s = .forLoop t.place (.mk t.place name e ss) := by
  unfold forLoop
  constructor
  · intro h
    obtain ⟨t, _, h₁, k₁⟩ := bind_ok.mp h
    obtain ⟨⟨u, name⟩, _, h₂, k₂⟩ := bind_ok.mp k₁
    obtain ⟨i, _, h₃, k₃⟩ := bind_ok.mp k₂
    obtain ⟨e, _, h₄, k₄⟩ := bind_ok.mp k₃
    obtain ⟨isBlock, _, h₅, k₅⟩ := bind_ok.mp k₄
    obtain ⟨rfl, ht⟩ := (token_one_ok (by decide)).mp h₁
    obtain ⟨rfl, hu⟩ := ident_ok.mp h₂
    obtain ⟨rfl, hi⟩ := (token_one_ok (by decide)).mp h₃
    obtain ⟨us, rfl, hus, hq⟩ := hexpr.sound h₄
    obtain ⟨rfl, rfl⟩ := isHere_ok.mp h₅
    split at k₅
    · obtain ⟨ss, h₆, rfl⟩ := map_ok.mp k₅
      obtain ⟨vs, rfl, hvs⟩ := (block_ok hbody).mp h₆
      exact ⟨t, u, i, us, vs, name, e, ss, rfl, ht, hu, hi, ⟨hus, hq⟩, hvs, rfl⟩
    · cases k₅
  · rintro ⟨t, u, i, us, vs, name, e, ss, rfl, ht, hu, hi, hus, hvs, rfl⟩
    have hbrace := Block.kind_firstToken hvs rest
    refine bind_ok.mpr ⟨t, _, (token_one_ok (by decide)).mpr ⟨rfl, ht⟩, ?_⟩
    refine bind_ok.mpr ⟨(u, name), _, ident_ok.mpr ⟨rfl, hu⟩, ?_⟩
    refine bind_ok.mpr ⟨i, _, (token_one_ok (by decide)).mpr ⟨rfl, hi⟩, ?_⟩
    have hstops : Stops (vs ++ rest) := by
      cases hvs with
      | mk _ hl _ _ _ => exact stops_of_kind hl (by decide)
    refine bind_ok.mpr ⟨e, _, hexpr.complete [] _ hus.1 hus.2 hstops, ?_⟩
    refine bind_ok.mpr ⟨true, _, isHere_ok.mpr ⟨by simp [hbrace], rfl⟩, ?_⟩
    exact map_ok.mpr ⟨ss, (block_ok hbody).mpr ⟨vs, rfl, hvs⟩, rfl⟩

/-! ## Functions -/

theorem nextParameter_ok {ts rest : List Token} {o : Option String} :
    nextParameter ts = .ok o rest ↔
      (∃ r, ts = r :: rest ∧ r.kind = .symbol .closeParen ∧ o = none) ∨
        ∃ t u name, ts = t :: u :: rest ∧ t.kind = .symbol .comma ∧ u.content = .ident name ∧
          o = some name := by
  unfold nextParameter
  rw [bind_ok]
  constructor
  · rintro ⟨t, mid, ht, hm⟩
    obtain ⟨rfl, hk⟩ := (token_ok (by decide)).mp ht
    split at hm
    · next hc =>
      obtain ⟨⟨u, name⟩, hu, rfl⟩ := map_ok.mp hm
      obtain ⟨rfl, hu'⟩ := ident_ok.mp hu
      exact Or.inr ⟨t, u, name, rfl, by simpa using hc, hu', rfl⟩
    · next hc =>
      obtain ⟨rfl, rfl⟩ := pure_ok.mp hm
      refine Or.inl ⟨t, rfl, ?_, rfl⟩
      simpa [show t.kind ≠ .symbol .comma by simpa using hc] using hk
  · rintro (⟨t, rfl, hk, rfl⟩ | ⟨t, u, name, rfl, hk, hu, rfl⟩)
    · exact ⟨t, rest, (token_ok (by decide)).mpr ⟨rfl, by simp [hk]⟩, by rw [hk]; rfl⟩
    · refine ⟨t, u :: rest, (token_ok (by decide)).mpr ⟨rfl, by simp [hk]⟩, ?_⟩
      rw [hk]
      exact map_ok.mpr ⟨(u, name), ident_ok.mpr ⟨rfl, hu⟩, rfl⟩

theorem nextParameter_takes (ts : List Token) (name : String) (rest : List Token)
    (h : nextParameter ts = .ok (some name) rest) : rest.length < ts.length := by
  rcases nextParameter_ok.mp h with ⟨_, _, _, ho⟩ | ⟨t, u, _, rfl, _⟩
  · cases ho
  · simp only [List.length_cons]
    omega

theorem moreParameters_ok {ts rest : List Token} {names : List String} :
    collect nextParameter ts = .ok names rest ↔
      ∃ us r, ts = us ++ r :: rest ∧ MoreParameters us names ∧ r.kind = .symbol .closeParen := by
  rw [collect_ok nextParameter_takes]
  constructor
  · intro h
    induction h with
    | done h =>
      rcases nextParameter_ok.mp h with ⟨r, rfl, hr, -⟩ | ⟨_, _, _, _, _, _, ho⟩
      · exact ⟨[], r, rfl, .nil, hr⟩
      · cases ho
    | more h _ ih =>
      rcases nextParameter_ok.mp h with ⟨_, _, _, ho⟩ | ⟨t, u, name, rfl, ht, hu, ho⟩
      · cases ho
      · cases ho
        obtain ⟨us, r, rfl, hus, hr⟩ := ih
        exact ⟨t :: u :: us, r, rfl, .cons ht hu hus, hr⟩
  · rintro ⟨us, r, rfl, hus, hr⟩
    induction hus with
    | nil => exact .done (nextParameter_ok.mpr (Or.inl ⟨r, rfl, hr, rfl⟩))
    | @cons t u name us names ht hu _ ih =>
      exact .more (nextParameter_ok.mpr (Or.inr ⟨t, u, name, rfl, ht, hu, rfl⟩)) ih

/-- The parameters are read up to the parenthesis. -/
theorem parameters_ok {ts rest : List Token} {names : List String} :
    parameters ts = .ok names rest ↔
      ∃ us r, ts = us ++ r :: rest ∧ Parameters us names ∧ r.kind = .symbol .closeParen := by
  unfold parameters
  rw [bind_ok]
  constructor
  · rintro ⟨first, mid, h₁, k₁⟩
    obtain ⟨t, rfl, ht⟩ := (accept_ok rfl).mp h₁
    split at ht
    · next name hc =>
      cases ht
      obtain ⟨names', h₂, rfl⟩ := map_ok.mp k₁
      obtain ⟨us, r, rfl, hus, hr⟩ := moreParameters_ok.mp h₂
      exact ⟨t :: us, r, rfl, .cons hc hus, hr⟩
    · next text hc =>
      cases ht
      obtain ⟨rfl, rfl⟩ := pure_ok.mp k₁
      exact ⟨[], t, rfl, .nil, Token.kind_eq hc⟩
    · cases ht
  · rintro ⟨us, r, rfl, hus, hr⟩
    cases hus with
    | nil =>
      obtain ⟨text, hc⟩ := Token.exists_text hr
      exact ⟨none, rest, (accept_ok rfl).mpr ⟨r, rfl, by rw [hc]⟩, rfl⟩
    | @cons t name us names ht hus =>
      refine ⟨some name, us ++ r :: rest, (accept_ok rfl).mpr ⟨t, rfl, by rw [ht]⟩, ?_⟩
      exact map_ok.mpr ⟨names, moreParameters_ok.mpr ⟨us, r, rfl, hus, hr⟩, rfl⟩

theorem function_ok (hbody : ReadsBody body Q B b) {ts rest : List Token} {s : Stmt} :
    function body ts = .ok s rest ↔
      ∃ t u l us r vs name names ss result, ts = t :: u :: l :: (us ++ r :: (vs ++ rest)) ∧
        t.kind = .keyword .fnWord ∧ u.content = .ident name ∧ l.kind = .symbol .openParen ∧
        Parameters us names ∧ r.kind = .symbol .closeParen ∧
        Block (Having Q) B b true vs ⟨ss, result⟩ ∧
        s = .function t.place name names ss result := by
  unfold function
  constructor
  · intro h
    obtain ⟨t, _, h₁, k₁⟩ := bind_ok.mp h
    obtain ⟨⟨u, name⟩, _, h₂, k₂⟩ := bind_ok.mp k₁
    obtain ⟨l, _, h₃, k₃⟩ := bind_ok.mp k₂
    obtain ⟨names, _, h₄, k₄⟩ := bind_ok.mp k₃
    obtain ⟨⟨ss, result⟩, h₅, rfl⟩ := map_ok.mp k₄
    obtain ⟨rfl, ht⟩ := (token_one_ok (by decide)).mp h₁
    obtain ⟨rfl, hu⟩ := ident_ok.mp h₂
    obtain ⟨rfl, hl⟩ := (token_one_ok (by decide)).mp h₃
    obtain ⟨us, r, rfl, hus, hr⟩ := parameters_ok.mp h₄
    obtain ⟨vs, rfl, hvs⟩ := hbody.mp h₅
    exact ⟨t, u, l, us, r, vs, name, names, ss, result, rfl, ht, hu, hl, hus, hr, hvs, rfl⟩
  · rintro ⟨t, u, l, us, r, vs, name, names, ss, result, rfl, ht, hu, hl, hus, hr, hvs, rfl⟩
    refine bind_ok.mpr ⟨t, _, (token_one_ok (by decide)).mpr ⟨rfl, ht⟩, ?_⟩
    refine bind_ok.mpr ⟨(u, name), _, ident_ok.mpr ⟨rfl, hu⟩, ?_⟩
    refine bind_ok.mpr ⟨l, _, (token_one_ok (by decide)).mpr ⟨rfl, hl⟩, ?_⟩
    refine bind_ok.mpr ⟨names, _, parameters_ok.mpr ⟨us, r, rfl, hus, hr⟩, ?_⟩
    exact map_ok.mpr ⟨⟨ss, result⟩, hbody.mpr ⟨vs, rfl, hvs⟩, rfl⟩

/-! ## Statements -/

/-- The token ahead says which statement is read. -/
theorem statement_eq {follow : List Kind} {ts : List Token} :
    statement expr body follow ts =
      (match (firstToken ts).kind with
      | .keyword .importWord => load
      | .keyword .ifWord => conditional expr body
      | .keyword .whileWord => whileLoop expr body
      | .keyword .forWord => forLoop expr body
      | .keyword .fnWord => function body
      | _ => do
        if (firstToken ts).kind == .ident && (← next).update?.isSome then update expr
        else if (firstToken ts).kind ∈ Kind.atomStarts then assignmentOrExpression expr
        else refuse (Kind.statementStarts ++ follow) : Rule Stmt) ts := by
  have hhere : here ts = .ok (firstToken ts) ts := rfl
  unfold statement
  exact bind_of_ok hhere

/-- A token that begins an expression begins a change of a variable, if it is a name and an
operator for that stands behind it, or an expression, perhaps the target of an assignment. -/
theorem statement_of_atom {follow : List Kind} {ts : List Token}
    (hk : (firstToken ts).kind ∈ Kind.atomStarts) :
    statement expr body follow ts =
      if (firstToken ts).kind = .ident ∧ (firstToken ts.tail).update?.isSome = true then
        update expr ts
      else assignmentOrExpression expr ts := by
  rw [statement_eq]
  have hnext : next ts = .ok (firstToken ts.tail) ts := rfl
  generalize (firstToken ts).kind = k at hk ⊢
  split
  case h_6 =>
    rw [bind_of_ok hnext, if_pos hk]
    by_cases hu : k = .ident ∧ (firstToken ts.tail).update?.isSome = true
    · rw [if_pos hu, if_pos (by simpa using hu)]
    · rw [if_neg hu, if_neg (by simpa using hu)]
  all_goals exact absurd hk (by decide)

/-- A token that begins no statement is complained about. -/
theorem statement_of_other {follow : List Kind} {ts : List Token}
    (hk : (firstToken ts).kind ∉ Kind.statementStarts) :
    statement expr body follow ts =
      .error ((firstToken ts).refuse (Kind.statementStarts ++ follow)) ts := by
  rw [statement_eq]
  have hnext : next ts = .ok (firstToken ts.tail) ts := rfl
  generalize (firstToken ts).kind = k at hk ⊢
  split
  case h_6 =>
    have hatom : k ∉ Kind.atomStarts := fun hm => hk (kind_statementStarts_of_atomStarts hm)
    have hident : k ≠ .ident := by
      rintro rfl
      exact hatom (by decide)
    rw [bind_of_ok hnext, if_neg (by simp [hident]), if_neg hatom]
    rfl
  all_goals exact absurd (by decide) hk

theorem statement_atom_ok {follow : List Kind} {ts rest : List Token} {s : Stmt}
    (hk : (firstToken ts).kind ∈ Kind.atomStarts) :
    statement expr body follow ts = .ok s rest ↔
      if (firstToken ts).kind = .ident ∧ (firstToken ts.tail).update?.isSome = true then
        update expr ts = .ok s rest
      else assignmentOrExpression expr ts = .ok s rest := by
  rw [statement_of_atom hk]
  split <;> rfl

/-- A statement that is read is one, and what follows does not carry it on. -/
theorem statement_sound (hexpr : Reads expr (Q b)) (hbody : ReadsBody body Q B b)
    {follow : List Kind} {ts rest : List Token} {s : Stmt}
    (h : statement expr body follow ts = .ok s rest) :
    ∃ us, ts = us ++ rest ∧ Statement (Having Q) B b us s ∧ SettledBehind s rest := by
  by_cases hk : (firstToken ts).kind ∈ Kind.atomStarts
  · have h' := (statement_atom_ok hk).mp h
    split at h'
    · exact update_sound hexpr h'
    · exact assignmentOrExpression_sound hexpr h'
  · obtain ⟨t, _, h₁, k₁⟩ := bind_ok.mp h
    obtain ⟨rfl, rfl⟩ := here_ok.mp h₁
    generalize (firstToken ts).kind = k at hk k₁
    split at k₁
    · obtain ⟨t, u, r, path, rfl, ht, hu, hr, rfl⟩ := load_ok.mp k₁
      exact ⟨[t, u, r], rfl, .load ht hu hr, trivial⟩
    · exact conditional_sound hexpr hbody k₁
    · obtain ⟨t, us, vs, e, ss, rfl, ht, hus, hvs, rfl⟩ := (whileLoop_ok hexpr hbody).mp k₁
      exact ⟨t :: us ++ vs, by simp, .whileLoop ht hus hvs, trivial⟩
    · obtain ⟨t, u, i, us, vs, name, e, ss, rfl, ht, hu, hi, hus, hvs, rfl⟩ :=
        (forLoop_ok hexpr hbody).mp k₁
      exact ⟨t :: u :: i :: us ++ vs, by simp, .forLoop ht hu hi hus hvs, trivial⟩
    · obtain ⟨t, u, l, us, r, vs, name, names, ss, result, rfl, ht, hu, hl, hus, hr, hvs, rfl⟩ :=
        (function_ok hbody).mp k₁
      exact ⟨t :: u :: l :: us ++ r :: vs, by simp, .function ht hu hl hus hr hvs, trivial⟩
    · obtain ⟨u, _, h₂, k₂⟩ := bind_ok.mp k₁
      rw [if_neg hk] at k₂
      split at k₂
      · next hu =>
        have hi : k = .ident := by simpa using (Bool.and_eq_true_iff.mp hu).1
        exact absurd (by rw [hi]; decide) hk
      · cases k₂

/-- Where an expression stands it is read, if no operator that changes a variable follows it. -/
theorem statement_expression {follow : List Kind} {us rest mid : List Token} {e : Expr} {s : Stmt}
    (he : Expression us e) (hr : (firstToken mid).update? = none)
    (h : assignmentOrExpression expr (us ++ mid) = .ok s rest) :
    statement expr body follow (us ++ mid) = .ok s rest := by
  refine (statement_atom_ok (kind_firstToken he mid)).mpr ?_
  rw [if_neg]
  · exact h
  · rintro ⟨hi, hu⟩
    obtain ⟨t, vs, rfl, -, -⟩ := he.opens
    have hnone := he.update?_eq_none rfl hi hr
    simp [hnone] at hu

/-- A change of a variable is read where a name and its operator stand. -/
theorem statement_update {follow : List Kind} {t u : Token} {ts rest : List Token} {name : String}
    {s : Stmt} (ht : t.content = .ident name) (hu : u.update?.isSome = true)
    (h : update expr (t :: u :: ts) = .ok s rest) :
    statement expr body follow (t :: u :: ts) = .ok s rest := by
  have hk : (firstToken (t :: u :: ts)).kind = .ident := Token.kind_eq ht
  refine (statement_atom_ok (by rw [hk]; decide)).mpr ?_
  rw [if_pos ⟨hk, hu⟩]
  exact h

/-- A statement is read, up to tokens that do not carry it on. -/
theorem statement_complete (hexpr : Reads expr (Q b)) (hbody : ReadsBody body Q B b)
    {follow : List Kind} {us rest : List Token} {s : Stmt} (h : Statement (Having Q) B b us s)
    (hr : SettledBehind s rest) : statement expr body follow (us ++ rest) = .ok s rest := by
  cases h with
  | @load _ t u r path ht hu hr' =>
    refine bind_ok.mpr ⟨t, _, here_ok.mpr ⟨rfl, rfl⟩, ?_⟩
    simp only [ht]
    exact load_ok.mpr ⟨t, u, r, path, rfl, ht, hu, hr', rfl⟩
  | @assignment _ q r us vs target value ht hq hv hr' =>
    have h := assignment_complete hexpr rest ht hq hv hr'
    have hs : statement expr body follow (us ++ q :: (vs ++ r :: rest)) = .ok _ rest :=
      statement_expression ht.1 (by simp [firstToken, Token.update?_eq hq, Symbol.update?]) h
    simpa using hs
  | @expression _ r us e he hr' =>
    have h := expression_complete hexpr rest he hr'
    have hs : statement expr body follow (us ++ r :: rest) = .ok _ rest :=
      statement_expression he.1 (by simp [firstToken, Token.update?_eq hr', Symbol.update?]) h
    simpa using hs
  | @update _ t u r name sym o us e ht hu hs he hr' =>
    have h := update_complete hexpr rest ht hu hs he hr'
    have hs : statement expr body follow (t :: u :: (us ++ r :: rest)) = .ok _ rest :=
      statement_update ht (by rw [hu]; rfl) h
    simpa using hs
  | @step _ t u r name o ht hu hr' =>
    obtain ⟨sym, hu', -⟩ := Token.step?_eq_some_iff_update?.mp hu
    exact statement_update ht (by rw [hu']; rfl) (update_complete_step ht hu hr')
  | @conditional _ t us vs ws xs e ss cs last ht he hss hcs hl =>
    have hlast : last = none → Settled rest := by
      rintro rfl
      exact hr
    have h := conditional_complete hexpr hbody ht he hss hcs hl hlast
    refine bind_ok.mpr ⟨t, _, here_ok.mpr ⟨rfl, rfl⟩, ?_⟩
    simp only [ht]
    simpa using h
  | @whileLoop _ t us vs e ss ht he hss =>
    refine bind_ok.mpr ⟨t, _, here_ok.mpr ⟨rfl, rfl⟩, ?_⟩
    simp only [ht]
    exact (whileLoop_ok hexpr hbody).mpr ⟨t, us, vs, e, ss, by simp, ht, he, hss, rfl⟩
  | @forLoop _ t u i name us vs e ss ht hu hi he hss =>
    refine bind_ok.mpr ⟨t, _, here_ok.mpr ⟨rfl, rfl⟩, ?_⟩
    simp only [ht]
    exact (forLoop_ok hexpr hbody).mpr
      ⟨t, u, i, us, vs, name, e, ss, by simp, ht, hu, hi, he, hss, rfl⟩
  | @function _ t u l r name names us vs ss result ht hu hl hn hr' hb =>
    refine bind_ok.mpr ⟨t, _, here_ok.mpr ⟨rfl, rfl⟩, ?_⟩
    simp only [ht]
    exact (function_ok hbody).mpr
      ⟨t, u, l, us, r, vs, name, names, ss, result, by simp, ht, hu, hl, hn, hr', hb, rfl⟩

/-! ## Statements in a row -/

/-- The kinds that may end some statements: they do not begin one and do not carry one on. -/
def EndStatements (follow : List Kind) : Prop :=
  ∀ k ∈ follow, k ∉ Kind.statementStarts ∧ k ≠ .keyword .elifWord ∧ k ≠ .keyword .elseWord

theorem nextStatement_ok {follow : List Kind} {ts rest : List Token} {o : Option Stmt} :
    nextStatement expr body follow ts = .ok o rest ↔
      ((firstToken ts).kind ∈ follow ∧ o = none ∧ ts = rest) ∨
        ((firstToken ts).kind ∉ follow ∧
          ∃ s, statement expr body follow ts = .ok s rest ∧ o = some s) := by
  unfold nextStatement
  rw [bind_ok]
  constructor
  · rintro ⟨t, _, h₁, k₁⟩
    obtain ⟨rfl, rfl⟩ := here_ok.mp h₁
    split at k₁
    · next hk =>
      obtain ⟨rfl, rfl⟩ := pure_ok.mp k₁
      exact Or.inl ⟨hk, rfl, rfl⟩
    · next hk =>
      obtain ⟨s, hs, rfl⟩ := map_ok.mp k₁
      exact Or.inr ⟨hk, s, hs, rfl⟩
  · rintro (⟨hk, rfl, rfl⟩ | ⟨hk, s, hs, rfl⟩)
    · refine ⟨_, ts, here_ok.mpr ⟨rfl, rfl⟩, ?_⟩
      rw [if_pos hk]
      rfl
    · refine ⟨_, ts, here_ok.mpr ⟨rfl, rfl⟩, ?_⟩
      rw [if_neg hk]
      exact map_ok.mpr ⟨s, hs, rfl⟩

theorem nextStatement_takes (hexpr : Reads expr (Q b)) (hbody : ReadsBody body Q B b)
    {follow : List Kind} (ts : List Token) (s : Stmt) (rest : List Token)
    (h : nextStatement expr body follow ts = .ok (some s) rest) : rest.length < ts.length := by
  rcases nextStatement_ok.mp h with ⟨_, ho, _⟩ | ⟨_, s', hs, -⟩
  · cases ho
  · obtain ⟨us, rfl, hus, -⟩ := statement_sound hexpr hbody hs
    obtain ⟨t, vs, rfl, -⟩ := hus.opens
    simp only [List.length_append, List.length_cons]
    omega

/-- Behind a statement stands another one, or what stands behind all of them. -/
theorem Statements.settled_append {us rest : List Token} {ss : List Stmt}
    (h : Statements (Having Q) B b us ss) (hr : Settled rest) : Settled (us ++ rest) := by
  cases h with
  | nil => exact hr
  | cons hs _ =>
    obtain ⟨t, vs, rfl, hk⟩ := hs.opens
    constructor
    · rintro (he : t.kind = _)
      exact absurd hk (by rw [he]; decide)
    · rintro (he : t.kind = _)
      exact absurd hk (by rw [he]; decide)

theorem statements_ok (hexpr : Reads expr (Q b)) (hbody : ReadsBody body Q B b)
    {follow : List Kind} (hf : EndStatements follow) {ts rest : List Token} {ss : List Stmt} :
    collect (nextStatement expr body follow) ts = .ok ss rest ↔
      ∃ us, ts = us ++ rest ∧ Statements (Having Q) B b us ss ∧
        (firstToken rest).kind ∈ follow := by
  rw [collect_ok (nextStatement_takes hexpr hbody)]
  constructor
  · intro h
    induction h with
    | done h =>
      rcases nextStatement_ok.mp h with ⟨hk, -, rfl⟩ | ⟨_, _, _, ho⟩
      · exact ⟨[], rfl, .nil, hk⟩
      · cases ho
    | more h _ ih =>
      rcases nextStatement_ok.mp h with ⟨_, ho, _⟩ | ⟨_, s, hs, ho⟩
      · cases ho
      · cases ho
        obtain ⟨us, rfl, hus, -⟩ := statement_sound hexpr hbody hs
        obtain ⟨vs, rfl, hvs, hk⟩ := ih
        exact ⟨us ++ vs, by simp, .cons hus hvs, hk⟩
  · rintro ⟨us, rfl, hus, hk⟩
    induction ss generalizing us with
    | nil =>
      cases hus
      exact .done (nextStatement_ok.mpr (Or.inl ⟨hk, rfl, rfl⟩))
    | cons s ss ih =>
      cases hus with
      | @cons _ us vs _ _ hs hss =>
        have hs' : statement expr body follow (us ++ (vs ++ rest)) = .ok s (vs ++ rest) :=
          statement_complete hexpr hbody hs ((Statements.settled_append hss (hf _ hk).2).behind _)
        obtain ⟨t, us', rfl, ht⟩ := hs.opens
        have hnot : t.kind ∉ follow := fun hm => (hf _ hm).1 ht
        rw [List.append_assoc]
        exact .more (nextStatement_ok.mpr (Or.inr ⟨hnot, s, hs', rfl⟩)) (ih vs hss)

/-! ## Bodies -/

theorem returned_sound (hexpr : Reads expr (Q b)) {returns : Bool} {ts rest : List Token}
    {result : Option Expr} (h : returned expr returns ts = .ok result rest) :
    ∃ us, ts = us ++ rest ∧ Result (Having Q) b returns us result ∧
      (result = none → returns = true → (firstToken ts).kind ≠ .keyword .returnWord) := by
  obtain ⟨isReturn, _, h₁, k₁⟩ := bind_ok.mp h
  obtain ⟨rfl, rfl⟩ := isHere_ok.mp h₁
  split at k₁
  · next hk =>
    obtain ⟨hret, hk'⟩ := Bool.and_eq_true_iff.mp hk
    have hkind : (firstToken ts).kind = .keyword .returnWord := by simpa using hk'
    obtain ⟨t, ts', rfl, ht⟩ := exists_cons_of_firstToken (by rw [hkind]; nofun)
    obtain ⟨_, _, h₂, k₂⟩ := bind_ok.mp k₁
    obtain ⟨e, _, h₃, k₃⟩ := bind_ok.mp k₂
    obtain ⟨_, h₄, rfl⟩ := map_ok.mp k₃
    cases h₂
    obtain ⟨us, hus, he, hq⟩ := hexpr.sound h₃
    obtain ⟨r, rfl, hr⟩ := endExpr_ok.mp h₄
    rw [List.tail_cons] at hus
    subst hret hus
    exact ⟨t :: us ++ [r], by simp, .some hkind ⟨he, hq⟩ hr, nofun⟩
  · next hk =>
    obtain ⟨rfl, rfl⟩ := pure_ok.mp k₁
    refine ⟨[], rfl, .none, fun _ hret hkind => hk ?_⟩
    simp [hret, hkind]

theorem returned_complete (hexpr : Reads expr (Q b)) {returns : Bool} {us rest : List Token}
    {result : Option Expr} (h : Result (Having Q) b returns us result)
    (hr : result = none → (firstToken rest).kind ≠ .keyword .returnWord) :
    returned expr returns (us ++ rest) = .ok result rest := by
  refine bind_ok.mpr ⟨_, _, isHere_ok.mpr ⟨rfl, rfl⟩, ?_⟩
  cases h with
  | none =>
    rw [if_neg (by simp [hr rfl])]
    rfl
  | @some t r us e ht he hr' =>
    rw [if_pos (by simp [firstToken, ht])]
    have hus := hexpr.complete [] (r :: rest) he.1 he.2 (stops_of_kind hr' (by decide))
    refine bind_ok.mpr ⟨(), us ++ r :: rest, by simp [skip], ?_⟩
    exact bind_ok.mpr ⟨e, _, hus, map_ok.mpr ⟨(), endExpr_ok.mpr ⟨r, rfl, hr'⟩, rfl⟩⟩

theorem endStatements_bodyEnd (returns : Bool) : EndStatements (bodyEnd returns) := by
  cases returns <;> unfold EndStatements <;> decide

/-- Behind the statements of a body stands its result or its brace. -/
theorem Result.kind_firstToken {E : Nat → List Token → Expr → Prop} {returns : Bool}
    {us : List Token} {r : Token} {result : Option Expr} (h : Result E b returns us result)
    (hr : r.kind = .symbol .closeBrace) (rest : List Token) :
    (firstToken (us ++ r :: rest)).kind ∈ bodyEnd returns := by
  cases h with
  | none =>
    show r.kind ∈ _
    rw [hr]
    cases returns <;> decide
  | @some t _ _ _ ht _ _ =>
    show t.kind ∈ _
    rw [ht]
    decide

/-- The expressions that fit in `d` levels below some blocks. -/
def Fits (d b : Nat) (e : Expr) : Prop :=
  b + e.levels ≤ d

variable (limit : Int)

theorem readsBody_zero (d : Nat) : ReadsBody (Grammar.body limit 0) (Fits d) (· < d) d := by
  intro returns ts rest x
  constructor
  · intro h
    rw [Grammar.body] at h
    obtain ⟨_, _, _, k⟩ := bind_ok.mp h
    cases k
  · rintro ⟨us, -, h⟩
    cases h with
    | mk hb _ _ _ _ => exact absurd hb (Nat.lt_irrefl d)

theorem readsBody_succ {levels d b : Nat} (hb : b < d)
    (hexpr : Reads (expression limit levels) (Fits d (b + 1)))
    (hbody : ReadsBody (Grammar.body limit levels) (Fits d) (· < d) (b + 1)) :
    ReadsBody (Grammar.body limit (levels + 1)) (Fits d) (· < d) b := by
  intro returns ts rest x
  rw [Grammar.body]
  constructor
  · intro h
    obtain ⟨l, _, h₁, k₁⟩ := bind_ok.mp h
    obtain ⟨ss, _, h₂, k₂⟩ := bind_ok.mp k₁
    obtain ⟨result, _, h₃, k₃⟩ := bind_ok.mp k₂
    obtain ⟨r, h₄, rfl⟩ := map_ok.mp k₃
    obtain ⟨rfl, hl⟩ := (token_one_ok (by decide)).mp h₁
    obtain ⟨us, rfl, hus, -⟩ :=
      (statements_ok hexpr hbody (endStatements_bodyEnd returns)).mp h₂
    obtain ⟨vs, rfl, hvs, -⟩ := returned_sound hexpr h₃
    obtain ⟨rfl, hr⟩ := (token_one_ok (by decide)).mp h₄
    exact ⟨l :: us ++ vs ++ [r], by simp, .mk hb hl hus hvs hr⟩
  · rintro ⟨_, rfl, h⟩
    cases h with
    | @mk _ _ l r us vs ss result _ hl hss hres hr =>
      have hend := Result.kind_firstToken hres hr rest
      have hss' := (statements_ok hexpr hbody (endStatements_bodyEnd returns)).mpr
        ⟨us, rfl, hss, hend⟩
      have hres' : returned (expression limit levels) returns (vs ++ r :: rest) =
          .ok result (r :: rest) := returned_complete hexpr hres fun _ => by simp [firstToken, hr]
      refine bind_ok.mpr ⟨l, us ++ (vs ++ r :: rest), ?_, ?_⟩
      · exact (token_one_ok (by decide)).mpr ⟨by simp, hl⟩
      · refine bind_ok.mpr ⟨ss, _, hss', bind_ok.mpr ⟨result, _, hres', ?_⟩⟩
        exact map_ok.mpr ⟨r, (token_one_ok (by decide)).mpr ⟨rfl, hr⟩, rfl⟩

/-- What fits below `b` blocks are the expressions for the levels that are left there. -/
theorem reads_expression_fits {levels d b : Nat} (h : b + levels = d) :
    Reads (expression limit levels) (Fits d b) where
  sound := by
    intro alternatives ts rest e he
    obtain ⟨us, hts, hus, hle⟩ := (reads_expression limit levels).sound he
    exact ⟨us, hts, hus, by unfold Fits; omega⟩
  complete := by
    intro alternatives rest us e hus hq hr
    have hle : e.levels ≤ levels := by unfold Fits at hq; omega
    exact (reads_expression limit levels).complete alternatives rest hus hle hr

/-- The rule for bodies reads the blocks whose expressions and blocks fit in the levels. -/
theorem reads_body {levels d b : Nat} (h : b + levels = d) :
    ReadsBody (Grammar.body limit levels) (Fits d) (· < d) b := by
  induction levels generalizing b with
  | zero =>
    obtain rfl : b = d := h
    intro returns ts rest x
    exact readsBody_zero limit b
  | succ levels ih =>
    have hb : b < d := by omega
    intro returns ts rest x
    exact readsBody_succ limit hb (reads_expression_fits limit (by omega)) (ih (by omega))

/-- The rule for programs reads the statements that fit in the levels, up to an end mark. -/
theorem program_ok {levels : Nat} {ts rest : List Token} {p : Program} :
    program limit levels ts = .ok p rest ↔
      ∃ us, ts = us ++ rest ∧ p.place = ⟨1, 1⟩ ∧
        Statements (Having (Fits levels)) (· < levels) 0 us p.statements ∧
        (firstToken rest).kind = .eof := by
  have hb : (0 : Nat) + levels = levels := Nat.zero_add levels
  have hok := @statements_ok _ _ _ _ _ (reads_expression_fits limit hb) (reads_body limit hb)
    [.eof] (by unfold EndStatements; decide) ts rest
  unfold program
  rw [map_ok]
  constructor
  · rintro ⟨ss, h, rfl⟩
    obtain ⟨us, rfl, hus, hk⟩ := hok.mp h
    exact ⟨us, rfl, rfl, hus, List.mem_singleton.mp hk⟩
  · rintro ⟨us, rfl, hp, hus, hk⟩
    obtain ⟨place, ss⟩ := p
    obtain rfl : place = ⟨1, 1⟩ := hp
    exact ⟨ss, hok.mpr ⟨us, rfl, hus, List.mem_singleton.mpr hk⟩, rfl⟩

end Grammar

end ScriptReader
