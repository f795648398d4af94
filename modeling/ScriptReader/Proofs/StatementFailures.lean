import ScriptReader.Proofs.ExpressionFailures

/-!
# Statements that cannot be read

Each rule for statements fails in one of the ways of `Rule.Fails`, given that the rules for the
expressions and for the blocks inside do.  What completes a statement to a whole is asked of the
text around it, as it is for expressions.

A statement that begins with a name is told apart by the token behind the name: an operator
that changes a variable, or not.  Such an operator is overlooked behind the name, so an
expression that fails there does so where no other one is ahead either.

Main statements:

* `assignmentOrExpression_fails`, `update_fails`, `conditional_fails`, `forLoop_fails` and their
  fellows: each kind of statement fails at one of its parts;
* `statement_fails`: so does the rule that chooses between them.
-/

namespace ScriptReader.Grammar

open Rule Phrase

/-- A rule for bodies below `b` blocks reports its failures, with `n` levels left. -/
def ReportsBody (limit : Int) (n : Nat) (rule : Bool → Rule Body) (b : Nat) : Prop :=
  ∀ {whole : List Token → Prop} {returns : Bool} {ts rest : List Token} {err : Error},
    (∀ us x, Block AllExpressions AllBlocks b returns us x → ∃ vs, whole (us ++ vs)) →
      rule returns ts = .error err rest →
        Fails limit (rule returns) whole [.symbol .openBrace] n ts err rest

variable {expr : (alternatives : List Kind) → Rule Expr} {body : (returns : Bool) → Rule Body}
variable {Q : Nat → Expr → Prop} {B : Nat → Prop} {b : Nat} {limit : Int} {n : Nat}
variable {whole : List Token → Prop} {ts rest : List Token} {err : Error}

/-! ## Statements without blocks -/

theorem endExpr_fails {others : List Kind} (hends : (firstToken ts).kind ∉ Kind.binaries ++ others)
    (hsemicolon : Admits whole (.symbol .semicolon))
    (hadmits : ∀ k ∈ Kind.binaries ++ others, Admits whole k)
    (h : endExpr others ts = .error err rest) :
    Fails limit (endExpr others) whole (.symbol .semicolon :: (Kind.binaries ++ others)) n ts err
      rest :=
  (token_fails (by decide) hends hsemicolon hadmits (map_error.mp h)).bind_left

theorem Reports.ended (hexpr : Reports limit n expr) {β : Type} {g : Expr → β}
    (hwhole : ∀ us e, Expression us e → ∀ r, r.kind = .symbol .semicolon →
      ∃ vs, whole (us ++ r :: vs))
    (h : (do let e ← expr []; endExpr []; return g e : Rule β) ts = .error err rest) :
    Fails limit (do let e ← expr []; endExpr []; return g e : Rule β) whole Kind.atomStarts n ts
      err rest := by
  have hexpr' : ∀ us e, Expression us e → ∃ vs, whole (us ++ vs) := by
    intro us e he
    obtain ⟨vs, hvs⟩ := hwhole us e he _ (Kind.kind_sample (.symbol .semicolon))
    exact ⟨_, hvs⟩
  have hf := hexpr.bind hexpr' (List.forall_mem_nil _) List.not_mem_nil h ?_
  · rwa [List.append_nil] at hf
  · intro us e mid _ he hends hadmits hend
    have hsemicolon := hwhole us e he _ (Kind.kind_sample (.symbol .semicolon))
    rw [← List.append_nil Kind.binaries] at hends hadmits
    refine ⟨_, (endExpr_fails hends (.of_sample hsemicolon) hadmits (map_error.mp hend)).bind_left,
      fun _ k hk => ?_⟩
    simp [hk]

variable (hwhole : ∀ us s, Statement AllExpressions AllBlocks b us s → ∃ vs, whole (us ++ vs))

include hwhole in
theorem load_fails (h : load ts = .error err rest) :
    Fails limit load whole [.keyword .importWord] n ts err rest := by
  have hload : ∀ {t u r : Token} {path : String}, t.kind = .keyword .importWord →
      u.content = .string path → r.kind = .symbol .semicolon → ∃ vs, whole (t :: u :: r :: vs) :=
    fun ht hu hr => hwhole _ _ (.load ht hu hr)
  have hsemicolon : ∀ {t u : Token} {path : String}, t.kind = .keyword .importWord →
      u.content = .string path → ∃ vs, whole (t :: u :: (Kind.symbol .semicolon).sample :: vs) :=
    fun ht hu => hload ht hu (Kind.kind_sample _)
  have hstring : ∀ {t : Token}, t.kind = .keyword .importWord →
      ∃ vs, whole (t :: Kind.string.sample :: vs) :=
    fun ht => exists_of_cons (hsemicolon ht rfl)
  refine token_then (by decide) (.of_sample (exists_of_cons (hstring (Kind.kind_sample _))))
    (Nat.le_succ n) h ?_
  intro t ts₁ _ ht h₁
  refine ⟨_, accept_then [.string] [] rfl ?_ (List.cons_ne_nil _ _) (by decide) List.not_mem_nil
    (List.forall_mem_singleton.mpr (.of_sample (hstring ht))) (Nat.le_succ n) h₁ ?_⟩
  · intro u
    unfold Token.kind
    cases u.content <;> simp [Content.kind]
  · intro u path ts₂ _ hu h₂
    split at hu
    · next hc =>
      cases hu
      exact ⟨_, (token_fails (by decide) List.not_mem_nil (.of_sample (hsemicolon ht hc))
        (List.forall_mem_nil _) (map_error.mp h₂)).bind_left⟩
    · cases hu

include hwhole in
/-- An assignment or an expression fails in its first or its second expression, or in front of
what ends it. -/
theorem assignmentOrExpression_fails (hexpr : Reports limit n expr)
    (h : assignmentOrExpression expr ts = .error err rest) :
    Fails limit (assignmentOrExpression expr) whole Kind.atomStarts n ts err rest := by
  have hfirst : ∀ us e, Expression us e → ∃ vs, whole (us ++ vs) := by
    intro us e he
    obtain ⟨vs, hvs⟩ := hwhole _ _ (.expression he (Kind.kind_sample (.symbol .semicolon)))
    exact ⟨_, by simpa using hvs⟩
  have hf := hexpr.here_bind hfirst (List.forall_mem_nil _) List.not_mem_nil h ?_
  · rwa [List.append_nil] at hf
  intro us target mid _ htarget hops hadmits htail
  have hsecond : ∀ {q : Token}, q.kind = .symbol .assign → ∀ vs e, Expression vs e →
      ∀ r, r.kind = .symbol .semicolon → ∃ ws, whole (us ++ q :: (vs ++ r :: ws)) := by
    intro q hq vs e he r hr
    obtain ⟨ws, hws⟩ := hwhole _ _ (.assignment htarget hq he hr)
    exact ⟨ws, by simpa using hws⟩
  have hassign : Admits (fun vs => whole (us ++ vs)) (.symbol .assign) := by
    obtain ⟨vs, hvs⟩ := hsecond (Kind.kind_sample _) _ _ expression_sample _
      (Kind.kind_sample (.symbol .semicolon))
    exact .of_sample ⟨_, hvs⟩
  have hsemicolon : Admits (fun vs => whole (us ++ vs)) (.symbol .semicolon) := by
    obtain ⟨vs, hvs⟩ := hwhole _ _ (.expression htarget (Kind.kind_sample (.symbol .semicolon)))
    exact .of_sample ⟨vs, by simpa using hvs⟩
  refine ⟨.symbol .semicolon :: (Kind.binaries ++ [.symbol .assign]),
    skipIf_then (by decide) (fun _ => by decide) htail ?_ ?_, ?_⟩
  · intro q ts₁ _ hq hyes
    exact ⟨_, hexpr.ended (hsecond hq) hyes⟩
  · intro hq hno
    have hends : (firstToken mid).kind ∉ Kind.binaries ++ [.symbol .assign] := by
      simp [hops, hq]
    have hadmits' : ∀ k ∈ Kind.binaries ++ [.symbol .assign],
        Admits (fun vs => whole (us ++ vs)) k := by
      intro k hk
      rcases List.mem_append.mp hk with hk | hk
      · exact hadmits k hk
      · obtain rfl := List.mem_singleton.mp hk
        exact hassign
    exact (endExpr_fails hends hsemicolon hadmits' (map_error.mp hno)).bind_left
  · intro _ k hk
    simp [hk]

theorem update_error {t u : Token} {name : String} {s : Symbol} {o : Operator}
    (ht : t.content = .ident name) (hu : u.update? = some (s, o)) :
    update expr (t :: u :: ts) = .error err rest ↔
      (if s.isStep then do
          let _ ← token [.symbol .semicolon] []
          return .update t.place name o (.int u.place 1)
        else do
          let amount ← expr []
          endExpr []
          return .update t.place name o amount : Rule Stmt) ts = .error err rest := by
  unfold update
  rw [bind_of_ok (ident_ok.mpr ⟨rfl, ht⟩)]
  dsimp only
  rw [bind_of_ok ((accept_ok rfl).mpr ⟨u, rfl, by rw [hu]; rfl⟩)]

include hwhole in
/-- A change of a variable fails behind its operator, and so does a rule that reads it where the
name and the operator stand. -/
theorem update_fails (hexpr : Reports limit n expr) {t u : Token} {name : String} {r : Rule Stmt}
    {opens : List Kind} (ht : t.content = .ident name) (hu : u.update?.isSome = true)
    (hr : ∀ ts', r (t :: u :: ts') = update expr (t :: u :: ts'))
    (h : update expr (t :: u :: ts) = .error err rest) :
    Fails limit r whole opens n (t :: u :: ts) err rest := by
  obtain ⟨⟨s, o⟩, hu⟩ := Option.isSome_iff_exists.mp hu
  rw [update_error ht hu] at h
  suffices hf : ∃ opens', Fails limit (if s.isStep then do
        let _ ← token [.symbol .semicolon] []
        return .update t.place name o (.int u.place 1)
      else do
        let amount ← expr []
        endExpr []
        return .update t.place name o amount : Rule Stmt)
      (fun vs => whole (t :: u :: vs)) opens' n ts err rest by
    obtain ⟨opens', hf⟩ := hf
    refine hf.behind (List.cons_ne_nil t [u]) ?_ (Nat.le_add_right n 2)
    intro ts' e rest' he
    show r (t :: u :: ts') = _
    rw [hr]
    exact (update_error ht hu).mpr he
  cases hs : s.isStep with
  | true =>
    simp only [hs, if_true] at h ⊢
    have hstep := Token.step?_eq_some_iff_update?.mpr ⟨s, hu, hs⟩
    have hsemicolon := hwhole _ _ (.step ht hstep (Kind.kind_sample (.symbol .semicolon)))
    exact ⟨_, (token_fails (by decide) List.not_mem_nil (.of_sample hsemicolon)
      (List.forall_mem_nil _) (map_error.mp h)).bind_left⟩
  | false =>
    simp only [hs, Bool.false_eq_true, if_false] at h ⊢
    refine ⟨_, hexpr.ended ?_ h⟩
    intro us e he r hr
    obtain ⟨vs, hvs⟩ := hwhole _ _ (.update ht hu hs he hr)
    exact ⟨vs, by simpa using hvs⟩

/-! ## Conditions and blocks -/

theorem condition_fails (hexpr : Reports limit n expr)
    (hwhole : ∀ us e, Condition AllExpressions b us e → ∃ vs, whole (us ++ vs))
    (h : condition expr ts = .error err rest) :
    Fails limit (condition expr) whole [.symbol .openParen] n ts err rest := by
  have hopen : Admits whole (.symbol .openParen) :=
    .of_sample (exists_of_append (hwhole _ _ (condition_sample b)))
  refine token_then (by decide) hopen (Nat.le_succ n) h ?_
  intro l ts₁ _ hl h₁
  refine ⟨_, hexpr.closed (by decide) ?_ h₁⟩
  intro us e he r hr
  obtain ⟨vs, hvs⟩ := hwhole _ _ (.mk hl he hr)
  exact ⟨vs, by simpa using hvs⟩

theorem condition_settles (hreads : Reads expr (Q b)) {e : Expr}
    (h : condition expr ts = .ok e rest) :
    ∃ us, ts = us ++ rest ∧ Condition AllExpressions b us e ∧
      Settles (condition expr) (fun _ => False) us rest e := by
  obtain ⟨us, rfl, hus⟩ := (condition_ok hreads).mp h
  exact ⟨us, rfl, hus.of_having, .of_forall fun rest' => (condition_ok hreads).mpr ⟨us, rfl, hus⟩⟩

theorem block_fails (hreport : ReportsBody limit n body b)
    (hwhole : ∀ us ss, Block AllExpressions AllBlocks b false us ⟨ss, none⟩ →
      ∃ vs, whole (us ++ vs))
    (h : block body ts = .error err rest) :
    Fails limit (block body) whole [.symbol .openBrace] n ts err rest := by
  refine (hreport ?_ (map_error.mp h)).bind_left
  rintro us ⟨ss, result⟩ hus
  cases hus with
  | mk hb hl hss hres hr =>
    cases hres
    exact hwhole _ _ (.mk hb hl hss .none hr)

theorem block_settles (hbody : ReadsBody body Q B b) {ss : List Stmt}
    (h : block body ts = .ok ss rest) :
    ∃ us, ts = us ++ rest ∧ Block AllExpressions AllBlocks b false us ⟨ss, none⟩ ∧
      Settles (block body) (fun _ => False) us rest ss := by
  obtain ⟨us, rfl, hus⟩ := (block_ok hbody).mp h
  exact ⟨us, rfl, hus.of_having, .of_forall fun rest' => (block_ok hbody).mpr ⟨us, rfl, hus⟩⟩

theorem guarded_then (hexpr : Reports limit n expr) (hreads : Reads expr (Q b))
    (hbody : ReadsBody body Q B b) (hreport : ReportsBody limit n body b) {β : Type}
    {f : Expr → List Stmt → Rule β}
    (hwhole : ∀ us e vs ss, Condition AllExpressions b us e →
      Block AllExpressions AllBlocks b false vs ⟨ss, none⟩ → ∃ ws, whole (us ++ (vs ++ ws)))
    (h : (do let e ← condition expr; let ss ← block body; f e ss : Rule β) ts = .error err rest)
    (hf : ∀ us e vs ss mid, ts = us ++ (vs ++ mid) → Condition AllExpressions b us e →
      Block AllExpressions AllBlocks b false vs ⟨ss, none⟩ → f e ss mid = .error err rest →
      ∃ opens', Fails limit (f e ss) (fun ws => whole (us ++ (vs ++ ws))) opens' n mid err rest) :
    Fails limit (do let e ← condition expr; let ss ← block body; f e ss : Rule β) whole
      [.symbol .openParen] n ts err rest := by
  have hcondition : ∀ us e, Condition AllExpressions b us e → ∃ vs, whole (us ++ vs) := by
    intro us e he
    obtain ⟨ws, hws⟩ := hwhole _ _ _ _ he (block_sample b false)
    exact ⟨_, hws⟩
  rcases bind_error.mp h with h₁ | ⟨e, mid, he, h₁⟩
  · exact (condition_fails hexpr hcondition h₁).bind_left
  · obtain ⟨us, rfl, hus, hsc⟩ := condition_settles hreads he
    have hne : us ≠ [] := by
      cases hus
      exact List.cons_ne_nil _ _
    suffices hblock : Fails limit (block body >>= f e) (fun vs => whole (us ++ vs))
        [.symbol .openBrace] n mid err rest from
      .bind_settled hsc hne hblock (Nat.le_add_right _ _)
    rcases bind_error.mp h₁ with h₂ | ⟨ss, mid', hss, h₂⟩
    · exact (block_fails hreport (fun vs ss hvs => hwhole _ _ _ _ hus hvs) h₂).bind_left
    · obtain ⟨vs, rfl, hvs, hsb⟩ := block_settles hbody hss
      obtain ⟨opens', hlater⟩ := hf us e vs ss mid' rfl hus hvs h₂
      exact .bind_settled hsb (Block.ne_nil hvs) hlater (Nat.le_add_right _ _)

/-! ## Choices -/

theorem nextClause_fails (hexpr : Reports limit n expr) (hreads : Reads expr (Q b))
    (hbody : ReadsBody body Q B b) (hreport : ReportsBody limit n body b)
    (hwhole : ∀ us cs, Clauses AllExpressions AllBlocks b us cs → ∃ vs, whole (us ++ vs))
    (h : nextClause expr body ts = .error err rest) :
    Fails limit (nextClause expr body) whole [] n ts err rest := by
  refine skipIf_then (by decide) (fun hne => absurd rfl hne) h ?_ ?_
  · intro t ts₁ _ ht hyes
    refine ⟨_, guarded_then hexpr hreads hbody hreport ?_ hyes ?_⟩
    · intro us e vs ss he hss
      obtain ⟨ws, hws⟩ := hwhole _ _ (.cons ht he hss .nil)
      exact ⟨ws, by simpa using hws⟩
    · intro _ _ _ _ _ _ _ _ hpure
      cases hpure
  · intro _ hno
    cases hno

theorem nextClause_settles (hreads : Reads expr (Q b)) (hbody : ReadsBody body Q B b) {c : Clause}
    (h : nextClause expr body ts = .ok (some c) rest) :
    ∃ us, ts = us ++ rest ∧ us ≠ [] ∧ Clauses AllExpressions AllBlocks b us [c] ∧
      Settles (nextClause expr body) (fun _ => False) us rest (some c) := by
  rcases (nextClause_ok hreads hbody).mp h with ⟨ho, _⟩ | ⟨t, us, vs, e, ss, rfl, ht, hus, hvs, ho⟩
  · cases ho
  · cases ho
    have hclause : Clauses AllExpressions AllBlocks b (t :: us ++ vs ++ []) [.mk e ss] :=
      .cons ht hus.of_having hvs.of_having .nil
    rw [List.append_nil] at hclause
    refine ⟨_, rfl, List.cons_ne_nil _ _, hclause, .of_forall fun rest' => ?_⟩
    exact (nextClause_ok hreads hbody).mpr (Or.inr ⟨t, us, vs, e, ss, rfl, ht, hus, hvs, rfl⟩)

theorem clauses_fail (hexpr : Reports limit n expr) (hreads : Reads expr (Q b))
    (hbody : ReadsBody body Q B b) (hreport : ReportsBody limit n body b)
    (hwhole : ∀ us cs, Clauses AllExpressions AllBlocks b us cs → ∃ vs, whole (us ++ vs))
    (h : collect (nextClause expr body) ts = .error err rest) :
    Fails limit (collect (nextClause expr body)) whole [] n ts err rest := by
  refine collect_fails (nextClause_takes hreads hbody)
    (fun whole _ => ∀ us cs, Clauses AllExpressions AllBlocks b us cs → ∃ vs, whole (us ++ vs))
    (nextClause_fails hexpr hreads hbody hreport) ?_ hwhole h
  intro whole ts c rest hwhole h
  obtain ⟨us, rfl, hne, hus, hs⟩ := nextClause_settles hreads hbody h
  refine ⟨us, _, rfl, hne, hs, fun _ => False.elim, ?_⟩
  intro vs cs hvs
  obtain ⟨ws, hws⟩ := hwhole _ _ (hus.append hvs)
  exact ⟨ws, by simpa using hws⟩

/-- The clauses of a choice end in front of anything but an `elif`. -/
theorem clauses_settle (hreads : Reads expr (Q b)) (hbody : ReadsBody body Q B b)
    {cs : List Clause} (h : collect (nextClause expr body) ts = .ok cs rest) :
    ∃ us, ts = us ++ rest ∧ Clauses AllExpressions AllBlocks b us cs ∧
      Settles (collect (nextClause expr body)) (· = .keyword .elifWord) us rest cs := by
  have htakes := nextClause_takes hreads hbody
  obtain ⟨us, rfl, hus, helif⟩ := clauses_sound hreads hbody ((collect_ok htakes).mp h)
  refine ⟨us, rfl, hus.of_having, helif, ?_⟩
  intro rest' hr
  exact (collect_ok htakes).mpr (clauses_complete hreads hbody (hr.not_known helif) hus)

theorem otherwise_fails (hreport : ReportsBody limit n body b)
    (hwhole : ∀ us last, Otherwise AllExpressions AllBlocks b us last → ∃ vs, whole (us ++ vs))
    (h : otherwise body ts = .error err rest) :
    Fails limit (otherwise body) whole [] n ts err rest := by
  refine skipIf_then (by decide) (fun hne => absurd rfl hne) h ?_ ?_
  · intro t ts₁ _ ht hyes
    exact ⟨_, (block_fails hreport (fun us ss hss => hwhole (t :: us) _ (.some ht hss))
      (map_error.mp hyes)).bind_left⟩
  · intro _ hno
    cases hno

include hwhole in
/-- A choice fails in one of its conditions and blocks. -/
theorem conditional_fails (hexpr : Reports limit n expr) (hreads : Reads expr (Q b))
    (hbody : ReadsBody body Q B b) (hreport : ReportsBody limit n body b)
    (h : conditional expr body ts = .error err rest) :
    Fails limit (conditional expr body) whole [.keyword .ifWord] n ts err rest := by
  have hif : Admits whole (.keyword .ifWord) := by
    obtain ⟨vs, hvs⟩ := hwhole _ _ (.conditional (Kind.kind_sample (.keyword .ifWord))
      (condition_sample b) (block_sample b false) .nil .none)
    exact .of_sample ⟨_, hvs⟩
  refine token_then (by decide) hif (Nat.le_succ n) h ?_
  intro t ts₁ _ ht h₁
  refine ⟨_, guarded_then hexpr hreads hbody hreport ?_ h₁ ?_⟩
  · intro us e vs ss he hss
    obtain ⟨ws, hws⟩ := hwhole _ _ (.conditional ht he hss .nil .none)
    exact ⟨ws, by simpa using hws⟩
  · intro us e vs ss mid _ he hss h₂
    rcases bind_error.mp h₂ with h₃ | ⟨cs, mid', hcs, h₃⟩
    · refine ⟨_, (clauses_fail hexpr hreads hbody hreport ?_ h₃).bind_left⟩
      intro ws cs hcs
      obtain ⟨xs, hxs⟩ := hwhole _ _ (.conditional ht he hss hcs .none)
      exact ⟨xs, by simpa using hxs⟩
    · obtain ⟨ws, rfl, hws, hs⟩ := clauses_settle hreads hbody hcs
      have hlast : ∀ xs last, Otherwise AllExpressions AllBlocks b xs last →
          ∃ ys, whole (t :: (us ++ (vs ++ (ws ++ (xs ++ ys))))) := by
        intro xs last hxs
        obtain ⟨ys, hys⟩ := hwhole _ _ (.conditional ht he hss hws hxs)
        exact ⟨ys, by simpa using hys⟩
      have hf : Fails limit (otherwise body) (fun ys => whole (t :: (us ++ (vs ++ (ws ++ ys)))))
          [] n mid' err rest := otherwise_fails hreport hlast (map_error.mp h₃)
      exact ⟨[], .bind_right hs hf.bind_left (fun hne => absurd rfl hne) (fun _ => rfl)
        (Nat.le_add_right _ _)⟩

/-! ## Loops -/

include hwhole in
theorem whileLoop_fails (hexpr : Reports limit n expr) (hreads : Reads expr (Q b))
    (hbody : ReadsBody body Q B b) (hreport : ReportsBody limit n body b)
    (h : whileLoop expr body ts = .error err rest) :
    Fails limit (whileLoop expr body) whole [.keyword .whileWord] n ts err rest := by
  have hwhile : Admits whole (.keyword .whileWord) := by
    obtain ⟨vs, hvs⟩ := hwhole _ _ (.whileLoop (Kind.kind_sample (.keyword .whileWord))
      (condition_sample b) (block_sample b false))
    exact .of_sample ⟨_, hvs⟩
  refine token_then (by decide) hwhile (Nat.le_succ n) h ?_
  intro t ts₁ _ ht h₁
  refine ⟨_, guarded_then hexpr hreads hbody hreport ?_ h₁ ?_⟩
  · intro us e vs ss he hss
    obtain ⟨ws, hws⟩ := hwhole _ _ (.whileLoop ht he hss)
    exact ⟨ws, by simpa using hws⟩
  · intro _ _ _ _ _ _ _ _ hpure
    cases hpure

include hwhole in
/-- A loop over a source fails in its head, in front of its block or in the block. -/
theorem forLoop_fails (hexpr : Reports limit n expr) (hreport : ReportsBody limit n body b)
    (h : forLoop expr body ts = .error err rest) :
    Fails limit (forLoop expr body) whole [.keyword .forWord] n ts err rest := by
  have hloop : ∀ {t u i : Token} {name : String}, t.kind = .keyword .forWord →
      u.content = .ident name → i.kind = .keyword .inWord → ∀ us e, Expression us e →
      ∀ vs ss, Block AllExpressions AllBlocks b false vs ⟨ss, none⟩ →
        ∃ ws, whole (t :: u :: i :: (us ++ (vs ++ ws))) := by
    intro t u i name ht hu hi us e he vs ss hss
    obtain ⟨ws, hws⟩ := hwhole _ _ (.forLoop ht hu hi he hss)
    exact ⟨ws, by simpa using hws⟩
  have hsource : ∀ {t u i : Token} {name : String}, t.kind = .keyword .forWord →
      u.content = .ident name → i.kind = .keyword .inWord → ∀ us e, Expression us e →
        ∃ vs, whole (t :: u :: i :: (us ++ vs)) := by
    intro t u i name ht hu hi us e he
    obtain ⟨ws, hws⟩ := hloop ht hu hi us e he _ _ (block_sample b false)
    exact ⟨_, hws⟩
  have hin : ∀ {t u : Token} {name : String}, t.kind = .keyword .forWord →
      u.content = .ident name → ∃ vs, whole (t :: u :: (Kind.keyword .inWord).sample :: vs) :=
    fun ht hu => exists_of_append (hsource ht hu (Kind.kind_sample _) _ _ expression_sample)
  have hident : ∀ {t : Token}, t.kind = .keyword .forWord →
      ∃ vs, whole (t :: Kind.ident.sample :: vs) :=
    fun ht => exists_of_cons (hin ht rfl)
  refine token_then (by decide) (.of_sample (exists_of_cons (hident (Kind.kind_sample _))))
    (Nat.le_succ n) h ?_
  intro t ts₁ _ ht h₁
  refine ⟨_, ident_then (.of_sample (hident ht)) (Nat.le_succ n) h₁ ?_⟩
  intro u name ts₂ _ hu h₂
  refine ⟨_, token_then (by decide) (.of_sample (hin ht hu)) (Nat.le_succ n) h₂ ?_⟩
  intro i ts₃ _ hi h₃
  refine ⟨_, hexpr.bind (hsource ht hu hi) (List.forall_mem_nil _) List.not_mem_nil h₃ ?_⟩
  intro us e mid _ he hends hadmits h₄
  have hblock := hloop ht hu hi us e he
  have hbrace : Admits (fun vs => whole (t :: u :: i :: (us ++ vs))) (.symbol .openBrace) := by
    obtain ⟨ws, hws⟩ := hblock _ _ (block_sample b false)
    exact .of_sample ⟨_, hws⟩
  refine ⟨Kind.binaries ++ [.symbol .openBrace],
    isHere_then (fun _ => List.mem_append_right _ List.mem_cons_self) h₄ ?_ ?_,
    fun _ k hk => List.mem_append_left _ hk⟩
  · intro _ hyes
    exact (block_fails hreport hblock (map_error.mp hyes)).bind_left
  · intro hk hno
    have hends' : (firstToken mid).kind ∉ Kind.binaries ++ [.symbol .openBrace] := by
      simp [hends, hk]
    have hadmits' : ∀ k ∈ Kind.binaries ++ [.symbol .openBrace],
        Admits (fun vs => whole (t :: u :: i :: (us ++ vs))) k :=
      List.forall_mem_append.mpr ⟨hadmits, List.forall_mem_singleton.mpr hbrace⟩
    exact refuse_fails (List.append_ne_nil_of_right_ne_nil _ (List.cons_ne_nil _ _)) hends'
      hadmits' hno

/-! ## Functions -/

/-- What completes the parameters behind one of them. -/
abbrev CompletesParameters (whole : List Token → Prop) : Prop :=
  ∀ us names r, MoreParameters us names → r.kind = .symbol .closeParen → ∃ vs, whole (us ++ r :: vs)

theorem nextParameter_fails (hwhole : CompletesParameters whole)
    (h : nextParameter ts = .error err rest) :
    Fails limit nextParameter whole [.symbol .comma, .symbol .closeParen] n ts err rest := by
  have hident : ∀ {t : Token}, t.kind = .symbol .comma →
      ∃ vs, whole (t :: Kind.ident.sample :: vs) := by
    intro t ht
    obtain ⟨vs, hvs⟩ := hwhole _ _ _ (.cons (u := Kind.ident.sample) ht rfl .nil)
      (Kind.kind_sample _)
    exact ⟨_, hvs⟩
  have hcomma : Admits whole (.symbol .comma) :=
    .of_sample (exists_of_cons (hident (Kind.kind_sample _)))
  have hclose : Admits whole (.symbol .closeParen) :=
    .of_sample (hwhole _ _ _ .nil (Kind.kind_sample _))
  refine tokens_then (List.cons_ne_nil _ _) (by decide) List.not_mem_nil ?_ (Nat.le_succ n) h ?_
  · exact List.forall_mem_cons.mpr ⟨hcomma, List.forall_mem_singleton.mpr hclose⟩
  · intro t ts₁ _ _ h₁
    split at h₁
    · next hk =>
      rw [if_pos hk]
      have ht : t.kind = .symbol .comma := by simpa using hk
      exact ⟨_, (ident_fails (.of_sample (hident ht)) (map_error.mp h₁)).bind_left⟩
    · cases h₁

theorem nextParameter_settles {name : String} (h : nextParameter ts = .ok (some name) rest) :
    ∃ us, ts = us ++ rest ∧ us ≠ [] ∧ MoreParameters us [name] ∧
      Settles nextParameter (fun _ => False) us rest (some name) := by
  rcases nextParameter_ok.mp h with ⟨_, _, _, ho⟩ | ⟨t, u, name', rfl, ht, hu, ho⟩
  · cases ho
  · cases ho
    refine ⟨[t, u], rfl, List.cons_ne_nil _ _, .cons ht hu .nil, .of_forall fun rest' => ?_⟩
    exact nextParameter_ok.mpr (Or.inr ⟨t, u, name, rfl, ht, hu, rfl⟩)

theorem MoreParameters.append {us vs : List Token} {names names' : List String}
    (h : MoreParameters us names) (h' : MoreParameters vs names') :
    MoreParameters (us ++ vs) (names ++ names') := by
  induction h with
  | nil => exact h'
  | cons ht hu _ ih => exact .cons ht hu ih

theorem moreParameters_fails (hwhole : CompletesParameters whole)
    (h : collect nextParameter ts = .error err rest) :
    Fails limit (collect nextParameter) whole [.symbol .comma, .symbol .closeParen] n ts err
      rest := by
  refine collect_fails nextParameter_takes (fun whole _ => CompletesParameters whole)
    nextParameter_fails ?_ hwhole h
  intro whole ts name rest hwhole h
  obtain ⟨us, rfl, hne, hus, hs⟩ := nextParameter_settles h
  refine ⟨us, _, rfl, hne, hs, fun _ => False.elim, ?_⟩
  intro vs names r hvs hr
  obtain ⟨ws, hws⟩ := hwhole _ _ _ (MoreParameters.append hus hvs) hr
  exact ⟨ws, by simpa using hws⟩

theorem parameters_fails
    (hwhole : ∀ us names r, Parameters us names → r.kind = .symbol .closeParen →
      ∃ vs, whole (us ++ r :: vs))
    (h : parameters ts = .error err rest) :
    Fails limit parameters whole [.ident, .symbol .closeParen] n ts err rest := by
  have hclose : Admits whole (.symbol .closeParen) :=
    .of_sample (hwhole _ _ _ .nil (Kind.kind_sample _))
  have hident : Admits whole .ident := by
    obtain ⟨vs, hvs⟩ := hwhole _ _ _ (.cons (t := Kind.ident.sample) rfl .nil)
      (Kind.kind_sample _)
    exact .of_sample ⟨_, hvs⟩
  refine accept_then [.ident, .symbol .closeParen] [] rfl ?_ (List.cons_ne_nil _ _) (by decide)
    List.not_mem_nil ?_ (Nat.le_succ n) h ?_
  · intro t
    unfold Token.kind
    cases t.content with
    | symbol s _ => cases s <;> simp [Content.kind]
    | _ => simp [Content.kind]
  · exact List.forall_mem_cons.mpr ⟨hident, List.forall_mem_singleton.mpr hclose⟩
  · intro t first ts₁ _ ht h₁
    split at ht
    · next name hc =>
      cases ht
      refine ⟨_, (moreParameters_fails ?_ (map_error.mp h₁)).bind_left⟩
      intro us names r hus hr
      exact hwhole (t :: us) _ r (.cons hc hus) hr
    · cases ht
      cases h₁
    · cases ht

include hwhole in
theorem function_fails (hreport : ReportsBody limit n body b)
    (h : function body ts = .error err rest) :
    Fails limit (function body) whole [.keyword .fnWord] n ts err rest := by
  have hfunction : ∀ {t u l r : Token} {name : String} {us : List Token} {names : List String},
      t.kind = .keyword .fnWord → u.content = .ident name → l.kind = .symbol .openParen →
      Parameters us names → r.kind = .symbol .closeParen →
      ∀ vs x, Block AllExpressions AllBlocks b true vs x →
        ∃ ws, whole (t :: u :: l :: (us ++ r :: (vs ++ ws))) := by
    rintro t u l r name us names ht hu hl hus hr vs ⟨ss, result⟩ hb
    obtain ⟨ws, hws⟩ := hwhole _ _ (.function ht hu hl hus hr hb)
    exact ⟨ws, by simpa using hws⟩
  have hparameters : ∀ {t u l : Token} {name : String}, t.kind = .keyword .fnWord →
      u.content = .ident name → l.kind = .symbol .openParen → ∀ us names r,
      Parameters us names → r.kind = .symbol .closeParen →
        ∃ vs, whole (t :: u :: l :: (us ++ r :: vs)) := by
    intro t u l name ht hu hl us names r hus hr
    obtain ⟨ws, hws⟩ := hfunction ht hu hl hus hr _ _ (block_sample b true)
    exact ⟨_, hws⟩
  have hopen : ∀ {t u : Token} {name : String}, t.kind = .keyword .fnWord →
      u.content = .ident name → ∃ vs, whole (t :: u :: (Kind.symbol .openParen).sample :: vs) := by
    intro t u name ht hu
    obtain ⟨vs, hvs⟩ := hparameters ht hu (Kind.kind_sample _) _ _ _ .nil (Kind.kind_sample _)
    exact ⟨_, hvs⟩
  have hident : ∀ {t : Token}, t.kind = .keyword .fnWord →
      ∃ vs, whole (t :: Kind.ident.sample :: vs) :=
    fun ht => exists_of_cons (hopen ht rfl)
  refine token_then (by decide) (.of_sample (exists_of_cons (hident (Kind.kind_sample _))))
    (Nat.le_succ n) h ?_
  intro t ts₁ _ ht h₁
  refine ⟨_, ident_then (.of_sample (hident ht)) (Nat.le_succ n) h₁ ?_⟩
  intro u name ts₂ _ hu h₂
  refine ⟨_, token_then (by decide) (.of_sample (hopen ht hu)) (Nat.le_succ n) h₂ ?_⟩
  intro l ts₃ _ hl h₃
  rcases bind_error.mp h₃ with h₄ | ⟨names, mid, hnames, h₄⟩
  · exact ⟨_, (parameters_fails (hparameters ht hu hl) h₄).bind_left⟩
  · obtain ⟨us, r, rfl, hus, hr⟩ := parameters_ok.mp hnames
    have hs : Settles parameters (fun _ => False) (us ++ [r]) mid names := by
      refine .of_forall fun rest' => parameters_ok.mpr ⟨us, r, ?_, hus, hr⟩
      rw [List.append_assoc, List.singleton_append]
    have hbody := hfunction ht hu hl hus hr
    have hf : Fails limit (body true)
        (fun vs => whole (t :: u :: l :: ((us ++ [r]) ++ vs))) [.symbol .openBrace] n mid err
        rest := by
      refine hreport ?_ (map_error.mp h₄)
      intro vs x hx
      obtain ⟨ws, hws⟩ := hbody vs x hx
      exact ⟨ws, by simpa using hws⟩
    have hbound : Fails limit (parameters >>= fun names => do
        let x ← body true
        return .function t.place name names x.statements x.result : Rule Stmt)
        (fun vs => whole (t :: u :: l :: vs)) [] n ((us ++ [r]) ++ mid) err rest :=
      .bind_settled hs (List.append_ne_nil_of_right_ne_nil _ (List.cons_ne_nil _ _)) hf.bind_left
        (Nat.le_add_right _ _)
    exact ⟨[], by simpa using hbound⟩

/-! ## Statements -/

/-- Where a word says which rule reads the statement, the statement fails as that rule does. -/
theorem statement_fails_of_word {r : Rule Stmt} {follow opens : List Kind} {k : Kind}
    (hk : (firstToken ts).kind = k)
    (hr : ∀ ts', (firstToken ts').kind = k → statement expr body follow ts' = r ts')
    (hf : r ts = .error err rest → Fails limit r whole [k] n ts err rest)
    (h : statement expr body follow ts = .error err rest) :
    Fails limit (statement expr body follow) whole opens n ts err rest := by
  rw [hr ts hk] at h
  refine (hf h).congr_opened (List.mem_singleton.mpr hk) ?_
  intro ts' hts _ e rest' he
  rw [hr ts' (by rw [hts, hk])]
  exact he

include hwhole in
/-- A statement that begins like an expression fails as a change of a variable or as an
expression. -/
theorem statement_fails_of_atom (hexpr : Reports limit n expr) {follow opens : List Kind}
    (hk : (firstToken ts).kind ∈ Kind.atomStarts)
    (h : statement expr body follow ts = .error err rest) :
    Fails limit (statement expr body follow) whole opens n ts err rest := by
  rw [statement_of_atom hk] at h
  split at h
  · next hu =>
    obtain ⟨hname, hu⟩ := hu
    obtain ⟨t, ts₁, rfl, -⟩ := exists_cons_of_firstToken (by rw [hname]; nofun)
    obtain ⟨⟨sym, o⟩, hsym⟩ := Option.isSome_iff_exists.mp hu
    have hkind : (firstToken ts₁).kind = .symbol sym := Token.kind_of_update? hsym
    obtain ⟨u, ts₂, rfl, -⟩ := exists_cons_of_firstToken (by rw [hkind]; nofun)
    obtain ⟨name, ht⟩ := Token.exists_name hname
    refine update_fails hwhole hexpr ht hu (fun ts' => ?_) h
    have hupdate : statement expr body follow (t :: u :: ts') =
        if t.kind = .ident ∧ u.update?.isSome = true then update expr (t :: u :: ts')
        else assignmentOrExpression expr (t :: u :: ts') := statement_of_atom hk
    rw [hupdate, if_pos ⟨hname, hu⟩]
  · next hu =>
    refine (assignmentOrExpression_fails hwhole hexpr h).congr_opened hk ?_
    intro ts' hts hnext e rest' he
    rw [statement_of_atom (by rwa [hts]), if_neg]
    · exact he
    · -- behind a name no operator that changes it is ahead, as none was
      rw [hts]
      rintro ⟨hname, hu'⟩
      rw [← Token.kind_mem_updates] at hu hu'
      rcases hnext with hnext | hnext
      · exact hu ⟨hname, hnext ▸ hu'⟩
      · rw [hname] at hnext
        exact hnext (List.mem_append_right _ hu')

include hwhole in
/-- A statement asks for what may begin one or what may follow, and fails as what it is. -/
theorem statement_fails (hexpr : Reports limit n expr) (hreads : Reads expr (Q b))
    (hbody : ReadsBody body Q B b) (hreport : ReportsBody limit n body b) {follow : List Kind}
    (hfollow : ∀ k ∈ follow, Admits whole k) (hends : (firstToken ts).kind ∉ follow)
    (h : statement expr body follow ts = .error err rest) :
    Fails limit (statement expr body follow) whole (Kind.statementStarts ++ follow) n ts err
      rest := by
  by_cases hstarts : (firstToken ts).kind ∈ Kind.statementStarts
  · rcases List.mem_append.mp hstarts with hatom | hword
    · exact statement_fails_of_atom hwhole hexpr hatom h
    · simp only [List.mem_cons, List.not_mem_nil, or_false] at hword
      rcases hword with hk | hk | hk | hk | hk
      · exact statement_fails_of_word hk (fun ts' hk' => by rw [statement_eq, hk'])
          (load_fails hwhole) h
      · exact statement_fails_of_word hk (fun ts' hk' => by rw [statement_eq, hk'])
          (conditional_fails hwhole hexpr hreads hbody hreport) h
      · exact statement_fails_of_word hk (fun ts' hk' => by rw [statement_eq, hk'])
          (whileLoop_fails hwhole hexpr hreads hbody hreport) h
      · exact statement_fails_of_word hk (fun ts' hk' => by rw [statement_eq, hk'])
          (forLoop_fails hwhole hexpr hreport) h
      · exact statement_fails_of_word hk (fun ts' hk' => by rw [statement_eq, hk'])
          (function_fails hwhole hreport) h
  · have hends' : (firstToken ts).kind ∉ Kind.statementStarts ++ follow := by
      simp [hstarts, hends]
    have hadmits : ∀ k ∈ Kind.statementStarts ++ follow, Admits whole k := by
      refine List.forall_mem_append.mpr ⟨fun k hk => ?_, hfollow⟩
      obtain ⟨vs, s, hs⟩ := exists_statement b hk
      obtain ⟨ws, hws⟩ := hwhole _ _ hs
      exact .of_sample ⟨_, hws⟩
    rw [statement_of_other hstarts] at h
    cases h
    refine .at_start hends' (List.append_ne_nil_of_left_ne_nil (List.cons_ne_nil _ _) _) hadmits ?_
    intro ts' hts
    exact statement_of_other fun hm => hts (List.mem_append_left _ hm)

end ScriptReader.Grammar
