import ScriptReader.Proofs.StatementFailures

/-!
# Programs that cannot be read

Statements in a row fail in one of them, and a body fails in its statements or behind the
expression that it returns.  `reports_body` puts this together by induction on the number of
levels: the body of a block is given the levels that are left, and a block without a level
left is refused behind its brace.

A closed block leaves open whether an `elif` or an `else` follows.  No rule asks for them behind
a statement, so they are overlooked there, and what is read does not change as long as neither
of them is ahead (`Statement.settledBehind`).

Main statements:

* `reports_body`: the rule for bodies reports its failures;
* `program_fails`: so does the rule for programs, where the whole is a script and its end mark.
-/

namespace ScriptReader.Grammar

open Rule Phrase

variable {expr : (alternatives : List Kind) → Rule Expr} {body : (returns : Bool) → Rule Body}
variable {Q : Nat → Expr → Prop} {B : Nat → Prop} {b : Nat} {limit : Int} {n : Nat}
variable {whole : List Token → Prop} {ts rest : List Token} {err : Error}

/-! ## What is overlooked behind a statement -/

section

variable {E : Nat → List Token → Expr → Prop} {us vs : List Token}

theorem Block.overlooked {returns : Bool} {x : Body} (h : Block E B b returns us x) :
    overlooked us = [.keyword .elifWord, .keyword .elseWord] := by
  cases h with
  | mk _ _ _ _ hr => rw [overlooked_concat, hr]; rfl

theorem Clauses.overlooked {cs : List Clause} (h : Clauses E B b us cs)
    (hv : overlooked vs = [.keyword .elifWord, .keyword .elseWord]) :
    ScriptReader.overlooked (vs ++ us) = [.keyword .elifWord, .keyword .elseWord] := by
  induction cs generalizing us vs with
  | nil =>
    cases h
    rwa [List.append_nil]
  | cons c cs ih =>
    cases h with
    | @cons _ t ws xs ys e ss _ _ _ hss hcs =>
      rw [← List.append_assoc]
      refine ih hcs ?_
      rw [← List.append_assoc, overlooked_append (Block.ne_nil hss), Block.overlooked hss]

/-- What does not carry on a statement resembles nothing that does. -/
theorem Statement.settledBehind {s : Stmt} {rest' : List Token} (h : Statement E B b us s)
    (hs : SettledBehind s rest) (hr : Resembles (fun _ => False) us rest rest') :
    SettledBehind s rest' := by
  cases h with
  | @conditional _ t us vs ws xs e ss cs last _ _ hss hcs hl =>
    cases hl with
    | some _ _ => trivial
    | none =>
      have hover : overlooked (t :: us ++ vs ++ ws ++ []) =
          [.keyword .elifWord, .keyword .elseWord] := by
        rw [List.append_nil]
        refine Clauses.overlooked hcs ?_
        rw [overlooked_append (Block.ne_nil hss), Block.overlooked hss]
      rcases hr with hk | ⟨-, hk⟩
      · show Settled rest'
        unfold Settled
        rw [hk]
        exact hs
      · rw [hover] at hk
        simp only [List.mem_cons, List.not_mem_nil, or_false, not_or] at hk
        exact hk
  | _ => trivial

end

/-! ## Statements in a row -/

theorem nextStatement_error {follow : List Kind} :
    nextStatement expr body follow ts = .error err rest ↔
      (firstToken ts).kind ∉ follow ∧ statement expr body follow ts = .error err rest := by
  have hhere : here ts = .ok (firstToken ts) ts := rfl
  unfold nextStatement
  rw [bind_of_ok hhere]
  split
  · next hk =>
    constructor
    · intro h
      cases h
    · rintro ⟨hk', -⟩
      exact absurd hk hk'
  · next hk => rw [map_error, and_iff_right hk]

/-- What is known in front of a statement: each kind that ends the statements may stand behind
more of them. -/
abbrev CompletesStatements (b : Nat) (follow : List Kind) (whole : List Token → Prop) : Prop :=
  ∀ us ss, Statements AllExpressions AllBlocks b us ss →
    ∀ k ∈ follow, Admits (fun vs => whole (us ++ vs)) k

variable {follow : List Kind}

theorem nextStatement_fails (hexpr : Reports limit n expr) (hreads : Reads expr (Q b))
    (hbody : ReadsBody body Q B b) (hreport : ReportsBody limit n body b) (hne : follow ≠ [])
    (hwhole : CompletesStatements b follow whole)
    (h : nextStatement expr body follow ts = .error err rest) :
    Fails limit (nextStatement expr body follow) whole (Kind.statementStarts ++ follow) n ts err
      rest := by
  obtain ⟨hends, h⟩ := nextStatement_error.mp h
  have hstatement : ∀ us s, Statement AllExpressions AllBlocks b us s → ∃ vs, whole (us ++ vs) := by
    intro us s hs
    obtain ⟨k, hk⟩ := List.exists_mem_of_ne_nil follow hne
    obtain ⟨t, vs, -, hvs⟩ := hwhole _ _ (.cons hs .nil) k hk
    exact ⟨_, by simpa using hvs⟩
  have hf := statement_fails hstatement hexpr hreads hbody hreport (hwhole [] [] .nil) hends h
  refine hf.congr fun ts' hts e rest' he => nextStatement_error.mpr ⟨?_, he⟩
  rcases hts with ⟨-, hk⟩ | hts
  · exact fun hm => hk (List.mem_append_right _ hm)
  · rwa [hts]

theorem nextStatement_settles (hreads : Reads expr (Q b)) (hbody : ReadsBody body Q B b) {s : Stmt}
    (hfollow : EndStatements follow) (h : nextStatement expr body follow ts = .ok (some s) rest) :
    ∃ us, ts = us ++ rest ∧ us ≠ [] ∧ Statement AllExpressions AllBlocks b us s ∧
      Settles (nextStatement expr body follow) (fun _ => False) us rest (some s) := by
  rcases nextStatement_ok.mp h with ⟨_, ho, _⟩ | ⟨_, s', hs, ho⟩
  · cases ho
  · cases ho
    obtain ⟨us, rfl, hus, hbehind⟩ := statement_sound hreads hbody hs
    obtain ⟨t, vs, rfl, ht⟩ := hus.opens
    refine ⟨_, rfl, List.cons_ne_nil _ _, hus.of_having, id, fun rest' hr => ?_⟩
    have hbehind' := Statement.settledBehind hus hbehind hr
    refine nextStatement_ok.mpr (Or.inr ⟨fun hm => (hfollow _ hm).1 ht, s, ?_, rfl⟩)
    exact statement_complete hreads hbody hus hbehind'

theorem statements_fail (hexpr : Reports limit n expr) (hreads : Reads expr (Q b))
    (hbody : ReadsBody body Q B b) (hreport : ReportsBody limit n body b) (hne : follow ≠ [])
    (hfollow : EndStatements follow) (hwhole : CompletesStatements b follow whole)
    (h : collect (nextStatement expr body follow) ts = .error err rest) :
    Fails limit (collect (nextStatement expr body follow)) whole (Kind.statementStarts ++ follow) n
      ts err rest := by
  refine collect_fails (nextStatement_takes hreads hbody)
    (fun whole _ => CompletesStatements b follow whole)
    (nextStatement_fails hexpr hreads hbody hreport hne) ?_ hwhole h
  intro whole ts s rest hwhole h
  obtain ⟨us, rfl, hne, hus, hs⟩ := nextStatement_settles hreads hbody hfollow h
  refine ⟨us, _, rfl, hne, hs, fun _ => False.elim, ?_⟩
  intro vs ss hss k hk
  simpa only [List.append_assoc] using hwhole _ _ (.cons hus hss) k hk

theorem statements_settle (hreads : Reads expr (Q b)) (hbody : ReadsBody body Q B b)
    (hfollow : EndStatements follow) {ss : List Stmt}
    (h : collect (nextStatement expr body follow) ts = .ok ss rest) :
    ∃ us, ts = us ++ rest ∧ Statements AllExpressions AllBlocks b us ss ∧
      Settles (collect (nextStatement expr body follow)) (· ∉ follow) us rest ss := by
  obtain ⟨us, rfl, hus, hk⟩ := (statements_ok hreads hbody hfollow).mp h
  refine ⟨us, rfl, hus.of_having, not_not_intro hk, fun rest' hr => ?_⟩
  have hk' := hr.not_known (not_not_intro hk)
  exact (statements_ok hreads hbody hfollow).mpr ⟨us, rfl, hus, Classical.not_not.mp hk'⟩

/-! ## Bodies -/

theorem returned_fails (hexpr : Reports limit n expr) {returns : Bool}
    (hwhole : ∀ us result, Result AllExpressions b returns us result → ∃ vs, whole (us ++ vs))
    (h : returned expr returns ts = .error err rest) :
    Fails limit (returned expr returns) whole [] n ts err rest := by
  refine isHere_then (fun hne => absurd rfl hne) h ?_ ?_
  · intro hk h₁
    cases returns with
    | false => cases h₁
    | true =>
      obtain ⟨t, ts₁, rfl, -⟩ := exists_cons_of_firstToken (by rw [hk]; nofun)
      have hf : Fails limit (do let e ← expr []; endExpr []; return some e : Rule (Option Expr))
          (fun vs => whole (t :: vs)) Kind.atomStarts n ts₁ err rest := by
        refine hexpr.ended (fun us e he r hr => ?_) h₁
        have ht : t.kind = .keyword .returnWord := hk
        obtain ⟨vs, hvs⟩ := hwhole _ _ (.some ht he hr)
        exact ⟨vs, by simpa using hvs⟩
      exact hf.behind_cons (fun _ _ _ he => he) (Nat.le_succ n)
  · intro _ h₁
    cases returns <;> cases h₁

/-- A body returns nothing, and then its word is not ahead, or it has read the word and an
expression, whatever follows. -/
theorem returned_settles (hreads : Reads expr (Q b)) {returns : Bool} {result : Option Expr}
    (h : returned expr returns ts = .ok result rest) :
    (result = none ∧ rest = ts ∧ (returns = true → (firstToken ts).kind ≠ .keyword .returnWord)) ∨
      ∃ us, ts = us ++ rest ∧ us ≠ [] ∧ Result AllExpressions b returns us result ∧
        Settles (returned expr returns) (fun _ => False) us rest result := by
  obtain ⟨us, rfl, hus, hword⟩ := returned_sound hreads h
  cases result with
  | none =>
    cases hus
    exact Or.inl ⟨rfl, rfl, hword rfl⟩
  | some e =>
    have hne : us ≠ [] := by
      cases hus
      exact List.cons_ne_nil _ _
    exact Or.inr ⟨us, rfl, hne, hus.of_having,
      .of_forall fun rest' => returned_complete hreads hus nofun⟩

theorem bodyEnd_fails (hexpr : Reports limit n expr) (hreads : Reads expr (Q b)) {returns : Bool}
    {β : Type} {g : Option Expr → β}
    (hwhole : ∀ us result, Result AllExpressions b returns us result →
      ∀ r, r.kind = .symbol .closeBrace → ∃ vs, whole (us ++ r :: vs))
    (hends : (firstToken ts).kind ∈ bodyEnd returns)
    (h : (do let result ← returned expr returns; let _ ← token [.symbol .closeBrace] []
             return g result : Rule β) ts = .error err rest) :
    Fails limit (do let result ← returned expr returns; let _ ← token [.symbol .closeBrace] []
                    return g result : Rule β) whole [] n ts err rest := by
  have hresult : ∀ us result, Result AllExpressions b returns us result →
      ∃ vs, whole (us ++ vs) := by
    intro us result hr
    obtain ⟨vs, hvs⟩ := hwhole us result hr _ (Kind.kind_sample _)
    exact ⟨_, hvs⟩
  rcases bind_error.mp h with h₁ | ⟨result, mid, hresult', h₁⟩
  · exact (returned_fails hexpr hresult h₁).bind_left
  · have hclose := map_error.mp h₁
    rcases returned_settles hreads hresult' with ⟨-, rfl, hword⟩ | ⟨us, rfl, hne, hus, hs⟩
    · -- without an expression that is returned the brace is ahead
      have hbrace : (firstToken mid).kind = .symbol .closeBrace := by
        cases returns with
        | false => simpa [bodyEnd] using hends
        | true => simpa [bodyEnd, hword rfl] using hends
      obtain ⟨r, mid', rfl, -⟩ := exists_cons_of_firstToken (by rw [hbrace]; nofun)
      have hr : r.kind = .symbol .closeBrace := hbrace
      have hread : token [.symbol .closeBrace] [] (r :: mid') = .ok r mid' :=
        (token_one_ok (by decide)).mpr ⟨rfl, hr⟩
      rw [hread] at hclose
      cases hclose
    · have hbrace : Admits (fun vs => whole (us ++ vs)) (.symbol .closeBrace) :=
        .of_sample (hwhole us result hus _ (Kind.kind_sample _))
      have hf : Fails limit (token [.symbol .closeBrace] []) (fun vs => whole (us ++ vs))
          [.symbol .closeBrace] n mid err rest :=
        token_fails (by decide) List.not_mem_nil hbrace (List.forall_mem_nil _) hclose
      exact .bind_settled hs hne hf.bind_left (Nat.le_add_right _ _)

variable (limit)

theorem reportsBody_zero (b : Nat) : ReportsBody limit 0 (Grammar.body limit 0) b := by
  intro whole returns ts rest err hwhole h
  have hopen : Admits whole (.symbol .openBrace) :=
    .of_sample (exists_of_append (hwhole _ _ (block_sample b returns)))
  rw [Grammar.body] at h ⊢
  refine token_then (by decide) hopen (Nat.le_succ 0) h ?_
  intro l ts₁ _ hl h₁
  cases h₁
  obtain ⟨vs, hvs⟩ := hwhole _ _ (.mk (r := (Kind.symbol .closeBrace).sample) trivial hl .nil .none
    rfl)
  have hclose : Admits (fun vs => whole (l :: vs)) (.symbol .closeBrace) := .of_sample ⟨vs, hvs⟩
  exact ⟨[], .at_limit hclose fun _ _ => rfl⟩

theorem reportsBody_succ {levels d : Nat}
    (hreads : Reads (expression limit levels) (Fits d (b + 1)))
    (hbody : ReadsBody (Grammar.body limit levels) (Fits d) (· < d) (b + 1))
    (hreport : ReportsBody limit levels (Grammar.body limit levels) (b + 1)) :
    ReportsBody limit (levels + 1) (Grammar.body limit (levels + 1)) b := by
  intro whole returns ts rest err hwhole h
  have hexpr := reports_expression limit levels
  have hopen : Admits whole (.symbol .openBrace) :=
    .of_sample (exists_of_append (hwhole _ _ (block_sample b returns)))
  rw [Grammar.body] at h ⊢
  refine token_then (by decide) hopen (Nat.le_refl _) h ?_
  intro l ts₁ _ hl h₁
  have hblock : ∀ {us : List Token} {ss : List Stmt},
      Statements AllExpressions AllBlocks (b + 1) us ss →
      ∀ vs result, Result AllExpressions (b + 1) returns vs result →
      ∀ r, r.kind = .symbol .closeBrace → ∃ ws, whole (l :: (us ++ (vs ++ r :: ws))) := by
    intro us ss hss vs result hresult r hr
    obtain ⟨ws, hws⟩ := hwhole _ _ (.mk trivial hl hss hresult hr)
    exact ⟨ws, by simpa using hws⟩
  have hfollow : CompletesStatements (b + 1) (bodyEnd returns) (fun vs => whole (l :: vs)) := by
    intro us ss hss k hk
    have hbrace : Admits (fun vs => whole (l :: (us ++ vs))) (.symbol .closeBrace) :=
      .of_sample (hblock hss [] none .none _ (Kind.kind_sample _))
    cases returns with
    | false =>
      obtain rfl := List.mem_singleton.mp hk
      exact hbrace
    | true =>
      rcases List.mem_cons.mp hk with rfl | hk
      · exact hbrace
      · obtain rfl := List.mem_singleton.mp hk
        obtain ⟨ws, hws⟩ := hblock hss _ _ (.some (Kind.kind_sample (.keyword .returnWord))
          expression_sample (Kind.kind_sample (.symbol .semicolon))) _ (Kind.kind_sample _)
        exact .of_sample ⟨_, hws⟩
  have hends := endStatements_bodyEnd returns
  have hne : bodyEnd returns ≠ [] := by
    cases returns <;> exact List.cons_ne_nil _ _
  rcases bind_error.mp h₁ with h₂ | ⟨ss, mid, hss, h₂⟩
  · exact ⟨_, (statements_fail hexpr hreads hbody hreport hne hends hfollow h₂).bind_left⟩
  · obtain ⟨us, rfl, hus, hs⟩ := statements_settle hreads hbody hends hss
    have hends' : (firstToken mid).kind ∈ bodyEnd returns := Classical.not_not.mp hs.stops
    have hf : Fails limit _ (fun vs => whole (l :: (us ++ vs))) [] levels mid err rest :=
      bodyEnd_fails hexpr hreads (hblock hus) hends' h₂
    exact ⟨[], .bind_right hs hf (fun hne => absurd rfl hne) (fun _ => rfl) (Nat.le_add_right _ _)⟩

/-- The rule for bodies reports its failures. -/
theorem reports_body {levels d b : Nat} (h : b + levels = d) :
    ReportsBody limit levels (Grammar.body limit levels) b := by
  induction levels generalizing b with
  | zero => exact reportsBody_zero limit b
  | succ levels ih =>
    have hb : b + 1 + levels = d := by omega
    intro whole returns ts rest err
    exact reportsBody_succ limit (reads_expression_fits limit hb) (reads_body limit hb) (ih hb)

/-! ## Programs -/

/-- The tokens of a script and the mark that closes it. -/
def Closed (ts : List Token) : Prop :=
  ∃ us e p, ts = us ++ [e] ∧ e.isEnd = true ∧ Script us p

/-- The rule for programs fails at one of the statements.  A whole is a closed script. -/
theorem program_fails {levels : Nat} (h : Grammar.program limit levels ts = .error err rest) :
    Fails limit (Grammar.program limit levels) Closed (Kind.statementStarts ++ [.eof]) levels ts
      err rest := by
  have hb : (0 : Nat) + levels = levels := Nat.zero_add levels
  have hclosed : CompletesStatements 0 [.eof] Closed := by
    intro us ss hss k hk
    obtain rfl := List.mem_singleton.mp hk
    exact .of_sample ⟨[], us, _, _, rfl, rfl, .mk hss⟩
  exact (statements_fail (reports_expression limit levels) (reads_expression_fits limit hb)
    (reads_body limit hb) (reports_body limit hb) (List.cons_ne_nil _ _)
    (by unfold EndStatements; decide) hclosed (map_error.mp h)).bind_left

end ScriptReader.Grammar
