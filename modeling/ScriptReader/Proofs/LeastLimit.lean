import ScriptReader.Proofs.LimitCuts
import ScriptReader.Proofs.Need

/-!
# The least limit of a script

What a script needs is the least limit that it is read with.  A script that fits in some levels
needs no more, and it fits in all the levels that it needs.  The need is one number: the tokens of
a script can be taken apart in one way only, since each rule of the grammar is a function.

Main statements:

* `Phrase.StatementsNeed.unique`: statements need one number of levels;
* `Session.least_limit`: a script is read with the limits from its need on, and all smaller
  limits are used up.
-/

namespace ScriptReader

theorem add_greatest_le_iff {b d : Nat} {ns : List Nat} (hb : b ≤ d) :
    b + greatest ns ≤ d ↔ ∀ n ∈ ns, b + n ≤ d := by
  have hle : greatest ns ≤ d - b ↔ ∀ n ∈ ns, n ≤ d - b := greatest_le_iff
  constructor
  · intro h n hn
    have hn' := hle.mp (by omega) n hn
    omega
  · intro h
    have h' := hle.mpr fun n hn => by
      have hn' := h n hn
      omega
    omega

open Grammar Rule

namespace Phrase

variable {d : Nat}

/-! ## What fits in some levels -/

theorem Having.add_need_le {b : Nat} {us : List Token} {e : Expr}
    (h : Having (Fits d) b us e) : b + e.need ≤ d := by
  rw [h.1.need_eq_levels]
  exact h.2

theorem Expression.having {b : Nat} {us : List Token} {e : Expr} (h : Expression us e)
    (hd : b + e.need ≤ d) : Having (Fits d) b us e := by
  rw [h.need_eq_levels] at hd
  exact ⟨h, hd⟩

theorem Condition.add_need_le {b : Nat} {us : List Token} {e : Expr}
    (h : Condition (Having (Fits d)) b us e) : b + e.need ≤ d := by
  cases h with
  | mk _ he _ => exact he.add_need_le

theorem Condition.having {b c : Nat} {us : List Token} {e : Expr}
    (h : Condition AllExpressions c us e) (hd : b + e.need ≤ d) :
    Condition (Having (Fits d)) b us e := by
  cases h with
  | mk hl he hr => exact .mk hl (he.having hd) hr

theorem Result.add_need_le {b : Nat} {returns : Bool} {us : List Token} {result : Option Expr}
    (h : Result (Having (Fits d)) b returns us result) :
    ∀ n ∈ result.toList.map Expr.need, b + n ≤ d := by
  cases h with
  | none => exact List.forall_mem_nil _
  | some _ he _ => exact List.forall_mem_singleton.mpr he.add_need_le

theorem Result.having {b c : Nat} {returns : Bool} {us : List Token} {result : Option Expr}
    (h : Result AllExpressions c returns us result)
    (hd : ∀ n ∈ result.toList.map Expr.need, b + n ≤ d) :
    Result (Having (Fits d)) b returns us result := by
  cases h with
  | none => exact .none
  | some ht he hr => exact .some ht (he.having (hd _ List.mem_cons_self)) hr

mutual

/-- What fits in some levels needs no more. -/
theorem Statement.exists_needs {b : Nat} {us : List Token} {s : Stmt} (hb : b ≤ d)
    (h : Statement (Having (Fits d)) (· < d) b us s) :
    ∃ n, StatementNeeds us s n ∧ b + n ≤ d := by
  match h with
  | .load ht hu hr => exact ⟨0, .load ht hu hr, hb⟩
  | .assignment ht hq hv hr =>
    refine ⟨_, .assignment ht.1 hq hv.1 hr, (add_greatest_le_iff hb).mpr ?_⟩
    simp [ht.add_need_le, hv.add_need_le]
  | .expression he hr => exact ⟨_, .expression he.1 hr, he.add_need_le⟩
  | .update ht hu hs he hr => exact ⟨_, .update ht hu hs he.1 hr, he.add_need_le⟩
  | .step ht hu hr => exact ⟨0, .step ht hu hr, hb⟩
  | .conditional ht he hss hcs hl =>
    obtain ⟨m, hm, hmd⟩ := hss.exists_needs
    obtain ⟨k, hk, hkd⟩ := hcs.exists_needs hb
    obtain ⟨l, hl', hld⟩ := hl.exists_needs hb
    refine ⟨_, .conditional ht he.of_having hm hk hl', (add_greatest_le_iff hb).mpr ?_⟩
    simp [he.add_need_le, hmd, hkd, hld]
  | .whileLoop ht he hss =>
    obtain ⟨m, hm, hmd⟩ := hss.exists_needs
    refine ⟨_, .whileLoop ht he.of_having hm, (add_greatest_le_iff hb).mpr ?_⟩
    simp [he.add_need_le, hmd]
  | .forLoop ht hu hi he hss =>
    obtain ⟨m, hm, hmd⟩ := hss.exists_needs
    refine ⟨_, .forLoop ht hu hi he.1 hm, (add_greatest_le_iff hb).mpr ?_⟩
    simp [he.add_need_le, hmd]
  | .function ht hu hl hn hr hx =>
    obtain ⟨m, hm, hmd⟩ := hx.exists_needs
    exact ⟨m, .function ht hu hl hn hr hm, hmd⟩

theorem Statements.exists_needs {b : Nat} {us : List Token} {ss : List Stmt} (hb : b ≤ d)
    (h : Statements (Having (Fits d)) (· < d) b us ss) :
    ∃ n, StatementsNeed us ss n ∧ b + n ≤ d := by
  match h with
  | .nil => exact ⟨0, .nil, hb⟩
  | .cons hs hss =>
    obtain ⟨m, hm, hmd⟩ := hs.exists_needs hb
    obtain ⟨n, hn, hnd⟩ := hss.exists_needs hb
    exact ⟨max m n, .cons hm hn, by omega⟩

theorem Block.exists_needs {b : Nat} {returns : Bool} {us : List Token} {x : Body}
    (h : Block (Having (Fits d)) (· < d) b returns us x) :
    ∃ n, BlockNeeds returns us x n ∧ b + n ≤ d := by
  match h with
  | .mk hb hl hss hres hr =>
    obtain ⟨n, hn, hnd⟩ := hss.exists_needs (Nat.succ_le_of_lt hb)
    refine ⟨_, .mk hl hn hres.of_having hr, ?_⟩
    rw [← Nat.add_assoc, add_greatest_le_iff (Nat.succ_le_of_lt hb)]
    exact List.forall_mem_cons.mpr ⟨hnd, hres.add_need_le⟩

theorem Clauses.exists_needs {b : Nat} {us : List Token} {cs : List Clause} (hb : b ≤ d)
    (h : Clauses (Having (Fits d)) (· < d) b us cs) :
    ∃ n, ClausesNeed us cs n ∧ b + n ≤ d := by
  match h with
  | .nil => exact ⟨0, .nil, hb⟩
  | .cons ht he hss hcs =>
    obtain ⟨m, hm, hmd⟩ := hss.exists_needs
    obtain ⟨n, hn, hnd⟩ := hcs.exists_needs hb
    refine ⟨_, .cons ht he.of_having hm hn, (add_greatest_le_iff hb).mpr ?_⟩
    simp [he.add_need_le, hmd, hnd]

theorem Otherwise.exists_needs {b : Nat} {us : List Token} {last : Option (List Stmt)}
    (hb : b ≤ d) (h : Otherwise (Having (Fits d)) (· < d) b us last) :
    ∃ n, OtherwiseNeeds us last n ∧ b + n ≤ d := by
  match h with
  | .none => exact ⟨0, .none, hb⟩
  | .some ht hss =>
    obtain ⟨m, hm, hmd⟩ := hss.exists_needs
    exact ⟨m, .some ht hm, hmd⟩

end

mutual

/-- A statement fits in all levels that it needs. -/
theorem StatementNeeds.fits {b : Nat} {us : List Token} {s : Stmt} {n : Nat}
    (h : StatementNeeds us s n) (hd : b + n ≤ d) :
    Statement (Having (Fits d)) (· < d) b us s := by
  have hb : b ≤ d := Nat.le_of_add_right_le hd
  match h with
  | .load ht hu hr => exact .load ht hu hr
  | .assignment ht hq hv hr =>
    simp only [add_greatest_le_iff hb, List.forall_mem_cons] at hd
    exact .assignment (ht.having hd.1) hq (hv.having hd.2.1) hr
  | .expression he hr => exact .expression (he.having hd) hr
  | .update ht hu hs he hr => exact .update ht hu hs (he.having hd) hr
  | .step ht hu hr => exact .step ht hu hr
  | .conditional ht he hss hcs hl =>
    simp only [add_greatest_le_iff hb, List.forall_mem_cons] at hd
    exact .conditional ht (he.having hd.1) (hss.fits hd.2.1) (hcs.fits hd.2.2.1)
      (hl.fits hd.2.2.2.1)
  | .whileLoop ht he hss =>
    simp only [add_greatest_le_iff hb, List.forall_mem_cons] at hd
    exact .whileLoop ht (he.having hd.1) (hss.fits hd.2.1)
  | .forLoop ht hu hi he hss =>
    simp only [add_greatest_le_iff hb, List.forall_mem_cons] at hd
    exact .forLoop ht hu hi (he.having hd.1) (hss.fits hd.2.1)
  | .function ht hu hl hn hr hx => exact .function ht hu hl hn hr (hx.fits hd)

theorem StatementsNeed.fits {b : Nat} {us : List Token} {ss : List Stmt} {n : Nat}
    (h : StatementsNeed us ss n) (hd : b + n ≤ d) :
    Statements (Having (Fits d)) (· < d) b us ss := by
  match h with
  | .nil => exact .nil
  | .cons hs hss => exact .cons (hs.fits (by omega)) (hss.fits (by omega))

theorem BlockNeeds.fits {b : Nat} {returns : Bool} {us : List Token} {x : Body} {n : Nat}
    (h : BlockNeeds returns us x n) (hd : b + n ≤ d) :
    Block (Having (Fits d)) (· < d) b returns us x := by
  match h with
  | .mk hl hss hres hr =>
    have hb : b < d := by omega
    rw [← Nat.add_assoc, add_greatest_le_iff (Nat.succ_le_of_lt hb), List.forall_mem_cons] at hd
    exact .mk hb hl (hss.fits hd.1) (hres.having hd.2) hr

theorem ClausesNeed.fits {b : Nat} {us : List Token} {cs : List Clause} {n : Nat}
    (h : ClausesNeed us cs n) (hd : b + n ≤ d) :
    Clauses (Having (Fits d)) (· < d) b us cs := by
  match h with
  | .nil => exact .nil
  | .cons ht he hss hcs =>
    simp only [add_greatest_le_iff (Nat.le_of_add_right_le hd), List.forall_mem_cons] at hd
    exact .cons ht (he.having hd.1) (hss.fits hd.2.1) (hcs.fits hd.2.2.1)

theorem OtherwiseNeeds.fits {b : Nat} {us : List Token} {last : Option (List Stmt)} {n : Nat}
    (h : OtherwiseNeeds us last n) (hd : b + n ≤ d) :
    Otherwise (Having (Fits d)) (· < d) b us last := by
  match h with
  | .none => exact .none
  | .some ht hss => exact .some ht (hss.fits hd)

end

end Phrase

/-! ## One way to take tokens apart -/

/-- What a rule takes from the front of some tokens, it takes in one way. -/
theorem Rule.append_inj {α : Type} {rule : Rule α} {a a' : α} {us us' rest rest' : List Token}
    (heq : us ++ rest = us' ++ rest') (h : rule (us ++ rest) = .ok a rest)
    (h' : rule (us' ++ rest') = .ok a' rest') : us = us' ∧ rest = rest' := by
  rw [heq, h'] at h
  cases h
  exact ⟨List.append_cancel_right heq, rfl⟩

namespace Phrase

variable {us us' rest rest' : List Token}

theorem Expression.append_inj {e e' : Expr} (h : Expression us e) (h' : Expression us' e')
    (hr : Stops rest) (hr' : Stops rest') (heq : us ++ rest = us' ++ rest') :
    us = us' ∧ rest = rest' := by
  have hread := reads_expression 0 (max e.levels e'.levels)
  exact Rule.append_inj heq (hread.complete [] rest h (Nat.le_max_left _ _) hr)
    (hread.complete [] rest' h' (Nat.le_max_right _ _) hr')

/-- An expression ends at a token of a kind that does not go on with it. -/
theorem Expression.append_cons_inj {e e' : Expr} {k : Kind} {t t' : Token}
    (h : Expression us e) (h' : Expression us' e') (ht : t.kind = k) (ht' : t'.kind = k)
    (hk : k ∉ Kind.binaries ∧ k ≠ .symbol .openParen ∧ k ≠ .symbol .openBracket)
    (heq : us ++ t :: rest = us' ++ t' :: rest') : us = us' ∧ t = t' ∧ rest = rest' := by
  have hinj := h.append_inj h' (stops_of_kind ht hk) (stops_of_kind ht' hk) heq
  exact ⟨hinj.1, List.cons.inj hinj.2⟩

theorem Condition.append_inj {b b' : Nat} {e e' : Expr} (h : Condition AllExpressions b us e)
    (h' : Condition AllExpressions b' us' e') (heq : us ++ rest = us' ++ rest') :
    us = us' ∧ rest = rest' := by
  cases h with
  | @mk l r us e hl he hr =>
    cases h' with
    | @mk l' r' us' e' hl' he' hr' =>
      simp only [List.append_assoc, List.cons_append, List.nil_append, List.cons.injEq] at heq
      obtain ⟨rfl, heq⟩ := heq
      obtain ⟨rfl, rfl, rfl⟩ := he.append_cons_inj he' hr hr' (by decide) heq
      exact ⟨rfl, rfl⟩

theorem Parameters.append_inj {names names' : List String} {r r' : Token}
    (h : Parameters us names) (h' : Parameters us' names') (hr : r.kind = .symbol .closeParen)
    (hr' : r'.kind = .symbol .closeParen) (heq : us ++ r :: rest = us' ++ r' :: rest') :
    us = us' ∧ rest = rest' := by
  have heq' : us ++ [r] ++ rest = us' ++ [r'] ++ rest' := by simpa using heq
  have hinj := Rule.append_inj heq' (parameters_ok.mpr ⟨us, r, by simp, h, hr⟩)
    (parameters_ok.mpr ⟨us', r', by simp, h', hr'⟩)
  exact ⟨(List.append_inj' hinj.1 rfl).1, hinj.2⟩

theorem BlockNeeds.append_inj {returns : Bool} {x x' : Body} {n n' : Nat}
    (h : BlockNeeds returns us x n) (h' : BlockNeeds returns us' x' n')
    (heq : us ++ rest = us' ++ rest') : us = us' ∧ rest = rest' := by
  have hread := @reads_body 0 (n + n') (n + n') 0 (Nat.zero_add _)
  exact Rule.append_inj heq (hread.mpr ⟨us, rfl, h.fits (by omega)⟩)
    (hread.mpr ⟨us', rfl, h'.fits (by omega)⟩)

theorem StatementNeeds.append_inj {s s' : Stmt} {n n' : Nat} (h : StatementNeeds us s n)
    (h' : StatementNeeds us' s' n') (hr : Settled rest) (hr' : Settled rest')
    (heq : us ++ rest = us' ++ rest') : us = us' ∧ rest = rest' := by
  have hd : 0 + (n + n') = n + n' := Nat.zero_add _
  have hread := fun {vs xs : List Token} {s : Stmt} => @statement_complete _ _ _ _ _
    (reads_expression_fits 0 hd) (reads_body 0 hd) [] vs xs s
  exact Rule.append_inj heq (hread (h.fits (by omega)) (hr.behind s))
    (hread (h'.fits (by omega)) (hr'.behind s'))

theorem StatementsNeed.settled {ss : List Stmt} {n : Nat} (h : StatementsNeed us ss n) :
    Settled us := by
  have hs := h.fits (b := 0) (d := n) (by omega)
  rw [← List.append_nil us]
  exact Statements.settled_append hs ⟨by decide, by decide⟩

theorem StatementsNeed.append_inj {returns : Bool} {ss ss' : List Stmt} {n n' : Nat}
    (h : StatementsNeed us ss n) (h' : StatementsNeed us' ss' n')
    (hr : (firstToken rest).kind ∈ bodyEnd returns)
    (hr' : (firstToken rest').kind ∈ bodyEnd returns) (heq : us ++ rest = us' ++ rest') :
    us = us' ∧ rest = rest' := by
  have hd : 0 + (n + n') = n + n' := Nat.zero_add _
  have hread := fun {ts xs : List Token} {ss : List Stmt} => @statements_ok _ _ _ _ _
    (reads_expression_fits 0 hd) (reads_body 0 hd) _ (endStatements_bodyEnd returns) ts xs ss
  exact Rule.append_inj heq (hread.mpr ⟨us, rfl, h.fits (by omega), hr⟩)
    (hread.mpr ⟨us', rfl, h'.fits (by omega), hr'⟩)

/-- An `else` is no `elif`. -/
theorem OtherwiseNeeds.kind_ne_elif {last : Option (List Stmt)} {n : Nat}
    (h : OtherwiseNeeds us last n) : (firstToken us).kind ≠ .keyword .elifWord := by
  cases h with
  | none => decide
  | some ht _ => simp [firstToken, ht]

theorem ClausesNeed.append_inj {cs cs' : List Clause} {last last' : Option (List Stmt)}
    {n n' l l' : Nat} (h : ClausesNeed us cs n) (h' : ClausesNeed us' cs' n')
    (hl : OtherwiseNeeds rest last l) (hl' : OtherwiseNeeds rest' last' l')
    (heq : us ++ rest = us' ++ rest') : us = us' ∧ rest = rest' := by
  have hd : 0 + (n + n') = n + n' := Nat.zero_add _
  have hexpr := reads_expression_fits 0 hd
  have hbody := @reads_body 0 _ _ _ hd
  have hread := fun {vs xs : List Token} {cs : List Clause} hk hcs =>
    (collect_ok (nextClause_takes hexpr hbody)).mpr
      (@clauses_complete _ _ _ _ _ hexpr hbody xs hk vs cs hcs)
  exact Rule.append_inj heq (hread hl.kind_ne_elif (h.fits (by omega)))
    (hread hl'.kind_ne_elif (h'.fits (by omega)))

theorem BlockNeeds.stops {returns : Bool} {x : Body} {n : Nat} (h : BlockNeeds returns us x n) :
    Stops us := by
  cases h with
  | mk hl _ _ _ => exact stops_of_kind hl (by decide)

/-- An operator that is a step is no other change of a variable. -/
theorem isStep_of_step? {t : Token} {s : Symbol} {o o' : Operator} (h : t.step? = some o)
    (hu : t.update? = some (s, o')) : s.isStep = true := by
  obtain ⟨s', hu', hs⟩ := Token.step?_eq_some_iff_update?.mp h
  rw [hu] at hu'
  cases hu'
  exact hs

/-! ## One need -/

mutual

/-- The tokens and the tree of a statement say what it needs. -/
theorem StatementNeeds.unique {us us' : List Token} {s s' : Stmt} {n n' : Nat}
    (h : StatementNeeds us s n) (h' : StatementNeeds us' s' n') (hus : us = us') (hs : s = s') :
    n = n' := by
  match h with
  | .load _ _ _ =>
    cases h' with
    | load _ _ _ => rfl
    | _ => cases hs
  | .assignment _ _ _ _ =>
    cases h' with
    | assignment _ _ _ _ =>
      obtain ⟨-, rfl, rfl⟩ := Stmt.assignment.inj hs
      rfl
    | _ => cases hs
  | .expression _ _ =>
    cases h' with
    | expression _ _ =>
      obtain ⟨-, rfl⟩ := Stmt.expression.inj hs
      rfl
    | _ => cases hs
  | .update _ hu hstep _ _ =>
    cases h' with
    | update _ _ _ _ _ =>
      obtain ⟨-, -, -, rfl⟩ := Stmt.update.inj hs
      rfl
    | step _ hu' _ =>
      simp only [List.cons_append, List.cons.injEq] at hus
      obtain ⟨-, rfl, -⟩ := hus
      rw [isStep_of_step? hu' hu] at hstep
      cases hstep
    | _ => cases hs
  | .step ht hu hr =>
    cases h' with
    | step _ _ _ => rfl
    | update _ hu' hstep' _ _ =>
      simp only [List.cons_append, List.cons.injEq] at hus
      obtain ⟨-, rfl, -⟩ := hus
      rw [isStep_of_step? hu hu'] at hstep'
      cases hstep'
    | _ => cases hs
  | .conditional ht he hss hcs hl =>
    cases h' with
    | conditional ht' he' hss' hcs' hl' =>
      obtain ⟨-, hbranch⟩ := Stmt.conditional.inj hs
      obtain ⟨-, rfl, rfl, rfl, rfl⟩ := Branch.mk.inj hbranch
      simp only [List.append_assoc, List.cons_append, List.cons.injEq] at hus
      obtain ⟨rfl, hvs⟩ := he.append_inj he' hus.2
      obtain ⟨rfl, hws⟩ := hss.append_inj hss' hvs
      obtain ⟨rfl, rfl⟩ := hcs.append_inj hcs' hl hl' hws
      rw [hss.unique hss' rfl rfl, hcs.unique hcs' rfl rfl, hl.unique hl' rfl rfl]
    | _ => cases hs
  | .whileLoop ht he hss =>
    cases h' with
    | whileLoop ht' he' hss' =>
      obtain ⟨-, rfl, rfl⟩ := Stmt.whileLoop.inj hs
      simp only [List.cons_append, List.cons.injEq] at hus
      obtain ⟨rfl, rfl⟩ := he.append_inj he' hus.2
      rw [hss.unique hss' rfl rfl]
    | _ => cases hs
  | .forLoop ht hu hi he hss =>
    cases h' with
    | forLoop ht' hu' hi' he' hss' =>
      obtain ⟨-, hloop⟩ := Stmt.forLoop.inj hs
      obtain ⟨-, -, rfl, rfl⟩ := Loop.mk.inj hloop
      simp only [List.cons_append, List.cons.injEq] at hus
      obtain ⟨rfl, rfl⟩ := he.append_inj he' hss.stops hss'.stops hus.2.2.2
      rw [hss.unique hss' rfl rfl]
    | _ => cases hs
  | .function ht hu hl hn hr hx =>
    cases h' with
    | function ht' hu' hl' hn' hr' hx' =>
      obtain ⟨-, -, -, rfl, rfl⟩ := Stmt.function.inj hs
      simp only [List.cons_append, List.cons.injEq] at hus
      obtain ⟨rfl, rfl⟩ := hn.append_inj hn' hr hr' hus.2.2.2
      exact hx.unique hx' rfl rfl
    | _ => cases hs
termination_by structural h

theorem StatementsNeed.unique {us us' : List Token} {ss ss' : List Stmt} {n n' : Nat}
    (h : StatementsNeed us ss n) (h' : StatementsNeed us' ss' n') (hus : us = us')
    (hs : ss = ss') : n = n' := by
  match h with
  | .nil =>
    cases h' with
    | nil => rfl
    | cons _ _ => cases hs
  | .cons hs₁ hss =>
    cases h' with
    | nil => cases hs
    | cons hs₁' hss' =>
      obtain ⟨rfl, rfl⟩ := List.cons.inj hs
      obtain ⟨rfl, rfl⟩ := hs₁.append_inj hs₁' hss.settled hss'.settled hus
      rw [hs₁.unique hs₁' rfl rfl, hss.unique hss' rfl rfl]
termination_by structural h

theorem BlockNeeds.unique {returns : Bool} {us us' : List Token} {x x' : Body} {n n' : Nat}
    (h : BlockNeeds returns us x n) (h' : BlockNeeds returns us' x' n') (hus : us = us')
    (hx : x = x') : n = n' := by
  match h with
  | .mk hl hss hres hr =>
    cases h' with
    | mk hl' hss' hres' hr' =>
      obtain ⟨rfl, rfl⟩ := Body.mk.inj hx
      simp only [List.append_assoc, List.cons_append, List.cons.injEq] at hus
      obtain ⟨rfl, -⟩ := hss.append_inj hss' (Result.kind_firstToken hres hr [])
        (Result.kind_firstToken hres' hr' []) hus.2
      rw [hss.unique hss' rfl rfl]
termination_by structural h

theorem ClausesNeed.unique {us us' : List Token} {cs cs' : List Clause} {n n' : Nat}
    (h : ClausesNeed us cs n) (h' : ClausesNeed us' cs' n') (hus : us = us') (hcs : cs = cs') :
    n = n' := by
  match h with
  | .nil =>
    cases h' with
    | nil => rfl
    | cons _ _ _ _ => cases hcs
  | .cons ht he hss hcs₁ =>
    cases h' with
    | nil => cases hcs
    | cons ht' he' hss' hcs₁' =>
      obtain ⟨hc, rfl⟩ := List.cons.inj hcs
      obtain ⟨rfl, rfl⟩ := Clause.mk.inj hc
      simp only [List.append_assoc, List.cons_append, List.cons.injEq] at hus
      obtain ⟨rfl, hvs⟩ := he.append_inj he' hus.2
      obtain ⟨rfl, rfl⟩ := hss.append_inj hss' hvs
      rw [hss.unique hss' rfl rfl, hcs₁.unique hcs₁' rfl rfl]
termination_by structural h

theorem OtherwiseNeeds.unique {us us' : List Token} {last last' : Option (List Stmt)}
    {n n' : Nat} (h : OtherwiseNeeds us last n) (h' : OtherwiseNeeds us' last' n')
    (hus : us = us') (hl : last = last') : n = n' := by
  match h with
  | .none =>
    cases h' with
    | none => rfl
    | some _ _ => cases hl
  | .some ht hss =>
    cases h' with
    | none => cases hl
    | some ht' hss' =>
      obtain rfl := Option.some.inj hl
      obtain ⟨-, rfl⟩ := List.cons.inj hus
      exact hss.unique hss' rfl rfl
termination_by structural h

end

end Phrase

namespace Session

open Phrase

/-! ## The least limit -/

/-- The tokens in front of the first end mark. -/
def inFront (ts : List Token) : List Token :=
  ts.takeWhile fun t => !t.isEnd

theorem inFront_append {us rest : List Token} (hus : Open us)
    (hr : (firstToken rest).kind = .eof) : inFront (us ++ rest) = us := by
  unfold inFront
  rw [List.takeWhile_append_of_pos fun t ht => by simp [hus t ht]]
  cases rest with
  | nil => exact List.append_nil us
  | cons t rest =>
    have ht : t.isEnd = true := by simpa [firstToken, Token.isEnd] using hr
    rw [List.takeWhile_cons_of_neg (by simp [ht]), List.append_nil]

/-- An end mark behind some tokens does not stand in front of an end mark. -/
theorem inFront_concat {e : Token} (he : e.isEnd = true) (ts : List Token) :
    inFront (ts ++ [e]) = inFront ts := by
  unfold inFront
  induction ts with
  | nil => simp [he]
  | cons t ts ih => simp only [List.cons_append, List.takeWhile_cons, ih]

theorem inFront_ahead (ts : List Token) (limit : Int) :
    inFront (ahead ⟨ts, 0, 0, limit⟩) = inFront ts := by
  rcases ahead_eq ts limit with h | ⟨p, h⟩
  · rw [h]
  · rw [h, inFront_concat (Token.isEnd_endAt p)]

/-- A program that is read is the phrase of the tokens in front of the first end mark, and fits
in the limit. -/
theorem fits_of_run {ts : List Token} {d : Int} {s : Session} {p : Program}
    (hs : ofTokens ts d = .ok s) (hp : (s.run s.program).1 = .ok p) :
    Statements (Having (Fits d.toNat)) (· < d.toNat) 0 (inFront ts) p.statements := by
  obtain ⟨-, rfl⟩ := ofTokens_ok.mp hs
  obtain ⟨rest, hrun⟩ := run_ok.mp hp
  obtain ⟨us, hahead, -, hus, hk⟩ := (program_ok d).mp hrun
  have hfront := inFront_append (hus.isOpen Having.isOpen) hk
  rw [← hahead, inFront_ahead] at hfront
  rw [hfront]
  simpa [levels] using hus

/-- A script that is read under one limit is read under each that it fits in. -/
theorem run_of_fits {ts : List Token} {c d : Int} {s s' : Session} {p : Program}
    (hs : ofTokens ts c = .ok s) (hp : (s.run s.program).1 = .ok p)
    (hs' : ofTokens ts d = .ok s')
    (h : Statements (Having (Fits d.toNat)) (· < d.toNat) 0 (inFront ts) p.statements) :
    (s'.run s'.program).1 = .ok p := by
  obtain ⟨-, rfl⟩ := ofTokens_ok.mp hs
  obtain ⟨-, rfl⟩ := ofTokens_ok.mp hs'
  obtain ⟨rest, hrun⟩ := run_ok.mp hp
  obtain ⟨us, hahead, hplace, hus, hk⟩ := (program_ok c).mp hrun
  have hfront := inFront_append (hus.isOpen Having.isOpen) hk
  rw [← hahead, inFront_ahead] at hfront
  rw [hfront] at h
  refine run_ok.mpr ⟨rest, (program_ok d).mpr ⟨us, hahead, hplace, ?_, hk⟩⟩
  simpa [levels] using h

/-- Under another limit a script is read as the same program, or the limit is used up. -/
theorem run_of_run {ts : List Token} {c d : Int} {s s' : Session} {p : Program}
    (hs : ofTokens ts c = .ok s) (hp : (s.run s.program).1 = .ok p)
    (hs' : ofTokens ts d = .ok s') :
    (s'.run s'.program).1 = .ok p ∨
      ∃ q, (s'.run s'.program).1 = .error (.located q (.tooDeep d)) := by
  rcases Int.le_total c d with hle | hle
  · rcases run_program_cuts hs hs' hle with ⟨hsame, -⟩ | ⟨⟨q, hdeep⟩, -⟩
    · exact Or.inl (hsame ▸ hp)
    · rw [hp] at hdeep
      cases hdeep
  · rcases run_program_cuts hs' hs hle with ⟨hsame, -⟩ | ⟨hdeep, -⟩
    · exact Or.inl (hsame.trans hp)
    · exact Or.inr hdeep

/-- Let some tokens be read as a program under some limit.  The program, as it is written in the
tokens, needs one number of levels.  Under each limit that is no smaller the tokens are read as
the same program, and each smaller limit is used up. -/
theorem least_limit {ts : List Token} {c : Int} {s : Session} {p : Program}
    (hs : ofTokens ts c = .ok s) (hp : (s.run s.program).1 = .ok p) :
    ∃ n : Nat, (∀ m, StatementsNeed (inFront ts) p.statements m ↔ m = n) ∧
      ∀ d : Int, 1 ≤ d → ∃ s', ofTokens ts d = .ok s' ∧
        ((s'.run s'.program).1 = .ok p ↔ (n : Int) ≤ d) ∧
        (¬ (n : Int) ≤ d → ∃ q, (s'.run s'.program).1 = .error (.located q (.tooDeep d))) := by
  obtain ⟨n, hn, -⟩ := (fits_of_run hs hp).exists_needs (Nat.zero_le _)
  refine ⟨n, fun m => ⟨fun hm => hm.unique hn rfl rfl, fun hm => hm ▸ hn⟩, ?_⟩
  intro d hd
  have hs' : ofTokens ts d = .ok ⟨ts, 0, 0, d⟩ := ofTokens_ok.mpr ⟨hd, rfl⟩
  have hiff : (run ⟨ts, 0, 0, d⟩ (program ⟨ts, 0, 0, d⟩)).1 = .ok p ↔ (n : Int) ≤ d := by
    constructor
    · intro hrun
      obtain ⟨m, hm, hle⟩ := (fits_of_run hs' hrun).exists_needs (Nat.zero_le _)
      obtain rfl := hm.unique hn rfl rfl
      omega
    · intro hle
      exact run_of_fits hs hp hs' (hn.fits (by omega))
  refine ⟨_, hs', hiff, fun hlt => ?_⟩
  exact (run_of_run hs hp hs').resolve_left fun hrun => hlt (hiff.mp hrun)

/-- The list of one number is read with nine levels.  It needs two: it is not read with one. -/
theorem least_limit_list :
    let ts : List Token := [⟨.symbol .openBracket "[", .start, "["⟩, ⟨.int 1, .start, "1"⟩,
      ⟨.symbol .closeBracket "]", .start, "]"⟩, ⟨.symbol .semicolon ";", .start, ";"⟩]
    let p : Program :=
      ⟨⟨1, 1⟩, [.expression ⟨1, 1⟩ (.list ⟨1, 1⟩ [.mk ⟨1, 1⟩ (.int ⟨1, 1⟩ 1) false false])]⟩
    ∃ s, ofTokens ts 9 = .ok s ∧ (s.run s.program).1 = .ok p ∧
      StatementsNeed (inFront ts) p.statements 2 ∧
      ∃ s' q, ofTokens ts 1 = .ok s' ∧
        (s'.run s'.program).1 = .error (.located q (.tooDeep 1)) := by
  intro ts p
  have hs : ofTokens ts 9 = .ok ⟨ts, 0, 0, 9⟩ := rfl
  have hp : (run ⟨ts, 0, 0, 9⟩ (program ⟨ts, 0, 0, 9⟩)).1 = .ok p := rfl
  obtain ⟨n, hn, hd⟩ := least_limit hs hp
  obtain ⟨s₁, hs₁, hiff₁, hdeep⟩ := hd 1 (by decide)
  obtain ⟨s₂, hs₂, hiff₂, -⟩ := hd 2 (by decide)
  obtain ⟨-, rfl⟩ := ofTokens_ok.mp hs₁
  obtain ⟨-, rfl⟩ := ofTokens_ok.mp hs₂
  have hle : (n : Int) ≤ 2 := hiff₂.mp rfl
  have hnot : ¬ (n : Int) ≤ 1 := fun h => by cases hiff₁.mpr h
  obtain ⟨q, hq⟩ := hdeep hnot
  exact ⟨_, hs, hp, (hn 2).mpr (by omega), _, q, hs₁, hq⟩

end Session

end ScriptReader
