import ScriptReader.Proofs.ComparedGrammar

/-!
# More levels of nesting

A rule with few levels does what it does with more of them, unless it complains that the levels
are used up: it never reads another thing, and never complains of another token.  Where it stops
for lack of levels, the rule with more of them has not stopped before.

Main statement: `program_cuts`, a program is read alike with more levels.
-/

namespace ScriptReader.Grammar

open Rule Phrase

variable {c : Comparison}

/-- Expressions and chains with fewer levels, by induction on their number. -/
theorem expression_and_chain_follow_of_le {limit limit' : Int} {levels levels' : Nat}
    (hcut : ∀ p, c.cut (.located p (.tooDeep limit))) (h : levels ≤ levels') :
    (∀ alternatives, Follows c (Expr.relocate c.shift.place)
      (expression limit levels alternatives) (expression limit' levels' alternatives)) ∧
    ∀ lhs, Follows c (Expr.relocate c.shift.place)
      (chain limit levels (lhs.relocate c.shift.place)) (chain limit' levels' lhs) := by
  induction levels generalizing levels' with
  | zero =>
    constructor
    · intro alternatives
      rw [expression]
      exact tooDeep_cuts hcut (expression_follows (c := c) limit' levels' alternatives).advances
    · intro lhs t
      have hadvances : Advances (chain limit' levels' lhs) :=
        ((expression_and_chain_follow (c := c) limit' levels').2 lhs).advances
      refine ⟨hadvances, fun ts hts => ?_⟩
      have hhead : (firstToken ((t :: ts).map c.shift.token)).binary? = t.binary? := rfl
      cases ht : t.binary? with
      | none =>
        have hrun : chain limit' levels' lhs (t :: ts) = .ok lhs (t :: ts) := chain_of_none _ ht
        rw [hrun, chain_of_none limit (hhead.trans ht)]
        exact .ok hts
      | some o =>
        rw [chain_zero_error limit (hhead.trans ht)]
        exact .of_cut (hcut _) hadvances (t :: ts)
  | succ levels ih =>
    obtain ⟨levels', rfl⟩ : ∃ m, levels' = m + 1 := ⟨levels' - 1, by omega⟩
    obtain ⟨hexpr, hchain⟩ := ih (Nat.le_of_succ_le_succ h)
    exact ⟨expression_succ_follows hexpr hchain, chain_succ_follows hexpr hchain⟩

/-- Bodies with fewer levels, by induction on their number. -/
theorem body_follows_of_le {limit limit' : Int} {levels levels' : Nat}
    (hcut : ∀ p, c.cut (.located p (.tooDeep limit))) (h : levels ≤ levels') (returns : Bool) :
    Follows c (Body.relocate c.shift.place) (body limit levels returns)
      (body limit' levels' returns) := by
  induction levels generalizing levels' returns with
  | zero =>
    cases levels' with
    | zero =>
      rw [body, body]
      refine (token_follows (by decide)).bind fun _ => tooDeep_cuts hcut ?_
      exact (tooDeep_follows (c := c) (f := Body.relocate id) limit').advances
    | succ levels' =>
      rw [body, body]
      refine (token_follows (by decide)).bind fun _ => tooDeep_cuts hcut ?_
      exact (bodyRest_follows (c := c) (expression_follows limit' levels')
        (body_follows limit' levels') returns).advances
  | succ levels ih =>
    obtain ⟨levels', rfl⟩ : ∃ m, levels' = m + 1 := ⟨levels' - 1, by omega⟩
    have hle : levels ≤ levels' := Nat.le_of_succ_le_succ h
    exact body_succ_follows (expression_and_chain_follow_of_le hcut hle).1 (ih hle) returns

theorem program_follows_of_le {limit limit' : Int} {levels levels' : Nat}
    (hcut : ∀ p, c.cut (.located p (.tooDeep limit))) (h : levels ≤ levels') :
    Follows c (fun p => ⟨p.place, p.statements.map (Stmt.relocate c.shift.place)⟩)
      (program limit levels) (program limit' levels') :=
  program_follows_of (expression_and_chain_follow_of_le hcut h).1 (body_follows_of_le hcut h)

/-- A run with few levels is compared with a run on the same tokens, and may stop for lack of
levels. -/
def fewerLevels (limit : Int) : Comparison :=
  ⟨.none, fun e => ∃ p, e = .located p (.tooDeep limit)⟩

/-- A program is read alike with more levels, unless there are too few of them; then it is not
given up before. -/
theorem program_cuts {limit limit' : Int} {levels levels' : Nat} {ts : List Token}
    (h : levels ≤ levels') (hts : HasEnd ts) :
    program limit levels ts = program limit' levels' ts ∨
      ∃ p rest, program limit levels ts = .error (.located p (.tooDeep limit)) rest ∧
        (left (program limit' levels' ts)).length ≤ rest.length := by
  have hcut : ∀ p, (fewerLevels limit).cut (.located p (.tooDeep limit)) := fun p => ⟨p, rfl⟩
  have hfollows : Follows (fewerLevels limit) _ (program limit levels) (program limit' levels') :=
    program_follows_of_le hcut h
  have hplaces : ∀ p : Program,
      ⟨p.place, p.statements.map (Stmt.relocate (fewerLevels limit).shift.place)⟩ = p := by
    intro p
    show (⟨p.place, p.statements.map (Stmt.relocate Shift.none.place)⟩ : Program) = p
    rw [Shift.place_none_eq, ← Stmt.relocateAll_eq_map, Stmt.relocateAll_id]
  rcases hfollows.eq_or_cut rfl hplaces hts with heq | ⟨e, rest, hrun, ⟨p, rfl⟩, hle⟩
  · exact Or.inl heq
  · exact Or.inr ⟨p, rest, hrun, hle⟩

end ScriptReader.Grammar
