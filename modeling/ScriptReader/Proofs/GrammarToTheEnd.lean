import ScriptReader.Proofs.RunsToTheEnd
import ScriptReader.Proofs.StatementPhrases
import ScriptReader.Session.Command

/-!
# The grammar up to the end

Every rule of the grammar stops in front of the first end mark.  All of them take a token for what
they answer, except for the rule for programs, which goes on to the mark itself.

A rule stops as long as the rules for the expressions and bodies inside do, and those stop by
induction on the levels that are left.  Each step of a repetition takes a token where it gives
something, so no repetition ends but by its own test or by an error.

Main statements:

* `expression_moves`, `body_moves`: the two rules that are recursive;
* `Session.rule_stays`, `Session.rule_moves`: the rule for each construct.
-/

namespace ScriptReader

namespace Grammar

open Rule Phrase

variable {limit : Int}

/-! ## Expressions -/

section

variable {sub : (alternatives : List Kind) → Rule Expr}
variable (hsub : ∀ alternatives, Moves limit (sub alternatives))

include hsub

theorem nextArgument_moves : Moves limit (nextArgument sub) := by
  refine (Moves.token (by decide)).then fun t => .ite ?_ (.pure id)
  exact (hsub []).map some

theorem arguments_move : Moves limit (arguments sub) := by
  -- without the closing parenthesis the first argument takes a token
  refine (Stops.skipIf (by decide)).bind fun isEmpty => ?_
  cases isEmpty with
  | true => exact .pure fun h => h.2 rfl
  | false =>
    exact (hsub _).then fun first => (Stays.collect (nextArgument_moves hsub).proceeds).then
      fun _ => .pure id

theorem call_moves : Moves limit (call sub) :=
  Moves.ident.then fun ⟨t, name⟩ => (Moves.token (by decide)).then fun _ =>
    (arguments_move hsub).map _

theorem index_moves : Moves limit (index sub) := by
  refine Moves.ident.then fun ⟨t, name⟩ => (Moves.token (by decide)).then fun _ => ?_
  exact (hsub []).then fun _ => (Moves.token (by decide)).map _

theorem itemBody_moves (isPack : Bool) : Moves limit (itemBody sub isPack) :=
  .here_then fun t => (hsub _ t).then fun _ => (Stays.skipIf (by decide)).then fun _ => .pure id

theorem nextItem_moves (follow : List Kind) : Moves limit (nextItem sub follow) := by
  refine (Moves.token (by decide)).then fun t => .ite ?_ (.pure id)
  refine (Stays.skipIf (by decide)).then fun _ => .ite (.pure id) ?_
  refine (Stays.skipIf (by decide)).then fun isPack => ?_
  exact (itemBody_moves hsub isPack).map _

theorem comprehension_moves (place : Place) (body : Expr) :
    Moves limit (comprehension sub place body) := by
  refine (Moves.token (by decide)).then fun _ => Moves.ident.then fun ⟨_, name⟩ => ?_
  refine (Moves.token (by decide)).then fun _ => (hsub []).then fun _ => ?_
  exact (Moves.token (by decide)).map _

theorem listFrom_stays (place itemPlace : Place) (head : Expr) (isPack : Bool) :
    Stays limit (listFrom sub place itemPlace head isPack) := by
  refine (Stays.skipIf (by decide)).then fun isSpread => ?_
  exact (Stays.unfold (fun s => (nextItem_moves hsub s).proceeds) _).then fun _ => .pure id

theorem list_moves : Moves limit (list sub) := by
  refine (Moves.token (by decide)).then fun t => ?_
  refine (Stays.skipIf (by decide)).then fun _ => .ite (.pure id) ?_
  refine (Stays.skipIf (by decide)).then fun isPack => .here_then fun first => ?_
  refine (hsub _ first).then fun head => (Stays.isHere _).then fun isSource => .ite ?_ ?_
  · exact (comprehension_moves hsub t.place head).stops
  · exact listFrom_stays hsub t.place first.place head isPack

omit hsub in
theorem leaf_moves {t : Token} (ht : t.isEnd = false) (e : Expr) :
    StopsAt limit (fun _ => True) t (leaf e) :=
  (StopsAt.skip ht).then fun _ => .pure id

theorem named_moves {t : Token} (ht : t.isEnd = false) (name : String) :
    StopsAt limit (fun _ => True) t (named sub t name) := by
  refine .next_then (fun hend => ?_) fun u => ?_
  · rw [ht] at hend
    cases hend
  · exact .ite (call_moves hsub t) (.ite (index_moves hsub t) (leaf_moves ht _))

omit hsub in
theorem stepExpr_moves : Moves limit stepExpr := by
  refine (Moves.accept _ fun t p hp => ?_).then fun ⟨t, o⟩ => Moves.ident.then fun ⟨_, name⟩ =>
    .pure id
  obtain ⟨o, ho, -⟩ := Option.map_eq_some_iff.mp hp
  exact kind_ne_eof_of_step? ho

theorem atom_moves (alternatives : List Kind) : Moves limit (atom sub alternatives) := by
  refine .here_then fun t => ?_
  have hend : ∀ {k : Content}, t.content = k → (k.kind == .eof) = false → t.isEnd = false := by
    intro k hk hne
    rwa [Token.isEnd, Token.kind, hk]
  generalize hc : t.content = k
  cases k with
  | int n => exact leaf_moves (hend hc rfl) (.int t.place n)
  | float x => exact leaf_moves (hend hc rfl) (.float t.place x)
  | string s => exact leaf_moves (hend hc rfl) (.string t.place s)
  | char s => exact leaf_moves (hend hc rfl) (.char t.place s)
  | bool b => exact leaf_moves (hend hc rfl) (.bool t.place b)
  | ident name => exact named_moves hsub (hend hc rfl) name
  | symbol s text =>
    cases s with
    | openBracket => exact list_moves hsub t
    | increment => exact stepExpr_moves t
    | decrement => exact stepExpr_moves t
    | _ => exact .refuse _
  | _ => exact .refuse _

end

/-! ## Chains -/

/-- Expressions and chains, by induction on the levels that are left. -/
theorem expression_and_chain_stop (limit : Int) (levels : Nat) :
    (∀ alternatives, Moves limit (expression limit levels alternatives)) ∧
    ∀ lhs, Stays limit (chain limit levels lhs) := by
  induction levels with
  | zero =>
    constructor
    · intro alternatives t
      rw [expression]
      exact .tooDeep
    · intro lhs
      rw [chain]
      refine .here_then fun t => ?_
      cases t.binary? with
      | none => exact .pure id
      | some o => exact .tooDeep
  | succ levels ih =>
    obtain ⟨hexpr, hchain⟩ := ih
    constructor
    · intro alternatives
      rw [expression]
      exact (atom_moves hexpr alternatives).then hchain
    · intro lhs
      rw [chain]
      refine .here_then fun t => ?_
      cases h : t.binary? with
      | none => exact .pure id
      | some o =>
        have ht : t.isEnd = false := beq_false_of_ne (kind_ne_eof_of_binary? h)
        exact (StopsAt.skip ht).then fun _ => (atom_moves hexpr []).then fun rhs => hchain _

theorem expression_moves (limit : Int) (levels : Nat) (alternatives : List Kind) :
    Moves limit (expression limit levels alternatives) :=
  (expression_and_chain_stop limit levels).1 alternatives

/-! ## Statements -/

theorem endExpr_moves (others : List Kind) : Moves limit (endExpr others) :=
  (Moves.token (by decide)).map _

theorem load_moves : Moves limit load := by
  refine (Moves.token (by decide)).then fun t => (Moves.accept _ fun u s hs hk => ?_).then
    fun path => (Moves.token (by decide)).map _
  unfold Token.kind at hk
  split at hs
  · next hc =>
    rw [hc] at hk
    cases hk
  · cases hs

theorem nextParameter_moves : Moves limit nextParameter :=
  (Moves.token (by decide)).then fun t => .ite (Moves.ident.map _) (.pure id)

theorem parameters_move : Moves limit parameters := by
  refine (Moves.accept _ fun t s hs hk => ?_).then fun first => ?_
  · unfold Token.kind at hk
    split at hs
    · next hc =>
      rw [hc] at hk
      cases hk
    · next hc =>
      rw [hc] at hk
      cases hk
    · cases hs
  · cases first with
    | none => exact .pure id
    | some name => exact (Stays.collect nextParameter_moves.proceeds).then fun _ => .pure id

section

variable {expr : (alternatives : List Kind) → Rule Expr} {body : (returns : Bool) → Rule Body}
variable (hexpr : ∀ alternatives, Moves limit (expr alternatives))
variable (hbody : ∀ returns, Moves limit (body returns))

include hexpr in
theorem assignmentOrExpression_moves : Moves limit (assignmentOrExpression expr) := by
  refine .here_then fun t => (hexpr [] t).then fun lhs => ?_
  refine (Stays.skipIf (by decide)).then fun _ => .ite ?_ ?_
  · exact (hexpr []).then fun rhs => (endExpr_moves []).map _
  · exact (endExpr_moves _).map _

include hexpr in
theorem update_moves : Moves limit (update expr) := by
  refine Moves.ident.then fun ⟨t, name⟩ => (Moves.accept _ fun u p hp => ?_).then
    fun ⟨u, s, o⟩ => .ite ?_ ?_
  · obtain ⟨x, hx, -⟩ := Option.map_eq_some_iff.mp hp
    simp [Token.kind_of_update? hx]
  · exact (Moves.token (by decide)).map _
  · exact (hexpr []).then fun _ => (endExpr_moves []).map _

include hexpr in
theorem condition_moves : Moves limit (condition expr) := by
  refine (Moves.token (by decide)).then fun _ => (hexpr []).then fun e => ?_
  exact (Moves.token (by decide)).map _

include hbody in
theorem block_moves : Moves limit (block body) :=
  (hbody false).map _

include hexpr hbody in
theorem nextClause_proceeds : Proceeds limit (nextClause expr body) := by
  refine (Stops.skipIf (by decide)).bind fun found => ?_
  cases found with
  | true => exact (condition_moves hexpr).then fun e => (block_moves hbody).map _
  | false => exact .pure fun h => Bool.false_ne_true h.1

include hbody in
theorem otherwise_stays : Stays limit (otherwise body) :=
  (Stays.skipIf (by decide)).then fun _ => .ite ((block_moves hbody).map _) (.pure id)

include hexpr hbody in
theorem conditional_moves : Moves limit (conditional expr body) := by
  refine (Moves.token (by decide)).then fun t => (condition_moves hexpr).then fun e => ?_
  refine (block_moves hbody).then fun ss => ?_
  refine (Stays.collect (nextClause_proceeds hexpr hbody)).then fun clauses => ?_
  exact (otherwise_stays hbody).then fun last => .pure id

include hexpr hbody in
theorem whileLoop_moves : Moves limit (whileLoop expr body) := by
  refine (Moves.token (by decide)).then fun t => (condition_moves hexpr).then fun e => ?_
  exact (block_moves hbody).map _

include hexpr hbody in
theorem forLoop_moves : Moves limit (forLoop expr body) := by
  refine (Moves.token (by decide)).then fun t => Moves.ident.then fun ⟨_, name⟩ => ?_
  refine (Moves.token (by decide)).then fun _ => (hexpr []).then fun source => ?_
  refine (Stays.isHere _).then fun _ => .ite ((block_moves hbody).map _) fun t => .refuse _

include hbody in
theorem function_moves : Moves limit (function body) := by
  refine (Moves.token (by decide)).then fun t => Moves.ident.then fun ⟨_, name⟩ => ?_
  refine (Moves.token (by decide)).then fun _ => parameters_move.then fun names => ?_
  exact (hbody true).map _

include hexpr hbody in
theorem statement_moves (follow : List Kind) : Moves limit (statement expr body follow) := by
  refine .here_then fun t => ?_
  dsimp only
  split
  · exact load_moves t
  · exact conditional_moves hexpr hbody t
  · exact whileLoop_moves hexpr hbody t
  · exact forLoop_moves hexpr hbody t
  · exact function_moves hbody t
  · refine .next_then (fun hend u u' => ?_) fun u => ?_
    · -- the token behind is looked at only behind a name
      have hk : t.kind = .eof := eq_of_beq hend
      rw [hk]
      rfl
    · exact .ite (update_moves hexpr t) (.ite (assignmentOrExpression_moves hexpr t) (.refuse _))

include hexpr hbody in
theorem nextStatement_proceeds (follow : List Kind) :
    Proceeds limit (nextStatement expr body follow) := by
  refine .here_then fun t => .ite (.pure Bool.false_ne_true) ?_
  exact (statement_moves hexpr hbody follow t).then fun _ => .pure id

include hexpr in
theorem returned_stays (returns : Bool) : Stays limit (returned expr returns) := by
  show Stays limit (here >>= fun t => if returns && (t.kind == .keyword .returnWord) then _ else _)
  refine .here_then fun t => ?_
  split
  · next hk =>
    have ht : t.kind = .keyword .returnWord := by simpa using And.right (by simpa using hk)
    refine (StopsAt.skip (by rw [Token.isEnd, ht]; rfl)).then fun _ => ?_
    exact (hexpr []).then fun _ => (endExpr_moves []).map _
  · exact .pure id

end

/-! ## Bodies -/

/-- Bodies, by induction on the levels that are left. -/
theorem body_moves (limit : Int) (levels : Nat) (returns : Bool) :
    Moves limit (body limit levels returns) := by
  induction levels generalizing returns with
  | zero =>
    rw [body]
    exact (Moves.token (by decide)).then fun _ t => .tooDeep
  | succ levels ih =>
    rw [body]
    refine (Moves.token (by decide)).then fun _ => ?_
    refine (Stays.collect (nextStatement_proceeds (expression_moves limit levels) ih _)).then
      fun statements => ?_
    refine (returned_stays (expression_moves limit levels) returns).then fun result => ?_
    exact (Moves.token (by decide)).map _

/-- A program. -/
theorem program_stays (limit : Int) (levels : Nat) : Stays limit (program limit levels) := by
  refine (Stays.collect ?_).then fun _ => .pure id
  exact nextStatement_proceeds (expression_moves limit levels) (body_moves limit levels) _

/-- A program that is read goes on to the end mark. -/
theorem program_ok_end {levels : Nat} {us : List Token} {e : Token} (hus : Open us)
    (he : e.isEnd = true) {more rest : List Token} {p : Program}
    (h : program limit levels (us ++ e :: more) = .ok p rest) : rest = e :: more := by
  cases (program_stays limit levels).on hus he with
  | @ok a vs ws split _ run =>
    rw [run] at h
    cases h
    obtain ⟨-, -, -, -, hend⟩ := (program_ok limit).mp (run more)
    cases ws with
    | nil => rfl
    | cons w ws =>
      -- no end mark stands in front of the first one
      rw [split] at hus
      exact absurd hend (open_cons.mp (open_append.mp hus).2).1
  | error _ _ run =>
    rw [run] at h
    cases h

end Grammar

/-! ## Constructs -/

namespace Session

open Rule Grammar

variable (s : Session)

theorem expression_moves (alternatives : List Kind) : Moves s.limit (s.expression alternatives) :=
  Grammar.expression_moves s.limit s.levels alternatives

theorem body_moves (returns : Bool) : Moves s.limit (s.body returns) :=
  Grammar.body_moves s.limit s.levels returns

/-- The rule for a construct that is no program takes a token for what it answers. -/
theorem rule_moves {what : Construct} (h : what ≠ .program) : Moves s.limit (s.rule what) := by
  have hexpr := s.expression_moves
  have hbody := s.body_moves
  cases what with
  | program => exact absurd rfl h
  | statement follow => exact (statement_moves hexpr hbody follow).map _
  | load => exact load_moves.map _
  | assignmentOrExpression => exact (assignmentOrExpression_moves hexpr).map _
  | update => exact (update_moves hexpr).map _
  | block => exact (block_moves hbody).map _
  | condition => exact (condition_moves hexpr).map _
  | conditional => exact (conditional_moves hexpr hbody).map _
  | whileLoop => exact (whileLoop_moves hexpr hbody).map _
  | forLoop => exact (forLoop_moves hexpr hbody).map _
  | function => exact (function_moves hbody).map _
  | expression alternatives => exact (hexpr alternatives).map _
  | atom alternatives => exact (atom_moves hexpr alternatives).map _
  | call => exact (call_moves hexpr).map _
  | index => exact (index_moves hexpr).map _
  | step => exact stepExpr_moves.map _
  | list => exact (list_moves hexpr).map _

/-- The rule for a construct stops in front of the first end mark. -/
theorem rule_stays (what : Construct) : Stays s.limit (s.rule what) := by
  by_cases h : what = .program
  · subst h
    exact (Grammar.program_stays s.limit s.levels).then fun _ => .pure id
  · exact (s.rule_moves h).stops

end Session

end ScriptReader
