import ScriptReader.Proofs.ExpressionPhrases
import ScriptReader.Proofs.WorkedGrammar
import ScriptReader.Proofs.WorkedRules

/-!
# The grammar as work performs the rules

The work for a construct performs its rule, as long as the work for the expressions and bodies
inside performs theirs.  An expression or a body with `depth` open levels performs the rule with
the levels that are left up to the limit, since each level that the rule takes is one that the
work opens.

The tables of operators always have the entry that is asked for: the tokens in front of a look into
a table are those that the table knows.  The two lists of a chain of `elif` clauses are made
together and so of one length.

Main statements: `expression_performs`, `body_performs` and `program_performs`.
-/

namespace ScriptReader.Grammar

open Rule Phrase Session

variable {limit : Int} {depth : Nat}

/-! ## Expressions -/

section

variable {sub : (alternatives : List Kind) → Work Expr}
variable {sub' : (alternatives : List Kind) → Rule Expr}
variable (hsub : ∀ alternatives, Performs limit depth (sub alternatives) (sub' alternatives))

include hsub

theorem nextArgument_performs :
    Performs limit depth (Work.nextArgument sub) (nextArgument sub') :=
  (token_performs (by decide)).bind fun t => .ite ((hsub _).map some) (.pure none)

theorem arguments_perform : Performs limit depth (Work.arguments sub) (arguments sub') := by
  refine (skipIf_performs (by decide)).bind fun _ => .ite (.pure []) ?_
  exact (hsub _).bind fun first => (nextArgument_performs hsub).collect.map (first :: ·)

theorem call_performs : Performs limit depth (Work.call sub) (call sub') :=
  ident_performs.bind fun ⟨t, name⟩ => (token_performs (by decide)).bind fun _ =>
    (arguments_perform hsub).map _

theorem index_performs : Performs limit depth (Work.index sub) (index sub') := by
  refine ident_performs.bind fun ⟨t, name⟩ => (token_performs (by decide)).bind fun _ => ?_
  exact (hsub _).bind fun _ => (token_performs (by decide)).map _

theorem itemBody_performs (isPack : Bool) :
    Performs limit depth (Work.itemBody sub isPack) (itemBody sub' isPack) :=
  .here_then fun t => (hsub _ t).bind fun _ => (skipIf_performs (by decide)).map _

theorem nextItem_performs (follow : List Kind) :
    Performs limit depth (Work.nextItem sub follow) (nextItem sub' follow) := by
  refine (token_performs (by decide)).bind fun t => .ite ?_ (.pure none)
  refine (skipIf_performs (by decide)).bind fun _ => .ite (.pure none) ?_
  refine (skipIf_performs (by decide)).bind fun isPack => ?_
  exact (itemBody_performs hsub isPack).map _

theorem comprehension_performs (place : Place) (body : Expr) :
    Performs limit depth (Work.comprehension sub place body) (comprehension sub' place body) := by
  refine (token_performs (by decide)).bind fun _ => ident_performs.bind fun ⟨_, name⟩ => ?_
  refine (token_performs (by decide)).bind fun _ => (hsub _).bind fun _ => ?_
  exact (token_performs (by decide)).map _

theorem listFrom_performs (place itemPlace : Place) (head : Expr) (isPack : Bool) :
    Performs limit depth (Work.listFrom sub place itemPlace head isPack)
      (listFrom sub' place itemPlace head isPack) := by
  refine (skipIf_performs (by decide)).bind fun isSpread => ?_
  exact (Performs.unfold (nextItem_performs hsub) _).map _

theorem list_performs : Performs limit depth (Work.list sub) (list sub') := by
  refine (token_performs (by decide)).bind fun t => ?_
  refine (skipIf_performs (by decide)).bind fun isEmpty => .ite (.pure _) ?_
  refine (skipIf_performs (by decide)).bind fun isPack => ?_
  refine .here_then fun first => (hsub _ first).bind fun head => ?_
  refine (isHere_performs _).bind fun isSource => .ite ?_ ?_
  · exact comprehension_performs hsub t.place head
  · exact listFrom_performs hsub t.place first.place head isPack

omit hsub in
theorem leaf_performs {t : Token} (ht : t.isEnd = false) (e : Expr) :
    PerformsAt limit depth t (Work.leaf e) (leaf e) :=
  (PerformsAt.skip ht).bind fun _ => .pure e

theorem named_performs {t : Token} (ht : t.isEnd = false) (name : String) :
    PerformsAt limit depth t (Work.named sub t name) (named sub' t name) := by
  refine .next_then fun u u' hu => ?_
  obtain rfl := hu ht
  exact .ite (call_performs hsub t)
    (.ite (index_performs hsub t) (leaf_performs ht (.ident t.place name)))

omit hsub in
/-- The two tokens in front of a variable that is changed by one are in the table. -/
theorem stepExpr_performs : Performs limit depth Work.stepExpr stepExpr := by
  refine token_view_performs (by decide) Token.kind_mem_steps fun t o ho => ?_
  obtain ⟨s, hu, -⟩ := Token.step?_eq_some_iff_update?.mp ho
  refine ident_performs.bind fun ⟨_, name⟩ => ?_
  dsimp only
  rw [entry_bind _ _ hu]
  exact .pure _

theorem atom_performs (alternatives : List Kind) :
    Performs limit depth (Work.atom sub alternatives) (atom sub' alternatives) := by
  refine .here_then fun t => ?_
  have hend : ∀ {k : Content}, t.content = k → (k.kind == .eof) = false → t.isEnd = false := by
    intro k hk hne
    rwa [Token.isEnd, Token.kind, hk]
  generalize hc : t.content = k
  cases k with
  | int n => exact leaf_performs (hend hc rfl) (.int t.place n)
  | float x => exact leaf_performs (hend hc rfl) (.float t.place x)
  | string s => exact leaf_performs (hend hc rfl) (.string t.place s)
  | char s => exact leaf_performs (hend hc rfl) (.char t.place s)
  | bool b => exact leaf_performs (hend hc rfl) (.bool t.place b)
  | ident name => exact named_performs hsub (hend hc rfl) name
  | symbol s text =>
    cases s with
    | openBracket => exact list_performs hsub t
    | increment => exact stepExpr_performs t
    | decrement => exact stepExpr_performs t
    | _ => exact refuse_performs _ t
  | _ => exact refuse_performs _ t

end

/-! ## Chains -/

/-- The work for a chain is chosen by the token ahead, with no steps left or some. -/
theorem chain_work_eq (steps : Nat) (lhs : Expr) :
    ∃ w : Token → CountedWork Expr, Work.chain steps lhs = Work.uncounted Work.here >>= fun t =>
      if t.kind ∈ Kind.binaries then Work.openLevel >>= fun _ => w t else pure lhs := by
  cases steps with
  | zero =>
    rw [Work.chain]
    exact ⟨_, rfl⟩
  | succ steps =>
    rw [Work.chain]
    exact ⟨_, rfl⟩

/-- A chain whose operators find no level left. -/
theorem chain_full_performs {base n : Nat} (steps : Nat) (lhs : Expr)
    (hfull : ((base + n : Nat) : Int) = limit) :
    ClosedPerforms limit base n (Work.chain steps lhs) (chain limit 0 lhs) := by
  obtain ⟨w, hw⟩ := chain_work_eq steps lhs
  rw [hw, chain]
  refine .here_then fun t => ?_
  cases h : t.binary? with
  | none =>
    rw [if_neg (by rw [Token.kind_mem_binaries, h]; exact Bool.false_ne_true)]
    exact .pure lhs
  | some o =>
    rw [if_pos (by rw [Token.kind_mem_binaries, h]; rfl)]
    exact openLevel_performs_tooDeep _ hfull

/-- A chain whose operators find a level left. -/
theorem link_performs {base n : Nat} {sub : (alternatives : List Kind) → Work Expr}
    {sub' : (alternatives : List Kind) → Rule Expr} {rest : Expr → CountedWork Expr}
    {rest' : Expr → Rule Expr} (hlt : ((base + n : Nat) : Int) < limit)
    (hsub : ∀ alternatives, Performs limit (base + (n + 1)) (sub alternatives) (sub' alternatives))
    (hrest : ∀ lhs, ClosedPerforms limit base (n + 1) (rest lhs) (rest' lhs)) (lhs : Expr) :
    ClosedPerforms limit base n (Work.link sub rest lhs) (link sub' rest' lhs) := by
  refine .here_then fun t => ?_
  cases h : t.binary? with
  | none =>
    rw [if_neg (by rw [Token.kind_mem_binaries, h]; exact Bool.false_ne_true)]
    exact .pure lhs
  | some o =>
    rw [if_pos (by rw [Token.kind_mem_binaries, h]; rfl)]
    have ht : t.isEnd = false := beq_false_of_ne (kind_ne_eof_of_binary? h)
    refine .openLevel_then hlt (.bind (.skip ht) fun _ u => ?_)
    refine .bind (atom_performs hsub [] u) fun rhs => ?_
    rw [uncounted_entry_bind t _ rfl]
    exact hrest (.operation lhs.place lhs o rhs)

/-- Expressions and chains, by induction on the steps that are left, of which there are as many as
levels. -/
theorem expression_and_chain_perform (steps levels : Nat) (hsteps : levels ≤ steps) :
    (∀ depth alternatives, ((depth + levels : Nat) : Int) = limit →
      Performs limit depth (Work.expression steps alternatives)
        (expression limit levels alternatives)) ∧
    ∀ base n lhs, ((base + n + levels : Nat) : Int) = limit →
      ClosedPerforms limit base n (Work.chain steps lhs) (chain limit levels lhs) := by
  induction steps generalizing levels with
  | zero =>
    obtain rfl : levels = 0 := Nat.le_zero.mp hsteps
    constructor
    · intro depth alternatives h
      rw [Work.expression, expression]
      exact nested_performs_tooDeep _ h
    · intro base n lhs h
      exact chain_full_performs 0 lhs h
  | succ steps ih =>
    cases levels with
    | zero =>
      constructor
      · intro depth alternatives h
        rw [Work.expression, expression]
        exact nested_performs_tooDeep _ h
      · intro base n lhs h
        exact chain_full_performs (steps + 1) lhs h
    | succ levels =>
      obtain ⟨hexpr, hchain⟩ := ih levels (Nat.le_of_succ_le_succ hsteps)
      constructor
      · intro depth alternatives h
        rw [Work.expression, expression]
        have hinner : ((depth + 1 + levels : Nat) : Int) = limit := by omega
        refine .nested ?_ (by omega)
        refine (atom_performs (fun ks => hexpr (depth + 1) ks hinner) alternatives).bind fun e => ?_
        exact .closing (hchain (depth + 1) 0 e hinner)
      · intro base n lhs h
        rw [Work.chain_succ, chain_succ]
        refine link_performs (by omega) (fun ks => hexpr _ ks (by omega)) ?_ lhs
        exact fun lhs => hchain base (n + 1) lhs (by omega)

theorem expression_performs {steps levels : Nat} (hsteps : levels ≤ steps)
    (h : ((depth + levels : Nat) : Int) = limit) (alternatives : List Kind) :
    Performs limit depth (Work.expression steps alternatives)
      (expression limit levels alternatives) :=
  (expression_and_chain_perform steps levels hsteps).1 depth alternatives h

/-! ## Statements -/

theorem endExpr_performs (others : List Kind) :
    Performs limit depth (Work.endExpr others) (endExpr others) :=
  (token_performs (by decide)).map _

theorem load_performs : Performs limit depth Work.load load := by
  refine (token_performs (by decide)).bind fun t =>
    (accept_performs _ fun u s hs hk => ?_).bind fun path => (token_performs (by decide)).map _
  unfold Token.kind at hk
  split at hs
  · next hc =>
    rw [hc] at hk
    cases hk
  · cases hs

theorem nextParameter_performs : Performs limit depth Work.nextParameter nextParameter :=
  (token_performs (by decide)).bind fun t => .ite (ident_performs.map _) (.pure none)

theorem parameters_perform : Performs limit depth Work.parameters parameters := by
  refine (accept_performs _ fun t s hs hk => ?_).bind fun first => ?_
  · unfold Token.kind at hk
    split at hs
    · next hc =>
      rw [hc] at hk
      cases hk
    · next hc =>
      rw [hc] at hk
      cases hk
    · cases hs
  · cases first with
    | none => exact .pure []
    | some name => exact nextParameter_performs.collect.map (name :: ·)

section

variable {expr : (alternatives : List Kind) → Work Expr}
variable {expr' : (alternatives : List Kind) → Rule Expr}
variable {body : (returns : Bool) → Work Body} {body' : (returns : Bool) → Rule Body}
variable (hexpr : ∀ alternatives, Performs limit depth (expr alternatives) (expr' alternatives))
variable (hbody : ∀ returns, Performs limit depth (body returns) (body' returns))

include hexpr in
theorem assignmentOrExpression_performs :
    Performs limit depth (Work.assignmentOrExpression expr) (assignmentOrExpression expr') := by
  refine .here_then fun t => (hexpr [] t).bind fun lhs => ?_
  refine (skipIf_performs (by decide)).bind fun _ => .ite ?_ ?_
  · exact (hexpr []).bind fun rhs => (endExpr_performs []).map _
  · exact (endExpr_performs _).map _

include hexpr in
/-- The tokens behind a variable that is changed are in the table. -/
theorem update_performs : Performs limit depth (Work.update expr) (update expr') := by
  refine ident_performs.bind fun ⟨t, name⟩ => ?_
  refine token_view_performs (by decide) Token.kind_mem_updates fun u (s, o) hu => ?_
  dsimp only
  rw [entry_bind _ _ hu]
  refine .ite ?_ ?_
  · exact (token_performs (by decide)).map _
  · exact (hexpr []).bind fun _ => (endExpr_performs []).map _

include hexpr in
theorem condition_performs : Performs limit depth (Work.condition expr) (condition expr') := by
  refine (token_performs (by decide)).bind fun _ => (hexpr []).bind fun e => ?_
  exact (token_performs (by decide)).map _

include hbody in
theorem block_performs : Performs limit depth (Work.block body) (block body') :=
  (hbody false).map _

include hexpr hbody in
/-- The next `elif`, as a condition and a block. -/
theorem nextClause_performs :
    Performs limit depth (Work.nextClause expr body)
      (do return (← nextClause expr' body').map fun c => (c.condition, c.body)) := by
  unfold nextClause
  rw [bind_assoc]
  refine (skipIf_performs (by decide)).bind fun found => ?_
  cases found with
  | false => exact .pure none
  | true =>
    simp only [if_true, bind_assoc, pure_bind]
    exact (condition_performs hexpr).bind fun e => (block_performs hbody).map _

include hbody in
theorem otherwise_performs : Performs limit depth (Work.otherwise body) (otherwise body') :=
  (skipIf_performs (by decide)).bind fun _ => .ite ((block_performs hbody).map some) (.pure none)

/-- A branch whose clauses are given in two lists that were made together. -/
theorem ofLists_pairs (place : Place) (e : Expr) (ss : List Stmt)
    (clauses : List (Expr × List Stmt)) (last : Option (List Stmt)) :
    Branch.ofLists place e ss (clauses.map (·.1)) (clauses.map (·.2)) last =
      .ok (.mk place e ss (clauses.map fun c => .mk c.1 c.2) last) := by
  have hzip : List.zipWith Clause.mk (clauses.map (·.1)) (clauses.map (·.2)) =
      clauses.map fun c => .mk c.1 c.2 := by
    induction clauses with
    | nil => rfl
    | cons c cs ih => exact congrArg (Clause.mk c.1 c.2 :: ·) ih
  rw [Branch.ofLists, if_pos (by rw [List.length_map, List.length_map]), hzip]

include hexpr hbody in
theorem conditional_performs :
    Performs limit depth (Work.conditional expr body) (conditional expr' body') := by
  refine (token_performs (by decide)).bind fun t => (condition_performs hexpr).bind fun e => ?_
  refine (block_performs hbody).bind fun ss => ?_
  refine (nextClause_performs hexpr hbody).collect_map_bind (g := fun c => .mk c.1 c.2)
    (fun c => by cases c; rfl) fun clauses => ?_
  refine (otherwise_performs hbody).bind fun last => ?_
  rw [answer_bind _ (ofLists_pairs t.place e ss clauses last)]
  exact .pure _

include hexpr hbody in
theorem whileLoop_performs :
    Performs limit depth (Work.whileLoop expr body) (whileLoop expr' body') := by
  refine (token_performs (by decide)).bind fun t => (condition_performs hexpr).bind fun e => ?_
  exact (block_performs hbody).map _

include hexpr hbody in
theorem forLoop_performs :
    Performs limit depth (Work.forLoop expr body) (forLoop expr' body') := by
  refine (token_performs (by decide)).bind fun t => ident_performs.bind fun ⟨_, name⟩ => ?_
  refine (token_performs (by decide)).bind fun _ => (hexpr []).bind fun source => ?_
  refine (isHere_performs _).bind fun _ => .ite ?_ (refuse_performs _)
  exact (block_performs hbody).map _

include hbody in
theorem function_performs : Performs limit depth (Work.function body) (function body') := by
  refine (token_performs (by decide)).bind fun t => ident_performs.bind fun ⟨_, name⟩ => ?_
  refine (token_performs (by decide)).bind fun _ => parameters_perform.bind fun names => ?_
  exact (hbody true).map _

include hexpr hbody in
theorem statement_performs (follow : List Kind) :
    Performs limit depth (Work.statement expr body follow) (statement expr' body' follow) := by
  refine .here_then fun t => ?_
  have hother : PerformsAt limit depth t
      (Work.peek 1 >>= fun u =>
        if t.kind == .ident && u.update?.isSome then Work.update expr
        else if t.kind ∈ Kind.atomStarts then Work.assignmentOrExpression expr
        else Work.refuse (Kind.statementStarts ++ follow))
      (next >>= fun u =>
        if t.kind == .ident && u.update?.isSome then update expr'
        else if t.kind ∈ Kind.atomStarts then assignmentOrExpression expr'
        else refuse (Kind.statementStarts ++ follow)) := by
    refine .next_then fun u u' hu => ?_
    -- the token behind is looked at only behind a name
    have hcond : (t.kind == .ident && u.update?.isSome) =
        (t.kind == .ident && u'.update?.isSome) := by
      cases ht : t.isEnd with
      | false => rw [hu ht]
      | true =>
        have hk : t.kind = .eof := eq_of_beq ht
        rw [hk]
        rfl
    rw [hcond]
    refine .ite (update_performs hexpr t) (.ite ?_ (refuse_performs _ t))
    exact assignmentOrExpression_performs hexpr t
  dsimp only
  generalize t.kind = k at hother
  cases k with
  | keyword w =>
    cases w with
    | importWord => exact load_performs t
    | ifWord => exact conditional_performs hexpr hbody t
    | whileWord => exact whileLoop_performs hexpr hbody t
    | forWord => exact forLoop_performs hexpr hbody t
    | fnWord => exact function_performs hbody t
    | _ => exact hother
  | _ => exact hother

/-! ## Bodies -/

include hexpr hbody in
theorem nextStatement_performs (follow : List Kind) :
    Performs limit depth (Work.nextStatement expr body follow)
      (nextStatement expr' body' follow) := by
  refine .here_then fun t => .ite (.pure none) ?_
  exact (statement_performs hexpr hbody follow t).bind fun _ => .pure _

include hexpr hbody in
theorem statements_perform (follow : List Kind) :
    Performs limit depth (Work.collect (Work.nextStatement expr body follow))
      (collect (nextStatement expr' body' follow)) :=
  (nextStatement_performs hexpr hbody follow).collect

include hexpr in
theorem returned_performs (returns : Bool) :
    Performs limit depth (Work.returned expr returns) (returned expr' returns) := by
  show Performs limit depth
    (Work.here >>= fun t => if returns && (t.kind == .keyword .returnWord) then _ else _)
    (here >>= fun t => if returns && (t.kind == .keyword .returnWord) then _ else _)
  refine .here_then fun t => ?_
  split
  · next hk =>
    have ht : t.kind = .keyword .returnWord := by simpa using And.right (by simpa using hk)
    refine (PerformsAt.skip (by rw [Token.isEnd, ht]; rfl)).bind fun _ => ?_
    exact (hexpr []).bind fun _ => (endExpr_performs []).map _
  · exact .pure none

include hexpr hbody in
theorem contents_perform (returns : Bool) :
    Performs limit depth (Work.contents expr body returns)
      (do let statements ← collect (nextStatement expr' body' (bodyEnd returns))
          let result ← returned expr' returns
          return ⟨statements, result⟩) :=
  (statements_perform hexpr hbody _).bind fun _ => (returned_performs hexpr returns).map _

end

/-- What stands in a body is read with one more level, and the brace that ends it without that. -/
theorem nested_contents_perform {expr : (alternatives : List Kind) → Work Expr}
    {expr' : (alternatives : List Kind) → Rule Expr} {body : (returns : Bool) → Work Body}
    {body' : (returns : Bool) → Rule Body} (hlt : (depth : Int) < limit)
    (hexpr : ∀ alternatives,
      Performs limit (depth + 1) (expr alternatives) (expr' alternatives))
    (hbody : ∀ returns, Performs limit (depth + 1) (body returns) (body' returns))
    (returns : Bool) :
    Performs limit depth
      (do let b ← Work.nested (Work.contents expr body returns)
          let _ ← Work.token [.symbol .closeBrace] []
          return b)
      (do let statements ← collect (nextStatement expr' body' (bodyEnd returns))
          let result ← returned expr' returns
          let _ ← token [.symbol .closeBrace] []
          return ⟨statements, result⟩) := by
  have hrule : (do
      let statements ← collect (nextStatement expr' body' (bodyEnd returns))
      let result ← returned expr' returns
      let _ ← token [.symbol .closeBrace] []
      return (⟨statements, result⟩ : Body)) =
      (do
        let statements ← collect (nextStatement expr' body' (bodyEnd returns))
        let result ← returned expr' returns
        return (⟨statements, result⟩ : Body)) >>= fun b =>
          token [.symbol .closeBrace] [] >>= fun _ => pure b := by
    simp only [bind_assoc, pure_bind]
  rw [hrule]
  refine (Performs.nested (contents_perform hexpr hbody returns) hlt).bind fun b => ?_
  exact (token_performs (by decide)).map _

/-- A body without a level left for it. -/
theorem body_full_performs (steps : Nat) (returns : Bool) (hfull : (depth : Int) = limit) :
    Performs limit depth (Work.body steps returns) (body limit 0 returns) := by
  rw [body]
  cases steps with
  | zero =>
    rw [Work.body]
    exact (token_performs (by decide)).bind fun _ => nested_performs_tooDeep _ hfull
  | succ steps =>
    rw [Work.body]
    refine (token_performs (by decide)).bind fun _ => ?_
    have hbind : (tooDeep limit : Rule Body) = tooDeep limit >>= fun b : Body =>
        token [.symbol .closeBrace] [] >>= fun _ => pure b := rfl
    rw [hbind]
    exact (nested_performs_tooDeep _ hfull).bind fun b => (token_performs (by decide)).map _

/-- Bodies, by induction on the steps that are left, of which there are as many as levels. -/
theorem body_performs {steps levels : Nat} (hsteps : levels ≤ steps)
    (h : ((depth + levels : Nat) : Int) = limit) (returns : Bool) :
    Performs limit depth (Work.body steps returns) (body limit levels returns) := by
  induction steps generalizing levels depth returns with
  | zero =>
    obtain rfl : levels = 0 := Nat.le_zero.mp hsteps
    exact body_full_performs 0 returns h
  | succ steps ih =>
    cases levels with
    | zero => exact body_full_performs (steps + 1) returns h
    | succ levels =>
      have hinner : ((depth + 1 + levels : Nat) : Int) = limit := by omega
      have hsteps' := Nat.le_of_succ_le_succ hsteps
      rw [Work.body, body]
      exact (token_performs (by decide)).bind fun _ => nested_contents_perform (by omega)
        (expression_performs hsteps' hinner) (ih hsteps' hinner) returns

/-- A program. -/
theorem program_performs {steps levels : Nat} (hsteps : levels ≤ steps)
    (h : ((depth + levels : Nat) : Int) = limit) :
    Performs limit depth (Work.program steps) (program limit levels) :=
  (statements_perform (expression_performs hsteps h) (body_performs hsteps h) _).map _

end ScriptReader.Grammar
