import ScriptReader.Grammar.Statement
import ScriptReader.Proofs.ComparedRuns
import ScriptReader.Proofs.ExpressionPhrases

/-!
# The grammar on text further down

No rule of the grammar looks at where a token stands, but to say where a node or an error is.  So
each rule follows itself, as long as the rules inside it do: on text further down it makes the
same tree further down, or complains of the same.

Main statement: `program_follows`, a program further down is read alike.
-/

namespace ScriptReader

/-- A body with other places. -/
def Body.relocate (g : Place → Place) (b : Body) : Body :=
  ⟨b.statements.map (Stmt.relocate g), b.result.map (Expr.relocate g)⟩

namespace Grammar

open Rule Phrase

variable {c : Comparison}

/-! ## Expressions -/

section

variable {sub sub' : (alternatives : List Kind) → Rule Expr}
variable (hsub : ∀ alternatives,
  Follows c (Expr.relocate c.shift.place) (sub alternatives) (sub' alternatives))

include hsub

theorem arguments_follow :
    Follows c (List.map (Expr.relocate c.shift.place)) (arguments sub) (arguments sub') := by
  have hnext : Follows c (Option.map (Expr.relocate c.shift.place)) (nextArgument sub)
      (nextArgument sub') :=
    (token_follows (by decide)).bind fun t => .ite ((hsub _).map fun _ => rfl) (.pure rfl)
  refine (skipIf_follows (by decide)).bind fun _ => .ite (.pure rfl) ?_
  exact (hsub _).bind fun _ => hnext.collect.map fun _ => rfl

theorem call_follows : Follows c (Expr.relocate c.shift.place) (call sub) (call sub') := by
  refine ident_follows.bind fun ⟨t, name⟩ => (token_follows (by decide)).bind fun _ => ?_
  refine (arguments_follow hsub).map fun es => ?_
  rw [Expr.relocate, Expr.relocateAll_eq_map]
  rfl

theorem index_follows : Follows c (Expr.relocate c.shift.place) (index sub) (index sub') := by
  refine ident_follows.bind fun ⟨t, name⟩ => (token_follows (by decide)).bind fun _ => ?_
  exact (hsub _).bind fun _ => (token_follows (by decide)).map fun _ => rfl

theorem itemBody_follows (isPack : Bool) :
    Follows c (fun x => (x.1.relocate c.shift.place, x.2)) (itemBody sub isPack)
      (itemBody sub' isPack) :=
  .here_then fun t => (hsub _ t).bind fun _ => (skipIf_follows (by decide)).map fun _ => rfl

theorem nextItem_follows (follow : List Kind) :
    Follows c (Option.map fun x => (x.1.relocate c.shift.place, x.2)) (nextItem sub follow)
      (nextItem sub' follow) := by
  refine (token_follows (by decide)).bind fun t => .ite ?_ (.pure rfl)
  refine (skipIf_follows (by decide)).bind fun _ => .ite (.pure rfl) ?_
  refine (skipIf_follows (by decide)).bind fun isPack => ?_
  exact (itemBody_follows hsub isPack).bind fun ⟨_, _⟩ => .pure rfl

theorem comprehension_follows (place : Place) (body : Expr) :
    Follows c (Expr.relocate c.shift.place)
      (comprehension sub (c.shift.place place) (body.relocate c.shift.place))
      (comprehension sub' place body) := by
  refine (token_follows (by decide)).bind fun _ => ident_follows.bind fun ⟨_, name⟩ => ?_
  refine (token_follows (by decide)).bind fun _ => (hsub _).bind fun _ => ?_
  exact (token_follows (by decide)).map fun _ => rfl

theorem listFrom_follows (place itemPlace : Place) (head : Expr) (isPack : Bool) :
    Follows c (Expr.relocate c.shift.place)
      (listFrom sub (c.shift.place place) (c.shift.place itemPlace)
        (head.relocate c.shift.place) isPack)
      (listFrom sub' place itemPlace head isPack) := by
  refine (skipIf_follows (by decide)).bind fun isSpread => ?_
  refine (Follows.unfold (nextItem_follows hsub) _).map fun items => ?_
  rw [Expr.relocate, Item.relocateAll_eq_map]
  rfl

theorem list_follows : Follows c (Expr.relocate c.shift.place) (list sub) (list sub') := by
  refine (token_follows (by decide)).bind fun t => ?_
  refine (skipIf_follows (by decide)).bind fun isEmpty => .ite (.pure rfl) ?_
  refine (skipIf_follows (by decide)).bind fun isPack => ?_
  refine .here_then fun first => (hsub _ first).bind fun head => ?_
  refine (isHere_follows _).bind fun isSource => .ite ?_ ?_
  · exact comprehension_follows hsub t.place head
  · exact listFrom_follows hsub t.place first.place head isPack

omit hsub in
theorem leaf_follows {t : Token} (ht : t.isEnd = false) (e : Expr) :
    FollowsAt c (Expr.relocate c.shift.place) t (leaf (e.relocate c.shift.place)) (leaf e) :=
  .skip_then ht (.pure rfl)

theorem named_follows {t : Token} (ht : t.isEnd = false) (name : String) :
    FollowsAt c (Expr.relocate c.shift.place) t (named sub (c.shift.token t) name)
      (named sub' t name) := by
  refine .next_then fun u u' hu => ?_
  obtain rfl := hu ht
  exact .ite (call_follows hsub t)
    (.ite (index_follows hsub t) (leaf_follows ht (.ident t.place name)))

omit hsub in
theorem stepExpr_follows : Follows c (Expr.relocate c.shift.place) stepExpr stepExpr := by
  have hstep := accept_with_token_follows (c := c) Token.step?
    [.symbol .increment, .symbol .decrement] (fun _ => rfl) fun _ _ => kind_ne_eof_of_step?
  exact hstep.bind fun ⟨t, o⟩ => ident_follows.map fun _ => rfl

theorem atom_follows (alternatives : List Kind) :
    Follows c (Expr.relocate c.shift.place) (atom sub alternatives) (atom sub' alternatives) := by
  refine .here_then fun t => ?_
  rw [Shift.content_token]
  have hend : ∀ {k : Content}, t.content = k → (k.kind == .eof) = false → t.isEnd = false := by
    intro k hk hne
    rwa [Token.isEnd, Token.kind, hk]
  split
  case h_1 hc => exact leaf_follows (hend hc rfl) (.int t.place _)
  case h_2 hc => exact leaf_follows (hend hc rfl) (.float t.place _)
  case h_3 hc => exact leaf_follows (hend hc rfl) (.string t.place _)
  case h_4 hc => exact leaf_follows (hend hc rfl) (.char t.place _)
  case h_5 hc => exact leaf_follows (hend hc rfl) (.bool t.place _)
  case h_6 hc => exact named_follows hsub (hend hc rfl) _
  case h_7 => exact list_follows hsub t
  case h_8 => exact stepExpr_follows t
  case h_9 => exact stepExpr_follows t
  case h_10 => exact refuse_follows _ t

end

section

variable {sub sub' : (alternatives : List Kind) → Rule Expr} {rest rest' : Expr → Rule Expr}
variable
  (hsub : ∀ alternatives,
    Follows c (Expr.relocate c.shift.place) (sub alternatives) (sub' alternatives))
  (hrest : ∀ lhs, Follows c (Expr.relocate c.shift.place)
    (rest (lhs.relocate c.shift.place)) (rest' lhs))

include hsub hrest

theorem link_follows (lhs : Expr) :
    Follows c (Expr.relocate c.shift.place) (link sub rest (lhs.relocate c.shift.place))
      (link sub' rest' lhs) := by
  refine .here_then fun t => ?_
  rw [Shift.binary?_token]
  split
  · exact FollowsAt.pure rfl
  · next o ho =>
    refine .skip_then (beq_false_of_ne (kind_ne_eof_of_binary? ho)) ?_
    refine (atom_follows hsub []).bind fun rhs => ?_
    rw [Expr.place_relocate]
    exact hrest (.operation lhs.place lhs o rhs)

end

section

variable {limit limit' : Int} {levels levels' : Nat}
variable
  (hexpr : ∀ alternatives, Follows c (Expr.relocate c.shift.place)
    (expression limit levels alternatives) (expression limit' levels' alternatives))
  (hchain : ∀ lhs, Follows c (Expr.relocate c.shift.place)
    (chain limit levels (lhs.relocate c.shift.place)) (chain limit' levels' lhs))

include hexpr hchain

theorem expression_succ_follows (alternatives : List Kind) :
    Follows c (Expr.relocate c.shift.place) (expression limit (levels + 1) alternatives)
      (expression limit' (levels' + 1) alternatives) := by
  rw [expression, expression]
  exact (atom_follows hexpr alternatives).bind hchain

theorem chain_succ_follows (lhs : Expr) :
    Follows c (Expr.relocate c.shift.place)
      (chain limit (levels + 1) (lhs.relocate c.shift.place)) (chain limit' (levels' + 1) lhs) := by
  rw [chain_succ, chain_succ]
  exact link_follows hexpr hchain lhs

end

/-- Expressions and chains, by induction on the levels that are left. -/
theorem expression_and_chain_follow (limit : Int) (levels : Nat) :
    (∀ alternatives, Follows c (Expr.relocate c.shift.place)
      (expression limit levels alternatives) (expression limit levels alternatives)) ∧
    ∀ lhs, Follows c (Expr.relocate c.shift.place)
      (chain limit levels (lhs.relocate c.shift.place)) (chain limit levels lhs) := by
  induction levels with
  | zero =>
    constructor
    · intro alternatives
      rw [expression]
      exact tooDeep_follows limit
    · intro lhs
      rw [chain, chain]
      refine .here_then fun t => ?_
      rw [Shift.binary?_token]
      split
      · exact FollowsAt.pure rfl
      · exact tooDeep_follows limit t
  | succ levels ih =>
    obtain ⟨hexpr, hchain⟩ := ih
    exact ⟨expression_succ_follows hexpr hchain, chain_succ_follows hexpr hchain⟩

theorem expression_follows (limit : Int) (levels : Nat) (alternatives : List Kind) :
    Follows c (Expr.relocate c.shift.place) (expression limit levels alternatives)
      (expression limit levels alternatives) :=
  (expression_and_chain_follow limit levels).1 alternatives

/-! ## Statements -/

theorem endExpr_follows (others : List Kind) :
    Follows c id (endExpr others) (endExpr others) :=
  (token_follows (by decide)).map fun _ => rfl

theorem load_follows : Follows c (Stmt.relocate c.shift.place) load load := by
  refine (token_follows (by decide)).bind fun t =>
    (accept_follows (f := id) (fun u => ?_) fun u s hs hk => ?_).bind fun path => ?_
  · rw [Shift.content_token, Option.map_id]
    rfl
  · unfold Token.kind at hk
    split at hs
    · next hc =>
      rw [hc] at hk
      cases hk
    · cases hs
  · exact (token_follows (by decide)).map fun _ => rfl

theorem nextParameter_follows : Follows c (Option.map id) nextParameter nextParameter :=
  (token_follows (by decide)).bind fun t =>
    .ite (ident_follows.map fun _ => rfl) (.pure rfl)

theorem parameters_follow : Follows c id parameters parameters := by
  refine (accept_follows (f := id) (fun t => ?_) fun t s hs hk => ?_).bind fun first => ?_
  · rw [Shift.content_token, Option.map_id]
    rfl
  · unfold Token.kind at hk
    split at hs
    · next hc =>
      rw [hc] at hk
      cases hk
    · next hc =>
      rw [hc] at hk
      cases hk
    · cases hs
  · cases first with
    | none => exact .pure rfl
    | some name =>
      refine nextParameter_follows.collect.map fun names => ?_
      rw [List.map_id]
      rfl

section

variable {expr expr' : (alternatives : List Kind) → Rule Expr}
variable {body body' : (returns : Bool) → Rule Body}
variable
  (hexpr : ∀ alternatives,
    Follows c (Expr.relocate c.shift.place) (expr alternatives) (expr' alternatives))
  (hbody : ∀ returns, Follows c (Body.relocate c.shift.place) (body returns) (body' returns))

include hexpr in
theorem assignmentOrExpression_follows :
    Follows c (Stmt.relocate c.shift.place) (assignmentOrExpression expr)
      (assignmentOrExpression expr') := by
  refine .here_then fun t => (hexpr [] t).bind fun lhs => ?_
  refine (skipIf_follows (by decide)).bind fun _ => .ite ?_ ?_
  · exact (hexpr []).bind fun rhs => (endExpr_follows []).map fun _ => rfl
  · exact (endExpr_follows _).map fun _ => rfl

include hexpr in
theorem update_follows : Follows c (Stmt.relocate c.shift.place) (update expr) (update expr') := by
  have hsymbol := accept_with_token_follows (c := c) Token.update? Kind.updates (fun _ => rfl)
    fun t x hx => by simp [Token.kind_of_update? hx]
  refine ident_follows.bind fun ⟨t, name⟩ => hsymbol.bind fun ⟨u, s, o⟩ => .ite ?_ ?_
  · exact (token_follows (by decide)).map fun _ => rfl
  · exact (hexpr []).bind fun _ => (endExpr_follows []).map fun _ => rfl

include hexpr in
theorem condition_follows :
    Follows c (Expr.relocate c.shift.place) (condition expr) (condition expr') := by
  refine (token_follows (by decide)).bind fun _ => (hexpr []).bind fun e => ?_
  exact (token_follows (by decide)).map fun _ => rfl

include hbody in
theorem block_follows :
    Follows c (List.map (Stmt.relocate c.shift.place)) (block body) (block body') :=
  (hbody false).map fun _ => rfl

include hexpr hbody in
theorem nextClause_follows :
    Follows c (Option.map (Clause.relocate c.shift.place)) (nextClause expr body)
      (nextClause expr' body') := by
  refine (skipIf_follows (by decide)).bind fun _ => .ite ?_ (.pure rfl)
  refine (condition_follows hexpr).bind fun e => (block_follows hbody).map fun ss => ?_
  rw [Option.map_some, Clause.relocate, Stmt.relocateAll_eq_map]

include hbody in
theorem otherwise_follows :
    Follows c (Option.map (List.map (Stmt.relocate c.shift.place))) (otherwise body)
      (otherwise body') :=
  (skipIf_follows (by decide)).bind fun _ => .ite ((block_follows hbody).map fun _ => rfl)
    (.pure rfl)

include hexpr hbody in
theorem conditional_follows :
    Follows c (Stmt.relocate c.shift.place) (conditional expr body) (conditional expr' body') := by
  refine (token_follows (by decide)).bind fun t => (condition_follows hexpr).bind fun e => ?_
  refine (block_follows hbody).bind fun ss => ?_
  refine (nextClause_follows hexpr hbody).collect.bind fun clauses => ?_
  refine (otherwise_follows hbody).map fun last => ?_
  rw [Stmt.relocate, Branch.relocate_mk]
  rfl

include hexpr hbody in
theorem whileLoop_follows :
    Follows c (Stmt.relocate c.shift.place) (whileLoop expr body) (whileLoop expr' body') := by
  refine (token_follows (by decide)).bind fun t => (condition_follows hexpr).bind fun e => ?_
  refine (block_follows hbody).map fun ss => ?_
  rw [Stmt.relocate, Stmt.relocateAll_eq_map]
  rfl

include hexpr hbody in
theorem forLoop_follows :
    Follows c (Stmt.relocate c.shift.place) (forLoop expr body) (forLoop expr' body') := by
  refine (token_follows (by decide)).bind fun t => ident_follows.bind fun ⟨_, name⟩ => ?_
  refine (token_follows (by decide)).bind fun _ => (hexpr []).bind fun source => ?_
  refine (isHere_follows _).bind fun _ => .ite ?_ (refuse_follows _)
  refine (block_follows hbody).map fun ss => ?_
  rw [Stmt.relocate, Loop.relocate, Stmt.relocateAll_eq_map]
  rfl

include hbody in
theorem function_follows :
    Follows c (Stmt.relocate c.shift.place) (function body) (function body') := by
  refine (token_follows (by decide)).bind fun t => ident_follows.bind fun ⟨_, name⟩ => ?_
  refine (token_follows (by decide)).bind fun _ => parameters_follow.bind fun names => ?_
  refine (hbody true).map fun b => ?_
  rw [Stmt.relocate, Stmt.relocateAll_eq_map]
  rfl

include hexpr hbody in
theorem statement_follows (follow : List Kind) :
    Follows c (Stmt.relocate c.shift.place) (statement expr body follow)
      (statement expr' body' follow) := by
  refine .here_then fun t => ?_
  rw [Shift.kind_token]
  dsimp only
  split
  · exact load_follows t
  · exact conditional_follows hexpr hbody t
  · exact whileLoop_follows hexpr hbody t
  · exact forLoop_follows hexpr hbody t
  · exact function_follows hbody t
  · refine .next_then fun u u' hu => ?_
    -- the token behind is looked at only behind a name
    have hcond : (t.kind == .ident && u.update?.isSome) =
        (t.kind == .ident && u'.update?.isSome) := by
      cases ht : t.isEnd with
      | false => rw [hu ht, Shift.update?_token]
      | true =>
        have hk : t.kind = .eof := eq_of_beq ht
        rw [hk]
        rfl
    rw [hcond]
    refine .ite (update_follows hexpr t) (.ite ?_ (refuse_follows _ t))
    exact assignmentOrExpression_follows hexpr t

include hexpr hbody in
theorem statements_follow (follow : List Kind) :
    Follows c (List.map (Stmt.relocate c.shift.place))
      (collect (nextStatement expr body follow)) (collect (nextStatement expr' body' follow)) := by
  refine Follows.collect (.here_then fun t => .ite (.pure rfl) ?_)
  exact (statement_follows hexpr hbody follow t).bind fun _ => .pure rfl

include hexpr in
theorem returned_follows (returns : Bool) :
    Follows c (Option.map (Expr.relocate c.shift.place)) (returned expr returns)
      (returned expr' returns) := by
  show Follows c _
    (here >>= fun t => if returns && (t.kind == .keyword .returnWord) then _ else _)
    (here >>= fun t => if returns && (t.kind == .keyword .returnWord) then _ else _)
  refine .here_then fun t => ?_
  rw [Shift.kind_token]
  split
  · next hk =>
    have ht : t.kind = .keyword .returnWord := by simpa using And.right (by simpa using hk)
    refine .skip_then (by rw [Token.isEnd, ht]; rfl) ?_
    exact (hexpr []).bind fun _ => (endExpr_follows []).map fun _ => rfl
  · exact .pure rfl

include hexpr hbody in
/-- What stands behind the brace that opens a body. -/
theorem bodyRest_follows (returns : Bool) :
    Follows c (Body.relocate c.shift.place)
      (do let statements ← collect (nextStatement expr body (bodyEnd returns))
          let result ← returned expr returns
          let _ ← token [.symbol .closeBrace] []
          return ⟨statements, result⟩)
      (do let statements ← collect (nextStatement expr' body' (bodyEnd returns))
          let result ← returned expr' returns
          let _ ← token [.symbol .closeBrace] []
          return ⟨statements, result⟩) := by
  refine (statements_follow hexpr hbody _).bind fun ss => ?_
  refine (returned_follows hexpr returns).bind fun result => ?_
  exact (token_follows (by decide)).map fun _ => rfl

end

section

variable {limit limit' : Int} {levels levels' : Nat}

/-- A body with a level left for it, in terms of what it holds. -/
theorem body_succ_follows
    (hexpr : ∀ alternatives, Follows c (Expr.relocate c.shift.place)
      (expression limit levels alternatives) (expression limit' levels' alternatives))
    (hbody : ∀ returns, Follows c (Body.relocate c.shift.place) (body limit levels returns)
      (body limit' levels' returns)) (returns : Bool) :
    Follows c (Body.relocate c.shift.place) (body limit (levels + 1) returns)
      (body limit' (levels' + 1) returns) := by
  rw [body, body]
  exact (token_follows (by decide)).bind fun _ => bodyRest_follows hexpr hbody returns

/-- A program, in terms of what it holds. -/
theorem program_follows_of
    (hexpr : ∀ alternatives, Follows c (Expr.relocate c.shift.place)
      (expression limit levels alternatives) (expression limit' levels' alternatives))
    (hbody : ∀ returns, Follows c (Body.relocate c.shift.place) (body limit levels returns)
      (body limit' levels' returns)) :
    Follows c (fun p => ⟨p.place, p.statements.map (Stmt.relocate c.shift.place)⟩)
      (program limit levels) (program limit' levels') :=
  (statements_follow hexpr hbody _).map fun _ => rfl

end

/-- Bodies, by induction on the levels that are left. -/
theorem body_follows (limit : Int) (levels : Nat) (returns : Bool) :
    Follows c (Body.relocate c.shift.place) (body limit levels returns)
      (body limit levels returns) := by
  induction levels generalizing returns with
  | zero =>
    rw [body]
    exact (token_follows (by decide)).bind fun _ => tooDeep_follows limit
  | succ levels ih => exact body_succ_follows (expression_follows limit levels) ih returns

/-- A program further down is read alike. -/
theorem program_follows (limit : Int) (levels : Nat) :
    Follows c (fun p => ⟨p.place, p.statements.map (Stmt.relocate c.shift.place)⟩)
      (program limit levels) (program limit levels) :=
  program_follows_of (expression_follows limit levels) (body_follows limit levels)

end Grammar

end ScriptReader
