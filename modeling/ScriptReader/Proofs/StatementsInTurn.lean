import Mathlib
import ScriptReader.Proofs.LimitCuts
import ScriptReader.Proofs.ParsedScripts

/-!
# Statements in turn

A script can be read statement by statement: a new session reads the first statement of some
tokens, the tokens that are left are given to the next one, and so on up to the end mark.  This
file shows that it comes to the same as reading the whole program.

Three runs are compared.  `statementByStatement` reads each statement by a session of its own,
`ReadsOn` is one session that reads them all, and `Grammar.program` is the rule for programs.  All
of them make the steps of `InTurn`, which is about tokens only: a step reads a statement from the
front of the tokens ahead, wherever in a list these tokens stand.

Main statement: `statements_in_turn`.
-/

namespace ScriptReader.Session

open Rule Phrase Grammar

/-! ## One session for each statement -/

/-- What has come of reading statements in turn. -/
structure Harvest where
  /-- The statements, each with the tokens behind it. -/
  statements : List (Stmt × List Token)
  /-- The error of the last step, or the tokens that are left. -/
  outcome : Except Error (List Token)

/-- The rule for statements that a session with all its levels left runs. -/
def freshStatement (limit : Int) : Rule Stmt :=
  Grammar.statement (Grammar.expression limit limit.toNat) (Grammar.body limit limit.toNat) [.eof]

theorem statement_eq_fresh {s : Session} {limit : Int} (hlimit : s.limit = limit)
    (hdepth : s.depth = 0) : s.statement [.eof] = freshStatement limit := by
  have hlevels : s.levels = limit.toNat := by
    rw [levels, hlimit, hdepth]
    simp
  unfold statement expression body freshStatement
  rw [hlimit, hlevels]

theorem freshStatement_sound {limit : Int} {ts rest : List Token} {x : Stmt}
    (h : freshStatement limit ts = .ok x rest) :
    ∃ us, ts = us ++ rest ∧ us ≠ [] ∧ Open us := by
  have hlevels : 0 + limit.toNat = limit.toNat := Nat.zero_add _
  obtain ⟨us, rfl, hus, -⟩ := statement_sound (reads_expression_fits limit hlevels)
    (reads_body limit hlevels) h
  obtain ⟨t, vs, rfl, -⟩ := hus.opens
  exact ⟨_, rfl, List.cons_ne_nil _ _, hus.isOpen Having.isOpen⟩

theorem remaining_lt {ts : List Token} {limit : Int} {s s' : Session} {x : Stmt}
    (hend : (firstToken ts).isEnd = false) (hs : ofTokens ts limit = .ok s)
    (h : s.run (s.statement [.eof]) = (.ok x, s')) : s'.remaining.length < ts.length := by
  obtain ⟨-, rfl⟩ := ofTokens_ok.mp hs
  rw [statement_eq_fresh rfl rfl] at h
  obtain ⟨rest, hread⟩ := run_ok.mp (congrArg Prod.fst h)
  obtain ⟨us, hahead, hne, -⟩ := freshStatement_sound hread
  rw [run_of_ok hahead (hahead ▸ hread)] at h
  obtain ⟨-, rfl⟩ := Prod.mk.inj h
  have hts : ts ≠ [] := by
    rintro rfl
    cases hend
  have hus := List.length_pos_iff.mpr hne
  have hts := List.length_pos_iff.mpr hts
  show (ts.drop (0 + us.length)).length < ts.length
  rw [List.length_drop]
  omega

/-- Reads statements in turn, each by a session of its own, up to the end mark. -/
def statementByStatement (limit : Int) (ts : List Token) : Harvest :=
  if _hend : (firstToken ts).isEnd = true then ⟨[], .ok ts⟩
  else match _hs : ofTokens ts limit with
    | .error e => ⟨[], .error e⟩
    | .ok s => match _h : s.run (s.statement [.eof]) with
      | (.error e, _) => ⟨[], .error e⟩
      | (.ok x, s') =>
        let later := statementByStatement limit s'.remaining
        ⟨(x, s'.remaining) :: later.statements, later.outcome⟩
termination_by ts.length
decreasing_by exact remaining_lt (by simpa using _hend) _hs _h

/-- A session that reads statements one after the other while no end mark is ahead. -/
inductive ReadsOn : Session → List Stmt → Session → Prop
  | stay {s : Session} : ReadsOn s [] s
  | read {s s' s'' : Session} {x : Stmt} {xs : List Stmt} (hend : s.current.isEnd = false)
      (h : s.run (s.statement [.eof]) = (.ok x, s')) (later : ReadsOn s' xs s'') :
      ReadsOn s (x :: xs) s''

/-! ## Statements at the front of some tokens -/

/-- Statements are read from the front of some tokens, each with the tokens behind it. -/
inductive InTurn (limit : Int) :
    List Token → List (Stmt × List Token) → List Token → Prop
  | stay {ts : List Token} : InTurn limit ts [] ts
  | read {ts mid rest : List Token} {x : Stmt} {xs : List (Stmt × List Token)}
      (hend : (firstToken ts).isEnd = false) (h : freshStatement limit ts = .ok x mid)
      (later : InTurn limit mid xs rest) : InTurn limit ts ((x, mid) :: xs) rest

/-- No more statements are read from the front of some tokens. -/
inductive Stops (limit : Int) (ts : List Token) : Except Error (List Token) → Prop
  | finished (hend : (firstToken ts).isEnd = true) : Stops limit ts (.ok ts)
  | failed {e : Error} {rest : List Token} (hend : (firstToken ts).isEnd = false)
      (h : freshStatement limit ts = .error e rest) : Stops limit ts (.error e)

theorem freshStatement_front {limit : Int} {vs mid : List Token} {e : Token} {x : Stmt}
    (he : e.isEnd = true) (h : freshStatement limit (vs ++ [e]) = .ok x mid) :
    ∃ us vs', vs = us ++ vs' ∧ us ≠ [] ∧ mid = vs' ++ [e] := by
  obtain ⟨us, heq, hne, hus⟩ := freshStatement_sound h
  rcases List.append_eq_append_iff.mp heq with ⟨ws, rfl, hws⟩ | ⟨ws, rfl, rfl⟩
  · cases ws with
    | nil => exact ⟨vs, [], by simp, by simpa using hne, by simpa using hws.symm⟩
    | cons w ws =>
      -- the end mark would be among the tokens of the statement
      obtain ⟨rfl, -⟩ := List.cons.inj hws
      have hev := hus e (by simp)
      rw [he] at hev
      cases hev
  · exact ⟨us, ws, rfl, hne, rfl⟩

/-! ## One session for each statement, on the tokens ahead -/

theorem statementByStatement_of_end {limit : Int} {ts : List Token}
    (hend : (firstToken ts).isEnd = true) : statementByStatement limit ts = ⟨[], .ok ts⟩ := by
  rw [statementByStatement, dif_pos hend]

theorem statementByStatement_of_run {limit : Int} {ts : List Token} (hl : 1 ≤ limit)
    (hend : (firstToken ts).isEnd = false) :
    statementByStatement limit ts =
      match run ⟨ts, 0, 0, limit⟩ (freshStatement limit) with
      | (.error e, _) => ⟨[], .error e⟩
      | (.ok x, s') =>
        ⟨(x, s'.remaining) :: (statementByStatement limit s'.remaining).statements,
          (statementByStatement limit s'.remaining).outcome⟩ := by
  have hs : ofTokens ts limit = .ok ⟨ts, 0, 0, limit⟩ := ofTokens_ok.mpr ⟨hl, rfl⟩
  rw [statementByStatement, dif_neg (by rw [hend]; exact Bool.false_ne_true)]
  split
  · next hs' =>
    rw [hs] at hs'
    cases hs'
  · next s hs' =>
    obtain rfl := Except.ok.inj (hs.symm.trans hs')
    have hstatement : statement ⟨ts, 0, 0, limit⟩ [.eof] = freshStatement limit :=
      statement_eq_fresh rfl rfl
    rw [← hstatement]
    split
    · next h => rw [h]
    · next h => rw [h]

theorem statementByStatement_of_error {limit : Int} {vs rest : List Token} {e : Token}
    {err : Error} (hl : 1 ≤ limit) (he : e.isEnd = true)
    (hend : (firstToken (vs ++ [e])).isEnd = false)
    (h : freshStatement limit (vs ++ [e]) = .error err rest) :
    statementByStatement limit (vs ++ [e]) = ⟨[], .error err⟩ := by
  have hrun : (run ⟨vs ++ [e], 0, 0, limit⟩ (freshStatement limit)).1 = .error err := by
    rw [outcome_run, ahead_of_end he, h]
    rfl
  rw [statementByStatement_of_run hl hend]
  split
  · next heq =>
    rw [heq] at hrun
    cases hrun
    rfl
  · next heq =>
    rw [heq] at hrun
    cases hrun

theorem statementByStatement_of_ok {limit : Int} {us vs : List Token} {e : Token} {x : Stmt}
    (hl : 1 ≤ limit) (he : e.isEnd = true) (hend : (firstToken (us ++ vs ++ [e])).isEnd = false)
    (h : freshStatement limit (us ++ vs ++ [e]) = .ok x (vs ++ [e])) :
    statementByStatement limit (us ++ vs ++ [e]) =
      ⟨(x, vs ++ [e]) :: (statementByStatement limit (vs ++ [e])).statements,
        (statementByStatement limit (vs ++ [e])).outcome⟩ := by
  have hahead : ahead ⟨us ++ vs ++ [e], 0, 0, limit⟩ = us ++ (vs ++ [e]) := by
    rw [ahead_of_end he, List.append_assoc]
  have hremaining : remaining ⟨us ++ vs ++ [e], 0 + us.length, 0, limit⟩ = vs ++ [e] := by
    rw [remaining, Nat.zero_add, List.append_assoc, List.drop_left]
  rw [List.append_assoc] at h
  rw [statementByStatement_of_run hl hend, run_of_ok hahead h]
  dsimp only
  rw [hremaining]

section

variable {limit : Int} {e : Token} (he : e.isEnd = true)

include he

/-- What is left behind statements in turn are tokens in front of the end mark. -/
theorem InTurn.front {ts rest : List Token} {xs : List (Stmt × List Token)}
    (h : InTurn limit ts xs rest) {vs : List Token} (hts : ts = vs ++ [e]) :
    ∃ us vs', vs = us ++ vs' ∧ rest = vs' ++ [e] := by
  induction h generalizing vs with
  | stay => exact ⟨[], vs, rfl, hts⟩
  | read hend h later ih =>
    subst hts
    obtain ⟨us, vs', rfl, -, rfl⟩ := freshStatement_front he h
    obtain ⟨ws, ws', rfl, rfl⟩ := ih rfl
    exact ⟨us ++ ws, ws', by rw [List.append_assoc], rfl⟩

theorem InTurn.suffixes {ts rest : List Token} {xs : List (Stmt × List Token)}
    (h : InTurn limit ts xs rest) {vs : List Token} (hts : ts = vs ++ [e]) :
    (ts :: xs.map (·.2)).IsChain (fun us us' => us' <:+ us ∧ us' ≠ us) ∧
      ∀ us ∈ ts :: xs.map (·.2), [e] <:+ us := by
  induction h generalizing vs with
  | stay =>
    subst hts
    exact ⟨.singleton _, List.forall_mem_singleton.mpr (List.suffix_append _ _)⟩
  | @read ts mid rest x xs hend h later ih =>
    subst hts
    obtain ⟨us, vs', rfl, hne, rfl⟩ := freshStatement_front he h
    obtain ⟨hchain, hends⟩ := ih rfl
    refine ⟨List.isChain_cons_cons.mpr ⟨⟨⟨us, by simp⟩, fun heq => hne ?_⟩, hchain⟩,
      List.forall_mem_cons.mpr ⟨List.suffix_append _ _, hends⟩⟩
    have hlength := congrArg List.length heq
    simp only [List.length_append] at hlength
    exact List.length_eq_zero_iff.mp (by omega)

/-- Sessions that read one statement each read statements in turn, until no more are read. -/
theorem inTurn_statementByStatement (hl : 1 ≤ limit) (vs : List Token) :
    ∃ rest, InTurn limit (vs ++ [e]) (statementByStatement limit (vs ++ [e])).statements rest ∧
      Stops limit rest (statementByStatement limit (vs ++ [e])).outcome := by
  induction hn : vs.length using Nat.strongRecOn generalizing vs with
  | ind n ih =>
    subst hn
    cases hend : (firstToken (vs ++ [e])).isEnd with
    | true =>
      rw [statementByStatement_of_end hend]
      exact ⟨_, .stay, .finished hend⟩
    | false =>
      cases hread : freshStatement limit (vs ++ [e]) with
      | error e' rest =>
        rw [statementByStatement_of_error hl he hend hread]
        exact ⟨_, .stay, .failed hend hread⟩
      | ok x mid =>
        obtain ⟨us, vs', rfl, hne, rfl⟩ := freshStatement_front he hread
        rw [statementByStatement_of_ok hl he hend hread]
        have hpos := List.length_pos_iff.mpr hne
        obtain ⟨rest, hin, hstops⟩ := ih vs'.length (by rw [List.length_append]; omega) vs' rfl
        exact ⟨rest, .read hend hread hin, hstops⟩

theorem InTurn.readsOn {ts rest : List Token} {xs : List (Stmt × List Token)}
    (h : InTurn limit ts xs rest) {vs : List Token} (hts : ts = vs ++ [e]) {s : Session}
    (hlimit : s.limit = limit) (hdepth : s.depth = 0) (hahead : s.ahead = ts) :
    ∃ s', ReadsOn s (xs.map (·.1)) s' ∧ s'.ahead = rest ∧ s'.limit = limit ∧ s'.depth = 0 := by
  induction h generalizing vs s with
  | stay => exact ⟨s, .stay, hahead, hlimit, hdepth⟩
  | @read ts mid rest x xs hend h later ih =>
    subst hts
    obtain ⟨us, vs', rfl, -, rfl⟩ := freshStatement_front he h
    rw [List.append_assoc] at h hahead
    have hrun := run_of_ok hahead h
    have hahead' : ahead { s with position := s.position + us.length } = vs' ++ [e] :=
      ahead_of_position hahead (hasEnd_concat he vs') s.depth
    obtain ⟨s', hs', hrest⟩ :=
      ih rfl (s := { s with position := s.position + us.length }) hlimit hdepth hahead'
    refine ⟨s', .read ?_ ?_ hs', hrest⟩
    · rw [current_eq, hahead, ← List.append_assoc]
      exact hend
    · rw [statement_eq_fresh hlimit hdepth]
      exact hrun

end

/-! ## The rule for programs -/

theorem answer_map {α β : Type} (g : α → β) (r : Rule α) (ts : List Token) :
    Rule.answer ((do return g (← r) : Rule β) ts) = (Rule.answer (r ts)).map g := by
  cases h : r ts with
  | ok a rest =>
    rw [bind_of_ok h]
    rfl
  | error err rest =>
    rw [bind_of_error h]
    rfl

/-- The step that the rule for programs repeats. -/
def freshNext (limit : Int) : Rule (Option Stmt) :=
  nextStatement (Grammar.expression limit limit.toNat) (Grammar.body limit limit.toNat) [.eof]

theorem takes_freshNext (limit : Int) :
    Takes fun _ : Unit => (do return (← freshNext limit).map (·, ()) :
      Rule (Option (Stmt × Unit))) := by
  have hlevels : 0 + limit.toNat = limit.toNat := Nat.zero_add _
  exact fun _ ts a _ rest h => nextStatement_takes (reads_expression_fits limit hlevels)
    (reads_body limit hlevels) ts a rest (stateless_ok.mp h)

theorem freshNext_of_not_end {limit : Int} {ts : List Token}
    (hend : (firstToken ts).isEnd = false) :
    freshNext limit ts = (do return some (← freshStatement limit) : Rule (Option Stmt)) ts := by
  have hk : (firstToken ts).kind ∉ [Kind.eof] := by
    rw [List.mem_singleton]
    exact fun hk => by rw [Token.isEnd, hk] at hend; cases hend
  show (if (firstToken ts).kind ∈ [Kind.eof] then _ else _ : Rule (Option Stmt)) ts = _
  rw [if_neg hk]
  rfl

/-- The statements that are read in turn are those of the program, and the program fails where
they stop. -/
theorem InTurn.statements {limit : Int} {ts rest : List Token} {xs : List (Stmt × List Token)}
    (h : InTurn limit ts xs rest) {o : Except Error (List Token)} (hstops : Stops limit rest o) :
    Rule.answer (collect (freshNext limit) ts) = o.map fun _ => xs.map (·.1) := by
  have htakes := takes_freshNext limit
  induction h with
  | @stay ts =>
    cases hstops with
    | finished hend =>
      have hk : (firstToken ts).kind ∈ [Kind.eof] := List.mem_singleton.mpr (eq_of_beq hend)
      have hstep : freshNext limit ts = .ok none ts := nextStatement_ok.mpr (Or.inl ⟨hk, rfl, rfl⟩)
      have hread : collect (freshNext limit) ts = .ok [] ts :=
        (unfold_ok htakes).mpr (.done (stateless_ok.mpr hstep))
      rw [hread]
      rfl
    | @failed err rest hend herror =>
      have hstep : freshNext limit ts = .error err rest := by
        rw [freshNext_of_not_end hend, bind_of_error herror]
      have hfail : collect (freshNext limit) ts = .error err rest :=
        (unfold_error htakes).mpr (Or.inl (stateless_error.mpr hstep))
      rw [hfail]
      rfl
  | @read ts mid rest x xs hend h later ih =>
    have hstep : freshNext limit ts = .ok (some x) mid := by
      rw [freshNext_of_not_end hend, bind_of_ok h]
      rfl
    have hread : collect (freshNext limit) ts =
        (do return x :: (← collect (freshNext limit)) : Rule (List Stmt)) mid :=
      unfold_of_some htakes (stateless_ok.mpr hstep)
    rw [hread, answer_map, ih hstops]
    cases o <;> rfl

/-! ## Scripts -/

/-- Reading the statements of a script in turn, each by a session of its own with the same limit,
comes to the same as parsing it.

* If the script is parsed, its statements are read and the end mark is left.
* If it is not, some step raises the same error.  The statements before that step are those that
  one session reads from all the tokens before it comes to the error.
* At each step the tokens get fewer, and the end mark stays the last one. -/
theorem statements_in_turn {source : String} {limit : Int} {tokens : List Token}
    (htok : tokenize source = .ok tokens) (hl : 1 ≤ limit) :
    ∃ vs e, tokens = vs ++ [e] ∧ e.isEnd = true ∧
      (∀ p, parse source limit = .ok p →
        (statementByStatement limit tokens).outcome = .ok [e] ∧
        (statementByStatement limit tokens).statements.map (·.1) = p.statements) ∧
      (∀ err, parse source limit = .error err →
        (statementByStatement limit tokens).outcome = .error err ∧
        ∃ s s', ofTokens tokens limit = .ok s ∧
          ReadsOn s ((statementByStatement limit tokens).statements.map (·.1)) s' ∧
          s'.current.isEnd = false ∧ (s'.run (s'.statement [.eof])).1 = .error err) ∧
      (tokens :: (statementByStatement limit tokens).statements.map (·.2)).IsChain
        (fun us us' => us' <:+ us ∧ us' ≠ us) ∧
      ∀ us ∈ (statementByStatement limit tokens).statements.map (·.2), [e] <:+ us := by
  obtain ⟨vs, e, rfl, he, hvs⟩ := spelled_of_tokenize htok
  obtain ⟨rest, hin, hstops⟩ := inTurn_statementByStatement he hl vs
  obtain ⟨hchain, hends⟩ := hin.suffixes he rfl
  have hparse : parse source limit = (statementByStatement limit (vs ++ [e])).outcome.map fun _ =>
      ⟨⟨1, 1⟩, (statementByStatement limit (vs ++ [e])).statements.map (·.1)⟩ := by
    rw [parse_eq_program hl htok]
    have hprogram := answer_map (Program.mk ⟨1, 1⟩) (collect (freshNext limit)) (vs ++ [e])
    rw [hin.statements hstops] at hprogram
    refine hprogram.trans ?_
    cases (statementByStatement limit (vs ++ [e])).outcome <;> rfl
  obtain ⟨us, vs', rfl, rfl⟩ := hin.front he rfl
  refine ⟨us ++ vs', e, rfl, he, fun p hp => ?_, fun err herr => ?_, hchain,
    fun us hus => hends us (List.mem_cons_of_mem _ hus)⟩
  · rw [hparse] at hp
    generalize (statementByStatement limit (us ++ vs' ++ [e])).outcome = o at hstops hp ⊢
    cases hstops with
    | finished hend =>
      obtain rfl := Except.ok.inj hp
      -- the one end mark among the tokens is the last
      cases vs' with
      | nil => exact ⟨rfl, rfl⟩
      | cons v vs' =>
        have hv := open_of_spelled hvs v (by simp)
        rw [show v.isEnd = true from hend] at hv
        cases hv
    | failed hend h => cases hp
  · rw [hparse] at herr
    generalize (statementByStatement limit (us ++ vs' ++ [e])).outcome = o at hstops herr ⊢
    cases hstops with
    | finished hend => cases herr
    | failed hend h =>
      obtain rfl := Except.error.inj herr
      have hahead : ahead ⟨us ++ vs' ++ [e], 0, 0, limit⟩ = us ++ vs' ++ [e] := ahead_of_end he
      obtain ⟨s', hon, hrest, hlimit, hdepth⟩ :=
        hin.readsOn he rfl (s := ⟨us ++ vs' ++ [e], 0, 0, limit⟩) rfl rfl hahead
      refine ⟨rfl, _, s', ofTokens_ok.mpr ⟨hl, rfl⟩, hon, ?_, ?_⟩
      · rw [current_eq, hrest]
        exact hend
      · rw [outcome_run, statement_eq_fresh hlimit hdepth, hrest, h]
        rfl

/-- Two scripts of two statements, the second of which is an error in the one. -/
theorem statements_in_turn_two :
    let x : Stmt := .expression ⟨1, 1⟩ (.ident ⟨1, 1⟩ "x")
    let y : Stmt := .expression ⟨1, 4⟩ (.ident ⟨1, 4⟩ "y")
    let err : Error := .located ⟨1, 8, 7⟩ (.unexpected ")" Kind.atomStarts)
    ∃ ts us, tokenize "x; y;" = .ok ts ∧ tokenize "x; y + )" = .ok us ∧ (1 : Int) ≤ 2 ∧
      parse "x; y;" 2 = .ok ⟨⟨1, 1⟩, [x, y]⟩ ∧ parse "x; y + )" 2 = .error err ∧
      (statementByStatement 2 ts).statements.map (·.1) = [x, y] ∧
      (statementByStatement 2 us).outcome = .error err := by
  intro x y err
  have hread : tokenize "x; y;" = .ok (tokenStream "x; y;").tokens := by cbv
  have hread' : tokenize "x; y + )" = .ok (tokenStream "x; y + )").tokens := by cbv
  have hparse : parse "x; y;" 2 = .ok ⟨⟨1, 1⟩, [x, y]⟩ := by cbv
  have hparse' : parse "x; y + )" 2 = .error err := by cbv
  obtain ⟨_, _, _, _, hok, _⟩ := statements_in_turn hread (by decide : (1 : Int) ≤ 2)
  obtain ⟨_, _, _, _, _, herror, _⟩ := statements_in_turn hread' (by decide : (1 : Int) ≤ 2)
  exact ⟨_, _, hread, hread', by decide, hparse, hparse', (hok _ hparse).2, (herror _ hparse').1⟩

end ScriptReader.Session
