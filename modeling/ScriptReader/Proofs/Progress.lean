import ScriptReader.Proofs.DepthAccounts
import ScriptReader.Proofs.GrammarToTheEnd

/-!
# Progress and termination

Reading a construct moves a session on, up to the first end mark and never beyond it.  It takes a
token at least for all that it answers, a program is read up to the mark itself, and an error
concerns the token that the session is left at.

A session at work repeats steps of which nothing says how often.  `Rounds` is a loop that is run
until its own test ends it, or an error: each of its rounds that goes on has moved the session, so
there is one round at most for each token in front of the mark, and one more.  The recursion of the
grammar ends with the levels of nesting, since as many steps as levels are enough.

Main statements:

* `run_progresses`: what a run of a rule does to a session;
* `Work.Loop.rounds`: the loops of the grammar end;
* `reading_terminates`: the reading of a construct, from any session.
-/

namespace ScriptReader.Session

open Rule Phrase

/-! ## The end that is ahead -/

/-- The index of the first end mark from the next token on.  Without one it is the number of the
tokens, or the index of the session if that is beyond them. -/
def endIndex (s : Session) : Nat :=
  s.position + s.remaining.findIdx Token.isEnd

theorem exists_split_at_end {mark : Token} (hmark : mark.isEnd = true) (ts : List Token) :
    ∃ us e more, (if ts.any Token.isEnd then ts else ts ++ [mark]) = us ++ e :: more ∧
      Open us ∧ e.isEnd = true ∧ us.length = ts.findIdx Token.isEnd ∧
      us = ts.takeWhile (!·.isEnd) ∧ e = (ts.find? Token.isEnd).getD mark := by
  induction ts with
  | nil => exact ⟨[], mark, [], rfl, open_nil, hmark, rfl, rfl, rfl⟩
  | cons t ts ih =>
    by_cases ht : t.isEnd = true
    · have hindex : (t :: ts).findIdx Token.isEnd = 0 := by
        rw [List.findIdx_cons, ht]
        rfl
      exact ⟨[], t, ts, by simp [ht], open_nil, ht, hindex.symm, by simp [ht], by simp [ht]⟩
    · obtain ⟨us, e, more, hts, hus, he, hlength, hfront, hmore⟩ := ih
      have ht' : t.isEnd = false := Bool.eq_false_iff.mpr ht
      refine ⟨t :: us, e, more, ?_, ?_, he, ?_, ?_, ?_⟩
      · have hcons : t :: us ++ e :: more = t :: (us ++ e :: more) := rfl
        rw [List.any_cons, ht', Bool.false_or, hcons, ← hts]
        split <;> rfl
      · exact open_cons.mpr ⟨ne_of_beq_false ht', hus⟩
      · rw [List.findIdx_cons, ht', List.length_cons, hlength]
        rfl
      · simp [ht', hfront]
      · simp [ht', hmore]

theorem exists_ahead_eq (s : Session) :
    ∃ us e more, s.ahead = us ++ e :: more ∧ Open us ∧ e.isEnd = true ∧
      s.endIndex = s.position + us.length := by
  obtain ⟨us, e, more, hahead, hus, he, hlength, -⟩ :=
    exists_split_at_end s.isEnd_endMark s.remaining
  exact ⟨us, e, more, hahead, hus, he, by rw [endIndex, hlength]⟩

theorem hasEnd_append_cons {e : Token} (he : e.isEnd = true) (us more : List Token) :
    HasEnd (us ++ e :: more) :=
  ⟨e, by simp, he⟩

/-! ## Runs of rules -/

/-- What reading a construct comes to: the session has moved on to a token that is not behind the
first end mark, and an error concerns that token. -/
structure Progresses (s : Session) (what : Construct) (o : Except Error Parsed × Session) :
    Prop where
  /-- Only the index has changed. -/
  session_eq : o.2 = { s with position := o.2.position }
  position_le : s.position ≤ o.2.position
  le_endIndex : o.2.position ≤ s.endIndex
  /-- What is read has taken a token, if it is no program. -/
  moves : ∀ p, o.1 = .ok p → what ≠ .program → s.position < o.2.position
  /-- A program that is read ends at the end mark. -/
  whole : ∀ p, o.1 = .ok p → what = .program → o.2.position = s.endIndex
  concerns : ∀ err, o.1 = .error err → err.Concerns s.limit o.2.current

theorem current_move {s : Session} {vs rest : List Token} (ha : s.ahead = vs ++ rest)
    (hend : HasEnd rest) :
    current { s with position := s.position + vs.length } = firstToken rest := by
  have hahead : ahead { s with position := s.position + vs.length } = rest :=
    ahead_of_position ha hend s.depth
  rw [current_eq, hahead]

/-- A session that runs the rule for a construct. -/
theorem run_progresses (s : Session) (what : Construct) :
    s.Progresses what (s.run (s.rule what)) := by
  obtain ⟨us, e, more, hahead, hus, he, hindex⟩ := s.exists_ahead_eq
  have hstops : Rule.Stops s.limit (fun _ => what ≠ .program) (s.rule what) := by
    by_cases h : what = .program
    · exact (s.rule_stays what).mono fun _ hne => absurd h hne
    · exact (s.rule_moves h).stops
  obtain ⟨a, vs, ws, rfl, moved, run⟩ | ⟨err, vs, ws, rfl, concerns, run⟩ :=
    hstops.outcome hus he
  · rw [List.append_assoc] at hahead
    rw [run_of_ok hahead (run more)]
    rw [List.length_append] at hindex
    refine ⟨rfl, Nat.le_add_right _ _, ?_, ?_, ?_, nofun⟩
    · rw [hindex]
      exact Nat.add_le_add_left (Nat.le_add_right _ _) _
    · intro _ _ hne
      exact Nat.lt_add_of_pos_right (List.length_pos_iff.mpr (moved hne))
    · intro p _ hwhat
      subst hwhat
      have hrun := run more
      rw [← List.append_assoc] at hrun
      obtain ⟨p, hp, -⟩ := map_ok.mp hrun
      have hrest := Grammar.program_ok_end hus he hp
      have hws : ws = [] := List.append_left_eq_self.mp hrest
      rw [hws] at hindex
      exact hindex.symm
  · rw [List.append_assoc] at hahead
    rw [run_of_error hahead (run more)]
    rw [List.length_append] at hindex
    refine ⟨rfl, Nat.le_add_right _ _, ?_, nofun, nofun, ?_⟩
    · rw [hindex]
      exact Nat.add_le_add_left (Nat.le_add_right _ _) _
    · intro err' h
      cases h
      rw [current_move hahead (hasEnd_append_cons he ws more), firstToken_append_cons]
      exact concerns

/-! ## Work -/

namespace Work

variable {σ α : Type}

/-- What a run of some work came to, and the course that it left. -/
def ended : EStateM.Result Error Course α → Except Error α × Course
  | .ok a c => (.ok a, c)
  | .error e c => (.error e, c)

/-- A value in front of those that a run gives. -/
def prepend (a : α) : EStateM.Result Error Course (List α) → EStateM.Result Error Course (List α)
  | .ok as c => .ok (a :: as) c
  | .error e c => .error e c

/-- The loop that takes steps from a state on, in `n` rounds.  It ends where a step gives nothing
or fails.  A round that goes on has moved the session. -/
inductive Rounds (step : σ → Work (Option (α × σ))) :
    σ → Course → Nat → EStateM.Result Error Course (List α) → Prop
  | last {s : σ} {c c' : Course} (h : step s c = .ok none c') : Rounds step s c 1 (.ok [] c')
  | failed {s : σ} {c c' : Course} {e : Error} (h : step s c = .error e c') :
      Rounds step s c 1 (.error e c')
  | next {s s' : σ} {a : α} {c c' : Course} {n : Nat}
      {o : EStateM.Result Error Course (List α)} (h : step s c = .ok (some (a, s')) c')
      (moved : c.now.position < c'.now.position) (later : Rounds step s' c' n o) :
      Rounds step s c (n + 1) (prepend a o)

section

variable {step : σ → Work (Option (α × σ))} {s s' : σ} {c c' : Course} {count : Nat}

theorem unfoldWithin_of_error {e : Error} (h : step s c = .error e c') :
    unfoldWithin step (count + 1) s c = .error e c' := by
  rw [unfoldWithin]
  show EStateM.bind (step s) _ c = _
  unfold EStateM.bind
  rw [h]

theorem unfoldWithin_of_none (h : step s c = .ok none c') :
    unfoldWithin step (count + 1) s c = .ok [] c' := by
  rw [unfoldWithin]
  show EStateM.bind (step s) _ c = _
  unfold EStateM.bind
  rw [h]
  rfl

theorem unfoldWithin_of_some {a : α} (h : step s c = .ok (some (a, s')) c') :
    unfoldWithin step (count + 1) s c = prepend a (unfoldWithin step count s' c') := by
  rw [unfoldWithin]
  show EStateM.bind (step s) _ c = _
  unfold EStateM.bind
  rw [h]
  show EStateM.bind (unfoldWithin step count s') _ c' = _
  unfold EStateM.bind
  cases unfoldWithin step count s' c' <;> rfl

end

/-- The steps of a loop that keeps no state. -/
def stateless (step : Work (Option α)) : Unit → Work (Option (α × Unit)) :=
  fun _ => do return (← step).map (·, ())

/-- The loops of the grammar, by their steps. -/
inductive Loop (steps : Nat) : {σ α : Type} → (σ → Work (Option (α × σ))) → Prop
  | arguments : Loop steps (stateless (nextArgument (expression steps)))
  | items : Loop steps (nextItem (expression steps))
  | clauses : Loop steps (stateless (nextClause (expression steps) (body steps)))
  | parameters : Loop steps (stateless nextParameter)
  | statements (follow : List Kind) :
      Loop steps (stateless (nextStatement (expression steps) (body steps) follow))

end Work

variable {limit : Int} {depth : Nat} {σ α β : Type}

theorem Performs.ok_of_rule {w : Work α} {r : Rule α} {c : Course} {a : α} {vs rest : List Token}
    (h : Performs limit depth w r) (hc : c.Stands limit depth) (ha : c.now.ahead = vs ++ rest)
    (hr : r (vs ++ rest) = .ok a rest) :
    ∃ c' ms, w c = .ok a c' ∧ c.Reaches limit depth depth vs c' ms := by
  have hagrees := h.agrees hc
  rw [ha, hr] at hagrees
  generalize w c = o at hagrees
  cases hagrees with
  | @ok _ us _ c' ms ahead hend reaches =>
    obtain rfl : vs = us := List.append_cancel_right (ha.symm.trans ahead)
    exact ⟨c', ms, rfl, reaches⟩

theorem Performs.error_of_rule {w : Work α} {r : Rule α} {c : Course} {err : Error}
    {vs rest : List Token} (h : Performs limit depth w r) (hc : c.Stands limit depth)
    (ha : c.now.ahead = vs ++ rest) (hr : r (vs ++ rest) = .error err rest) :
    ∃ c' ms, w c = .error err c' ∧ c.Reaches limit depth depth vs c' ms := by
  have hagrees := h.agrees hc
  rw [ha, hr] at hagrees
  generalize w c = o at hagrees
  cases hagrees with
  | @error _ us _ c' ms ahead reaches _ =>
    obtain rfl : vs = us := List.append_cancel_right (ha.symm.trans ahead)
    exact ⟨c', ms, rfl, reaches⟩

/-! ## Loops -/

section

variable {step : σ → Work (Option (α × σ))} {step' : σ → Rule (Option (α × σ))}
variable (h : ∀ s, Performs limit depth (step s) (step' s))
variable (hp : ∀ s, Proceeds limit (step' s))

include h hp

theorem exists_rounds_within {us more : List Token} {e : Token} (hus : Open us)
    (he : e.isEnd = true) {c : Course} (hc : c.Stands limit depth)
    (ha : c.now.ahead = us ++ e :: more) (s : σ) {count : Nat} (hcount : us.length < count) :
    ∃ n, Work.Rounds step s c n (Work.unfoldWithin step count s c) ∧ n ≤ us.length + 1 := by
  induction count generalizing us c s with
  | zero => exact absurd hcount (Nat.not_lt_zero _)
  | succ count ih =>
    obtain ⟨o, vs, ws, rfl, moved, run⟩ | ⟨err, vs, ws, rfl, -, run⟩ := (hp s).outcome hus he
    · rw [List.append_assoc] at ha
      obtain ⟨c', ms, hstep, hreaches⟩ := (h s).ok_of_rule hc ha (run more)
      rw [List.length_append] at hcount ⊢
      cases o with
      | none =>
        rw [Work.unfoldWithin_of_none hstep]
        exact ⟨1, .last hstep, by omega⟩
      | some p =>
        obtain ⟨a, s'⟩ := p
        have hvs : 0 < vs.length := List.length_pos_iff.mpr (moved rfl)
        have hahead := hreaches.ahead_eq ha (hasEnd_append_cons he ws more)
        obtain ⟨n, hrounds, hn⟩ := ih (open_append.mp hus).2 (hreaches.stands hc) hahead s'
          (by omega)
        have hmoved : c.now.position < c'.now.position := by
          rw [hreaches.now_eq]
          exact Nat.lt_add_of_pos_right hvs
        rw [Work.unfoldWithin_of_some hstep]
        exact ⟨n + 1, .next hstep hmoved hrounds, by omega⟩
    · rw [List.append_assoc] at ha
      obtain ⟨c', ms, hstep, -⟩ := (h s).error_of_rule hc ha (run more)
      rw [Work.unfoldWithin_of_error hstep]
      exact ⟨1, .failed hstep, by omega⟩

theorem exists_rounds {c : Course} (hc : c.Stands limit depth) (s : σ) :
    ∃ n, Work.Rounds step s c n (Work.unfold step s c) ∧
      c.now.position + n ≤ c.now.endIndex + 1 := by
  obtain ⟨us, e, more, hahead, hus, he, hindex⟩ := c.now.exists_ahead_eq
  have hcount : us.length < c.now.ahead.length + 1 := by
    rw [hahead, List.length_append]
    omega
  obtain ⟨n, hrounds, hn⟩ := exists_rounds_within h hp hus he hc hahead s hcount
  exact ⟨n, hrounds, by omega⟩

end

theorem Work.Loop.performs {steps : Nat} {step : σ → Work (Option (α × σ))}
    (h : Work.Loop steps step) (hle : (depth : Int) ≤ limit) (hsteps : limit ≤ depth + steps) :
    ∃ step' : σ → Rule (Option (α × σ)), (∀ s, Performs limit depth (step s) (step' s)) ∧
      ∀ s, Proceeds limit (step' s) := by
  obtain ⟨levels, hlevels⟩ : ∃ levels : Nat, ((depth + levels : Nat) : Int) = limit :=
    ⟨(limit - depth).toNat, by omega⟩
  have hsteps' : levels ≤ steps := by omega
  have hexpr := Grammar.expression_performs hsteps' hlevels
  have hbody := Grammar.body_performs hsteps' hlevels
  have hexpr' := Grammar.expression_moves limit levels
  have hbody' := Grammar.body_moves limit levels
  cases h with
  | arguments =>
    exact ⟨_, fun _ => (Grammar.nextArgument_performs hexpr).map _,
      fun _ => (Grammar.nextArgument_moves hexpr').proceeds.map _⟩
  | items =>
    exact ⟨_, Grammar.nextItem_performs hexpr, fun s => (Grammar.nextItem_moves hexpr' s).proceeds⟩
  | clauses =>
    refine ⟨_, fun _ => (Grammar.nextClause_performs hexpr hbody).map _, fun _ => ?_⟩
    exact ((Grammar.nextClause_proceeds hexpr' hbody').map _).map _
  | parameters =>
    exact ⟨_, fun _ => Grammar.nextParameter_performs.map _,
      fun _ => Grammar.nextParameter_moves.proceeds.map _⟩
  | statements follow =>
    exact ⟨_, fun _ => (Grammar.nextStatement_performs hexpr hbody follow).map _,
      fun _ => (Grammar.nextStatement_proceeds hexpr' hbody' follow).map _⟩

/-- A loop of the grammar ends, wherever it begins. -/
theorem Work.Loop.rounds {steps : Nat} {step : σ → Work (Option (α × σ))}
    (h : Work.Loop steps step) {c : Course} (hc : c.Stands limit depth)
    (hsteps : limit ≤ depth + steps) (s : σ) :
    ∃ n, Work.Rounds step s c n (Work.unfold step s c) ∧
      c.now.position + n ≤ c.now.endIndex + 1 := by
  obtain ⟨step', hperforms, hproceeds⟩ := h.performs hc.le_limit hsteps
  exact exists_rounds hperforms hproceeds hc s

/-! ## Constructs -/

/-- A session at work ends as the run of the rule does.  At each moment on the way it stood between
the token it began at and the one that it is left at. -/
theorem construct_ended {s : Session} {steps : Nat} (hle : (s.depth : Int) ≤ s.limit)
    (hsteps : s.limit ≤ s.depth + steps) (past : List Moment) (what : Construct) :
    ∃ c ms, Work.ended (Work.construct steps what ⟨s, past⟩) = ((s.run (s.rule what)).1, c) ∧
      c.now = (s.run (s.rule what)).2 ∧ c.past = ms ++ past ∧
      ∀ m ∈ ms, m.session.tokens = s.tokens ∧ s.position ≤ m.session.position ∧
        m.session.position ≤ c.now.position := by
  have hperforms := construct_performs rfl rfl hle hsteps what
  have hc : Course.Stands s.limit s.depth ⟨s, past⟩ := ⟨rfl, rfl, hle⟩
  obtain ⟨us, e, more, hahead, hus, he, -⟩ := s.exists_ahead_eq
  have hposition : ∀ {vs : List Token} {c : Course} {ms : List Moment},
      Course.Reaches s.limit s.depth s.depth vs ⟨s, past⟩ c ms →
        c.now = { s with position := s.position + vs.length } ∧ ∀ m ∈ ms,
          m.session.tokens = s.tokens ∧ s.position ≤ m.session.position ∧
            m.session.position ≤ c.now.position := by
    intro vs c ms hreaches
    have hnow := hreaches.now_eq
    refine ⟨hnow, fun m hm => ?_⟩
    rw [hnow]
    exact hreaches.between m hm
  obtain ⟨a, vs, ws, rfl, -, run⟩ | ⟨err, vs, ws, rfl, -, run⟩ :=
    (s.rule_stays what).outcome hus he
  · rw [List.append_assoc] at hahead
    obtain ⟨c, ms, hwork, hreaches⟩ := hperforms.ok_of_rule hc hahead (run more)
    rw [hwork, run_of_ok hahead (run more)]
    obtain ⟨hnow, hms⟩ := hposition hreaches
    exact ⟨c, ms, rfl, hnow, hreaches.past_eq, hms⟩
  · rw [List.append_assoc] at hahead
    obtain ⟨c, ms, hwork, hreaches⟩ := hperforms.error_of_rule hc hahead (run more)
    rw [hwork, run_of_error hahead (run more)]
    obtain ⟨hnow, hms⟩ := hposition hreaches
    exact ⟨c, ms, rfl, hnow, hreaches.past_eq, hms⟩

/-- The reading of a construct from any session.  It takes a token at least for what it answers,
goes on to the first end mark for a program and never beyond it, and leaves the session at the
token that its error concerns.  A session at work, which looks at its tokens by their index and
counts its levels, ends in the same way with as many steps of recursion as levels are left, or
more; it is never outside of what is read, and each loop ends by itself, as each of its rounds
takes a token in front of the end mark. -/
theorem reading_terminates (s : Session) :
    (∀ what, s.Progresses what (s.run (s.rule what))) ∧
    ((s.depth : Int) ≤ s.limit → ∀ steps : Nat, s.limit ≤ s.depth + steps →
      ∀ past : List Moment,
        (∀ what, ∃ c ms,
          Work.ended (Work.construct steps what ⟨s, past⟩) = ((s.run (s.rule what)).1, c) ∧
          c.now = (s.run (s.rule what)).2 ∧ c.past = ms ++ past ∧
          ∀ m ∈ ms, m.session.tokens = s.tokens ∧ s.position ≤ m.session.position ∧
            m.session.position ≤ c.now.position) ∧
        ∀ {σ α : Type} {step : σ → Work (Option (α × σ))}, Work.Loop steps step → ∀ i : σ,
          ∃ n, Work.Rounds step i ⟨s, past⟩ n (Work.unfold step i ⟨s, past⟩) ∧
            s.position + n ≤ s.endIndex + 1) := by
  refine ⟨s.run_progresses, fun hle steps hsteps past => ⟨?_, fun hloop i => ?_⟩⟩
  · exact fun what => construct_ended hle hsteps past what
  · have hc : Course.Stands s.limit s.depth ⟨s, past⟩ := ⟨rfl, rfl, hle⟩
    exact hloop.rounds hc hsteps i

/-- The arguments of a call break off, and no end mark stands behind them.  The session is left
behind its last token, which is where the end mark would be, and the loop of the arguments has
failed there in its first round. -/
theorem reading_terminates_call :
    let s : Session := ⟨[⟨.ident "f", .start, "f"⟩, ⟨.symbol .openParen "(", .start, "("⟩,
      ⟨.int 1, .start, "1"⟩], 0, 0, 2⟩
    let t : Session := { s with position := 3 }
    s.endIndex = 3 ∧ s.run (s.rule .call) =
        (.error (t.current.refuse ([.symbol .comma, .symbol .closeParen] ++ Kind.binaries)), t) ∧
      s.Progresses .call (s.run (s.rule .call)) ∧
      (∃ c, Work.ended (Work.construct 2 .call ⟨s, []⟩) = ((s.run (s.rule .call)).1, c) ∧
        c.now = t ∧ ∀ m ∈ c.past, m.session.position ≤ 3) ∧
      ∃ n, n ≤ 1 ∧ Work.Rounds (Work.stateless (Work.nextArgument (Work.expression 2))) () ⟨t, []⟩ n
        (Work.unfold (Work.stateless (Work.nextArgument (Work.expression 2))) () ⟨t, []⟩) := by
  intro s t
  have hrun : s.run (s.rule .call) =
      (.error (t.current.refuse ([.symbol .comma, .symbol .closeParen] ++ Kind.binaries)), t) := rfl
  obtain ⟨hprogress, hwork⟩ := reading_terminates s
  obtain ⟨-, hloops⟩ := (reading_terminates t).2 (by decide) 2 (by decide) []
  obtain ⟨c, ms, hended, hnow, hpast, hms⟩ := (hwork (by decide) 2 (by decide) []).1 .call
  obtain ⟨n, hrounds, hn⟩ := hloops Work.Loop.arguments ()
  have hnow' : c.now = t := by rw [hnow, hrun]
  refine ⟨rfl, hrun, hprogress .call, ⟨c, hended, hnow', fun m hm => ?_⟩, n, ?_, hrounds⟩
  · rw [hpast, List.append_nil] at hm
    have hle := (hms m hm).2.2
    rwa [hnow'] at hle
  · have hindex : t.endIndex = 3 := rfl
    rw [hindex] at hn
    exact Nat.le_of_add_le_add_left hn

end ScriptReader.Session
