import ScriptReader.Proofs.ExactGrammar
import ScriptReader.Proofs.WorkedConstructs

/-!
# The account of the levels

Commands to a session are performed in turn, each from the state that the one before left, and
some of them fail.  This file shows that the count of open levels survives all of it: the session
at work gives the reports that `Session.performAll` gives, and at each moment on the way the count
is right.

An answer `Keeps` its account at a depth if each report in it, and each report in one of those,
was given at the depth at which the command began, one deeper for each block of commands around
it, and each error reported was raised at a moment of the course.

Main statements:

* `perform_accounts`, `performAll_accounts`: one command, and any commands in turn;
* `performAll_keeps_depth`: a session from its beginning.
-/

namespace ScriptReader.Session

open Rule

/-! ## Reports -/

mutual

/-- An answer at a depth, with the moments that its errors were raised at. -/
inductive Answer.Keeps (limit : Int) (ms : List Moment) : (depth : Nat) → Answer → Prop
  | token {depth : Nat} (t : Token) : Answer.Keeps limit ms depth (.token t)
  | tokens {depth : Nat} (ts : List Token) : Answer.Keeps limit ms depth (.tokens ts)
  | parsed {depth : Nat} (p : Parsed) : Answer.Keeps limit ms depth (.parsed p)
  | reports {depth : Nat} {rs : List Report} (below : (depth : Int) < limit)
      (inside : ∀ r ∈ rs, Report.Keeps limit ms (depth + 1) r) :
      Answer.Keeps limit ms depth (.reports rs)

/-- A report at a depth, with the moments that its errors were raised at. -/
inductive Report.Keeps (limit : Int) (ms : List Moment) : (depth : Nat) → Report → Prop
  | ok {depth position : Nat} {a : Answer} (inside : Answer.Keeps limit ms depth a) :
      Report.Keeps limit ms depth (.mk (.ok a) position depth)
  | error {depth position : Nat} {e : Error} (raised : ∃ m ∈ ms, m.raised = some e) :
      Report.Keeps limit ms depth (.mk (.error e) position depth)

end

mutual

theorem Answer.Keeps.mono {limit : Int} {ms ns : List Moment} {depth : Nat} {a : Answer}
    (h : ms ⊆ ns) (ha : a.Keeps limit ms depth) : a.Keeps limit ns depth := by
  cases ha with
  | token t => exact .token t
  | tokens ts => exact .tokens ts
  | parsed p => exact .parsed p
  | reports below inside => exact .reports below fun r hr => (inside r hr).mono h

theorem Report.Keeps.mono {limit : Int} {ms ns : List Moment} {depth : Nat} {r : Report}
    (h : ms ⊆ ns) (hr : r.Keeps limit ms depth) : r.Keeps limit ns depth := by
  cases hr with
  | ok inside => exact .ok (inside.mono h)
  | error raised =>
    obtain ⟨m, hm, he⟩ := raised
    exact .error ⟨m, h hm, he⟩

end

/-! ## Accounts -/

variable {limit : Int} {depth : Nat} {α β : Type} {kept kept' : List Moment → α → Prop}

/-- The run of some work has the outcome that a session gives and leaves the same session, with as
many open levels as in the beginning.  The answer is as `kept` says of the moments on the way. -/
inductive Accounts (limit : Int) (depth : Nat) (kept : List Moment → α → Prop) (c : Course) :
    EStateM.Result Error Course α → Except Error α × Session → Prop
  | ok {a : α} {c' : Course} {ms : List Moment} (adds : c.Adds limit depth c' ms)
      (stands : c'.Stands limit depth) (keeps : kept ms a) :
      Accounts limit depth kept c (.ok a c') (.ok a, c'.now)
  | error {e : Error} {c' : Course} {ms : List Moment} (adds : c.Adds limit depth c' ms)
      (stands : c'.Stands limit depth) (raised : ∃ m ∈ ms, m.raised = some e) :
      Accounts limit depth kept c (.error e c') (.error e, c'.now)

theorem Performs.accounts {w : Work α} {r : Rule α} (h : Performs limit depth w r) {c : Course}
    (hc : c.Stands limit depth) :
    Accounts limit depth (fun _ _ => True) c (w c) (c.now.run r) := by
  have hagrees := h.agrees hc
  generalize ho : w c = o at hagrees
  generalize ho' : r c.now.ahead = o' at hagrees
  cases hagrees with
  | @ok a us rest c' ms ahead hend reaches =>
    have hnow : c'.now = { c.now with position := c.now.position + us.length } := by
      rw [reaches.now_eq, ← hc.depth_eq]
    rw [run_of_ok ahead (ahead ▸ ho'), ← hnow]
    exact .ok reaches.toAdds (reaches.stands hc) trivial
  | @error e us rest c' ms ahead reaches raised =>
    have hnow : c'.now = { c.now with position := c.now.position + us.length } := by
      rw [reaches.now_eq, ← hc.depth_eq]
    rw [run_of_error ahead (ahead ▸ ho'), ← hnow]
    exact .error reaches.toAdds (reaches.stands hc) raised

theorem Accounts.map {c : Course} {w : Work α} {o : Except Error α × Session}
    {kept' : List Moment → β → Prop} (h : Accounts limit depth kept c (w c) o) (f : α → β)
    (hf : ∀ ms a, kept ms a → kept' ms (f a)) :
    Accounts limit depth kept' c ((do return f (← w) : Work β) c) (o.1.map f, o.2) := by
  show Accounts limit depth kept' c (EStateM.bind w _ c) _
  unfold EStateM.bind
  generalize w c = o₁ at h
  cases h with
  | ok adds stands keeps => exact .ok adds stands (hf _ _ keeps)
  | error adds stands raised => exact .error adds stands raised

theorem Accounts.raise {c : Course} (hc : c.Stands limit depth) {e : Error}
    (he : Moment.Sound limit depth ⟨c.now, some e⟩) :
    Accounts limit depth kept c (.error e (c.raise e)) (.error e, c.now) :=
  .error (hc.raise he).toAdds ((hc.raise he).stands hc) ⟨_, List.mem_singleton_self _, rfl⟩

theorem Accounts.pure {c : Course} (hc : c.Stands limit depth) {a : α} (ha : kept [] a) :
    Accounts limit depth kept c (.ok a c) (.ok a, c.now) :=
  .ok hc.refl.toAdds hc ha

theorem Accounts.advance {c : Course} (hc : c.Stands limit depth) {a : α}
    (ha : kept [⟨c.now, none⟩] a) :
    Accounts limit depth kept c (.ok a (c.move c.now.advance)) (.ok a, c.now.advance) :=
  .ok (skip_reaches hc c.now.current).toAdds ((skip_reaches hc c.now.current).stands hc) ha

/-! ## Commands -/

theorem ahead_length_tail (s : Session) : s.ahead.length - s.ahead.tail.length = 1 := by
  obtain ⟨t, ts, h⟩ := s.ahead_hasEnd.exists_cons
  rw [h, List.tail_cons, List.length_cons, Nat.add_sub_cancel_left]

theorem run_accept (s : Session) (view : Token → Option α) (expected : List Kind) :
    s.run (accept view expected) = match view s.current with
      | some a => (.ok a, s.advance)
      | none => (.error (s.current.refuse expected), s) := by
  rw [current_eq]
  unfold run accept
  cases view (firstToken s.ahead) with
  | none => simp only [Nat.sub_self, Nat.add_zero]
  | some a =>
    simp only [ahead_length_tail]
    rfl

theorem accept_run (c : Course) (view : Token → Option α) (expected : List Kind) :
    Work.accept view expected c = match view c.now.current with
      | some a => .ok a (c.move c.now.advance)
      | none => .error (c.now.current.refuse expected) (c.raise (c.now.current.refuse expected)) := by
  show (match view c.now.current with
    | some a => (do Work.skip; return a)
    | none => Work.refuse expected : Work α) c = _
  cases view c.now.current <;> rfl

theorem run_refuse (s : Session) (expected : List Kind) :
    s.run (refuse expected : Rule α) = (.error (s.current.refuse expected), s) := by
  rw [current_eq]
  unfold run refuse
  simp only [Nat.sub_self, Nat.add_zero]

theorem peek_error {s : Session} {n : Int} {e : Error} (h : s.peek n = .error e) :
    e = .noSuchToken := by
  unfold peek at h
  dsimp only at h
  split at h
  · cases h
  · split at h
    · cases h
    · cases h
      rfl

/-- The work for a construct, in a session with as many steps as levels are left. -/
theorem construct_performs {s : Session} {steps : Nat} (hlimit : s.limit = limit)
    (hdepth : s.depth = depth) (hle : (depth : Int) ≤ limit) (hsteps : limit ≤ depth + steps)
    (what : Construct) : Performs limit depth (Work.construct steps what) (s.rule what) := by
  have hlevels : ((depth + s.levels : Nat) : Int) = limit := by
    unfold levels
    omega
  have hsteps' : s.levels ≤ steps := by
    unfold levels
    omega
  have hexpr : ∀ ks, Performs limit depth (Work.expression steps ks) (s.expression ks) := by
    unfold expression
    rw [hlimit]
    exact Grammar.expression_performs hsteps' hlevels
  have hbody : ∀ returns, Performs limit depth (Work.body steps returns) (s.body returns) := by
    unfold body
    rw [hlimit]
    exact Grammar.body_performs hsteps' hlevels
  cases what with
  | program =>
    have hprogram : Performs limit depth (Work.program steps) s.program := by
      unfold program
      rw [hlimit]
      exact Grammar.program_performs hsteps' hlevels
    exact hprogram.map _
  | statement follow => exact (Grammar.statement_performs hexpr hbody follow).map _
  | load => exact Grammar.load_performs.map _
  | assignmentOrExpression => exact (Grammar.assignmentOrExpression_performs hexpr).map _
  | update => exact (Grammar.update_performs hexpr).map _
  | block => exact (Grammar.block_performs hbody).map _
  | condition => exact (Grammar.condition_performs hexpr).map _
  | conditional => exact (Grammar.conditional_performs hexpr hbody).map _
  | whileLoop => exact (Grammar.whileLoop_performs hexpr hbody).map _
  | forLoop => exact (Grammar.forLoop_performs hexpr hbody).map _
  | function => exact (Grammar.function_performs hbody).map _
  | expression alternatives => exact (hexpr alternatives).map _
  | atom alternatives => exact (Grammar.atom_performs hexpr alternatives).map _
  | call => exact (Grammar.call_performs hexpr).map _
  | index => exact (Grammar.index_performs hexpr).map _
  | step => exact Grammar.stepExpr_performs.map _
  | list => exact (Grammar.list_performs hexpr).map _

/-- A token of some kinds, among which there may be that of the end mark. -/
theorem token_accounts {c : Course} (hc : c.Stands limit depth) (kinds others : List Kind) :
    Accounts limit depth (fun _ _ => True) c (Work.token kinds others c)
      (c.now.run (Rule.token kinds others)) := by
  rw [Rule.token, run_accept, Work.token, accept_run]
  cases (if c.now.current.kind ∈ kinds then some c.now.current else none) with
  | some t => exact .advance hc trivial
  | none =>
    exact .raise hc (hc.sound fun p l h => refuse_ne_tooDeep _ _ p l (Option.some.inj h))

theorem Accounts.exists_ok {c : Course} {o : EStateM.Result Error Course α} {a : α} {s : Session}
    (h : Accounts limit depth kept c o (.ok a, s)) :
    ∃ c' ms, o = .ok a c' ∧ c'.now = s ∧ c.Adds limit depth c' ms ∧ c'.Stands limit depth ∧
      kept ms a := by
  cases h with
  | ok adds stands keeps => exact ⟨_, _, rfl, rfl, adds, stands, keeps⟩

/-- What a session does inside one more level, if there is one. -/
def inLevel (s : Session) (o : Session → List Report × Session) : Except Error Answer × Session :=
  match s.enter with
  | .error e => (.error e, s)
  | .ok inner => (.ok (.reports (o inner).1), (o inner).2.leave)

theorem nested_accounts {c : Course} {w : Work (List Report)} {o : Session → List Report × Session}
    (hc : c.Stands limit depth)
    (hw : ∀ c : Course, c.Stands limit (depth + 1) →
      Accounts limit (depth + 1) (fun ms rs => ∀ r ∈ rs, r.Keeps limit ms (depth + 1)) c (w c)
        (.ok (o c.now).1, (o c.now).2)) :
    Accounts limit depth (fun ms a => a.Keeps limit ms depth) c
      ((do return .reports (← Work.nested w) : Work Answer) c) (c.now.inLevel o) := by
  show Accounts limit depth _ c (EStateM.bind (Work.nested w) _ c) _
  unfold EStateM.bind Work.nested inLevel
  rcases Int.lt_or_eq_of_le hc.le_limit with hlt | hfull
  · obtain ⟨s, henter, hs, hreaches, -⟩ := hc.enter hlt
    obtain ⟨c', ms, hrun, hnow, hadds, hstands, hkeeps⟩ := (hw (c.move s) hs).exists_ok
    rw [henter]
    dsimp only
    rw [hrun]
    have hnow' : (o s).2 = c'.now := hnow.symm
    rw [hnow']
    have hleave : c'.now.leave.depth = depth := by
      rw [leave, hstands.depth_eq, Nat.add_sub_cancel]
    have hopen : 1 ≤ c'.now.depth := by
      rw [hstands.depth_eq]
      exact Nat.le_add_left 1 depth
    rw [closeLevels, if_pos hopen]
    have hsound : Moment.Sound limit (depth + 1) ⟨c'.now, none⟩ := hstands.quiet
    have hlast : c'.Adds limit depth (c'.move c'.now.leave) [⟨c'.now, none⟩] :=
      ⟨rfl, List.forall_mem_singleton.mpr (hsound.mono (Nat.le_succ depth))⟩
    have hmoments := (hreaches.toAdds.trans (hadds.mono (Nat.le_succ depth))).trans hlast
    show Accounts limit depth _ c (.ok _ (c'.move c'.now.leave))
      (.ok _, (c'.move c'.now.leave).now)
    refine .ok hmoments ⟨hstands.limit_eq, hleave, hc.le_limit⟩ ?_
    refine .reports hlt fun r hr => (hkeeps r hr).mono ?_
    exact List.Subset.trans (List.subset_append_left _ _) (List.subset_append_right _ _)
  · rw [hc.enter_full hfull]
    exact .raise hc (hc.sound_full hfull _)

theorem Accounts.cons {c c' : Course} {ms : List Moment} {r : Report} {w : Work (List Report)}
    {rs : List Report} {s : Session} (adds : c.Adds limit depth c' ms)
    (hr : r.Keeps limit ms depth)
    (h : Accounts limit depth (fun ns rs => ∀ r ∈ rs, r.Keeps limit ns depth) c' (w c')
      (.ok rs, s)) :
    Accounts limit depth (fun ns rs => ∀ r ∈ rs, r.Keeps limit ns depth) c
      ((do return r :: (← w) : Work (List Report)) c') (.ok (r :: rs), s) := by
  obtain ⟨c'', ns, hrun, rfl, hadds, hstands, hkeeps⟩ := h.exists_ok
  show Accounts limit depth _ c (EStateM.bind w _ c') _
  unfold EStateM.bind
  rw [hrun]
  refine .ok (adds.trans hadds) hstands (List.forall_mem_cons.mpr ⟨?_, fun r hr => ?_⟩)
  · exact hr.mono (List.subset_append_right _ _)
  · exact (hkeeps r hr).mono (List.subset_append_left _ _)

mutual

/-- A command, whether it fails or not. -/
theorem perform_accounts {steps depth : Nat} {c : Course} (hc : c.Stands limit depth)
    (hsteps : limit ≤ depth + steps) (a : Command) :
    Accounts limit depth (fun ms a => a.Keeps limit ms depth) c (Work.perform steps a c)
      (c.now.perform a) := by
  cases a with
  | current =>
    rw [perform, Work.perform]
    exact .pure hc (.token _)
  | peek n =>
    rw [perform, Work.perform]
    show Accounts limit depth _ c (EStateM.bind (Work.peek n) _ c) _
    unfold EStateM.bind Work.peek
    cases hp : c.now.peek n with
    | ok t => exact .pure hc (.token t)
    | error e =>
      obtain rfl := peek_error hp
      exact .raise hc (hc.sound fun p l h => by cases h)
  | advance =>
    rw [perform, Work.perform]
    exact .advance hc (.token _)
  | remaining =>
    rw [perform, Work.perform]
    exact .pure hc (.tokens _)
  | accept kinds others =>
    rw [perform, Work.perform]
    exact (token_accounts hc kinds others).map Answer.token fun ms t _ => .token t
  | refuse expected =>
    rw [perform, Work.perform, runAs, run_refuse]
    exact .raise hc (hc.sound fun p l h => refuse_ne_tooDeep _ _ p l (Option.some.inj h))
  | read what =>
    rw [perform, Work.perform]
    have h := (construct_performs hc.limit_eq hc.depth_eq hc.le_limit hsteps what).accounts hc
    exact h.map Answer.parsed fun ms p _ => .parsed p
  | nested commands =>
    rw [perform, Work.perform]
    refine nested_accounts (o := fun s => s.performAll commands) hc fun c' hc' => ?_
    exact performAll_accounts hc' (by omega) commands

/-- Commands in turn, of which some may fail. -/
theorem performAll_accounts {steps depth : Nat} {c : Course} (hc : c.Stands limit depth)
    (hsteps : limit ≤ depth + steps) (as : List Command) :
    Accounts limit depth (fun ms rs => ∀ r ∈ rs, r.Keeps limit ms depth) c
      (Work.performAll steps as c) (.ok (c.now.performAll as).1, (c.now.performAll as).2) := by
  cases as with
  | nil =>
    rw [performAll, Work.performAll]
    exact .pure hc (List.forall_mem_nil _)
  | cons a as =>
    rw [performAll, Work.performAll]
    have hfirst := perform_accounts hc hsteps a
    dsimp only
    generalize Work.perform steps a c = o at hfirst
    generalize c.now.perform a = o' at hfirst
    cases hfirst with
    | @ok x c' ms adds stands keeps =>
      have hreport : Report.Keeps limit ms depth (.mk (.ok x) c'.now.position c'.now.depth) := by
        rw [stands.depth_eq]
        exact .ok keeps
      exact .cons adds hreport (performAll_accounts stands hsteps as)
    | @error e c' ms adds stands raised =>
      have hreport : Report.Keeps limit ms depth (.mk (.error e) c'.now.position c'.now.depth) := by
        rw [stands.depth_eq]
        exact .error raised
      exact .cons adds hreport (performAll_accounts stands hsteps as)

end

/-! ## The whole course -/

/-- Commands in turn to a session that begins with no open level.  At every moment of the course no
more levels are open than the limit allows, and where a lack of levels is raised, all of them are.
Every command, whether it answers or fails, ends at the depth it began at, and commands in a block
begin one deeper than the block.  Each error that is reported was raised at some moment. -/
theorem performAll_keeps_depth {tokens : List Token} {limit : Int} {s : Session}
    (hs : ofTokens tokens limit = .ok s) {steps : Nat} (hsteps : limit ≤ steps)
    (commands : List Command) :
    ∃ c, Work.performAll steps commands ⟨s, []⟩ = .ok (s.performAll commands).1 c ∧
      c.now = (s.performAll commands).2 ∧ c.now.depth = 0 ∧
      (∀ r ∈ (s.performAll commands).1, r.Keeps limit c.moments 0) ∧
      ∀ m ∈ c.moments, m.session.limit = limit ∧ (m.session.depth : Int) ≤ limit ∧
        ∀ p l, m.raised = some (.located p (.tooDeep l)) →
          (m.session.depth : Int) = limit ∧ l = limit := by
  obtain ⟨hlimit, rfl⟩ := ofTokens_ok.mp hs
  have hstart : Course.Stands limit 0 ⟨⟨tokens, 0, 0, limit⟩, []⟩ :=
    ⟨rfl, rfl, Int.le_trans (by decide) hlimit⟩
  obtain ⟨c, ms, hrun, hnow, hadds, hstands, hkeeps⟩ :=
    (performAll_accounts hstart (by simpa using hsteps) commands).exists_ok
  have hmoments : c.moments = ⟨c.now, none⟩ :: ms := by
    rw [Course.moments, hadds.past_eq, List.append_nil]
  have hlast : Moment.Sound limit 0 ⟨c.now, none⟩ := hstands.quiet
  refine ⟨c, hrun, hnow, hstands.depth_eq, fun r hr => ?_, fun m hm => ?_⟩
  · rw [hmoments]
    exact (hkeeps r hr).mono (List.subset_cons_self _ _)
  · rw [hmoments] at hm
    have hsound := List.forall_mem_cons.mpr ⟨hlast, hadds.sound⟩ m hm
    exact ⟨hsound.limit_eq, hsound.le_limit, hsound.full⟩

/-- With a limit of one level, a number is not read in a block of commands but behind it.  The one
level is open when it is refused. -/
theorem performAll_keeps_depth_block :
    let s : Session := ⟨[⟨.int 1, .start, "1"⟩], 0, 0, 1⟩
    let as : List Command := [.nested [.read (.expression [])], .read (.expression [])]
    ∃ c, Work.performAll 1 as ⟨s, []⟩ = .ok
        [.mk (.ok (.reports [.mk (.error (.located .start (.tooDeep 1))) 0 1])) 0 0,
          .mk (.ok (.parsed (.node (.expr (.int ⟨1, 1⟩ 1))))) 1 0] c ∧
      c.now.depth = 0 ∧
      ∃ m ∈ c.moments, m.raised = some (.located .start (.tooDeep 1)) ∧ m.session.depth = 1 := by
  intro s as
  have hs : ofTokens s.tokens 1 = .ok s := rfl
  obtain ⟨c, hrun, -, hdepth, hkeeps, hmoments⟩ := performAll_keeps_depth hs (Int.le_refl 1) as
  refine ⟨c, hrun, hdepth, ?_⟩
  cases hkeeps _ (List.mem_cons_self ..) with
  | ok hanswer =>
    cases hanswer with
    | reports _ hinside =>
      cases hinside _ (List.mem_singleton_self _) with
      | error hraised =>
        obtain ⟨m, hm, he⟩ := hraised
        obtain ⟨hfull, -⟩ := (hmoments m hm).2.2 _ _ he
        exact ⟨m, hm, he, by omega⟩

end ScriptReader.Session
