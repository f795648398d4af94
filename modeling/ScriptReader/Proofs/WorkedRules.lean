import ScriptReader.Proofs.Courses
import ScriptReader.Proofs.TokensAhead

/-!
# Work that performs a rule

Work of a session performs a rule if it does to the session what the rule does to the tokens
ahead: it gives the same answer or raises the same error, and moves over the same tokens.  It
ends with as many open levels as it began with, whether it answers or fails; at no moment are
fewer of them open, or more than the limit; and a lack of levels is raised where all are open.
On the way the session stands between the token it began at and the one that it is left at.

As rules are, work that performs a rule is closed under sequence and repetition.

Main statements:

* `Performs.bind`: one piece of work after the other;
* `Performs.nested`, `nested_performs_tooDeep`: work in one more level, if there is one.
-/

namespace ScriptReader.Session

open Rule

/-! ## What a course goes through -/

/-- A moment with `floor` open levels at least and `limit` of them at most.  Where a lack of levels
is raised, all of them are open. -/
structure Moment.Sound (limit : Int) (floor : Nat) (m : Moment) : Prop where
  limit_eq : m.session.limit = limit
  floor_le : floor ≤ m.session.depth
  le_limit : (m.session.depth : Int) ≤ limit
  full : ∀ p l, m.raised = some (.located p (.tooDeep l)) →
    (m.session.depth : Int) = limit ∧ l = limit

theorem Moment.Sound.mono {limit : Int} {floor floor' : Nat} {m : Moment}
    (h : m.Sound limit floor) (hf : floor' ≤ floor) : m.Sound limit floor' :=
  ⟨h.limit_eq, Nat.le_trans hf h.floor_le, h.le_limit, h.full⟩

/-- The course has gone on through the moments `ms`. -/
structure Course.Adds (limit : Int) (floor : Nat) (c c' : Course) (ms : List Moment) : Prop where
  past_eq : c'.past = ms ++ c.past
  sound : ∀ m ∈ ms, m.Sound limit floor

namespace Course.Adds

variable {limit : Int} {floor floor' : Nat} {c c' c'' : Course} {ms ns : List Moment}

theorem trans (h : c.Adds limit floor c' ms) (h' : c'.Adds limit floor c'' ns) :
    c.Adds limit floor c'' (ns ++ ms) where
  past_eq := by rw [h'.past_eq, h.past_eq, List.append_assoc]
  sound m hm := (List.mem_append.mp hm).elim (h'.sound m) (h.sound m)

theorem mono (h : c.Adds limit floor c' ms) (hf : floor' ≤ floor) :
    c.Adds limit floor' c' ms where
  past_eq := h.past_eq
  sound m hm := (h.sound m hm).mono hf

end Course.Adds

/-- The session has moved over the tokens `us`, and `depth` levels are open.  At no moment was it
in front of these tokens or behind them. -/
structure Course.Reaches (limit : Int) (floor depth : Nat) (us : List Token) (c c' : Course)
    (ms : List Moment) : Prop extends c.Adds limit floor c' ms where
  now_eq : c'.now = { c.now with position := c.now.position + us.length, depth := depth }
  between : ∀ m ∈ ms, m.session.tokens = c.now.tokens ∧ c.now.position ≤ m.session.position ∧
    m.session.position ≤ c.now.position + us.length

namespace Course.Reaches

variable {limit : Int} {floor floor' depth depth' : Nat} {us vs : List Token}
variable {c c' c'' : Course} {ms ns : List Moment}

theorem trans (h : c.Reaches limit floor depth us c' ms)
    (h' : c'.Reaches limit floor depth' vs c'' ns) :
    c.Reaches limit floor depth' (us ++ vs) c'' (ns ++ ms) where
  toAdds := h.toAdds.trans h'.toAdds
  now_eq := by
    rw [h'.now_eq, h.now_eq, List.length_append, ← Nat.add_assoc]
  between m hm := by
    rw [List.length_append]
    rcases List.mem_append.mp hm with hm | hm
    · obtain ⟨htokens, hle, hlt⟩ := h'.between m hm
      rw [h.now_eq] at htokens hle hlt
      dsimp only at htokens hle hlt
      exact ⟨htokens, by omega, by omega⟩
    · obtain ⟨htokens, hle, hlt⟩ := h.between m hm
      exact ⟨htokens, hle, by omega⟩

theorem mono (h : c.Reaches limit floor depth us c' ms) (hf : floor' ≤ floor) :
    c.Reaches limit floor' depth us c' ms where
  toAdds := h.toAdds.mono hf
  now_eq := h.now_eq
  between := h.between

/-- Behind the tokens moved over, the others are ahead. -/
theorem ahead_eq {rest : List Token} (h : c.Reaches limit floor depth us c' ms)
    (ha : c.now.ahead = us ++ rest) (hend : HasEnd rest) : c'.now.ahead = rest := by
  rw [h.now_eq]
  exact ahead_of_position ha hend depth

end Course.Reaches

/-- There is a session with the limit, and with `depth` of its levels open. -/
structure Course.Stands (limit : Int) (depth : Nat) (c : Course) : Prop where
  limit_eq : c.now.limit = limit
  depth_eq : c.now.depth = depth
  le_limit : (depth : Int) ≤ limit

namespace Course.Stands

variable {limit : Int} {depth : Nat} {c : Course}

/-- A moment at which no lack of levels is raised. -/
theorem sound (h : c.Stands limit depth) {e : Option Error}
    (he : ∀ p l, e ≠ some (.located p (.tooDeep l))) :
    Moment.Sound limit depth ⟨c.now, e⟩ :=
  ⟨h.limit_eq, Nat.le_of_eq h.depth_eq.symm, by rw [h.depth_eq]; exact h.le_limit,
    fun p l hl => absurd hl (he p l)⟩

theorem quiet (h : c.Stands limit depth) : Moment.Sound limit depth ⟨c.now, none⟩ :=
  h.sound fun _ _ he => by cases he

/-- A moment at which a lack of levels is raised, for all of them are open. -/
theorem sound_full (h : c.Stands limit depth) (hfull : (depth : Int) = limit) (p : Position) :
    Moment.Sound limit depth ⟨c.now, some (.located p (.tooDeep limit))⟩ where
  limit_eq := h.limit_eq
  floor_le := Nat.le_of_eq h.depth_eq.symm
  le_limit := by rw [h.depth_eq]; exact h.le_limit
  full p' l hl := by
    injection hl with hl
    injection hl with hp hl
    injection hl with hl
    exact ⟨by rw [h.depth_eq, hfull], hl.symm⟩

/-- Moving over the tokens `us` and opening or closing levels. -/
theorem move (h : c.Stands limit depth) (us : List Token) (depth' : Nat) :
    c.Reaches limit depth depth' us
      (c.move { c.now with position := c.now.position + us.length, depth := depth' })
      [⟨c.now, none⟩] where
  past_eq := rfl
  sound := List.forall_mem_singleton.mpr h.quiet
  now_eq := rfl
  between := List.forall_mem_singleton.mpr ⟨rfl, Nat.le_refl _, Nat.le_add_right _ _⟩

theorem raise (h : c.Stands limit depth) {e : Error}
    (he : Moment.Sound limit depth ⟨c.now, some e⟩) :
    c.Reaches limit depth depth [] (c.raise e) [⟨c.now, some e⟩] where
  past_eq := rfl
  sound := List.forall_mem_singleton.mpr he
  now_eq := by rw [← h.depth_eq]; rfl
  between := List.forall_mem_singleton.mpr ⟨rfl, Nat.le_refl _, Nat.le_refl _⟩

theorem refl (h : c.Stands limit depth) : c.Reaches limit depth depth [] c [] where
  past_eq := rfl
  sound := List.forall_mem_nil _
  now_eq := by rw [← h.depth_eq]; rfl
  between := List.forall_mem_nil _

end Course.Stands

variable {limit : Int} {depth : Nat} {α β γ : Type}

theorem Course.Reaches.stands {us : List Token} {c c' : Course} {ms : List Moment}
    (h : c.Reaches limit depth depth us c' ms) (hc : c.Stands limit depth) :
    c'.Stands limit depth := by
  refine ⟨?_, ?_, hc.le_limit⟩
  · rw [h.now_eq]
    exact hc.limit_eq
  · rw [h.now_eq]

/-! ## Runs that agree -/

/-- The run of some work from the course `c` agrees with the run of a rule on the tokens ahead.
In the end `depth` levels are open. -/
inductive Agrees (limit : Int) (floor depth : Nat) (c : Course) :
    EStateM.Result Error Course α → EStateM.Result Error (List Token) α → Prop
  | ok {a : α} {us rest : List Token} {c' : Course} {ms : List Moment}
      (ahead : c.now.ahead = us ++ rest) (hend : HasEnd rest)
      (reaches : c.Reaches limit floor depth us c' ms) :
      Agrees limit floor depth c (.ok a c') (.ok a rest)
  | error {e : Error} {us rest : List Token} {c' : Course} {ms : List Moment}
      (ahead : c.now.ahead = us ++ rest) (reaches : c.Reaches limit floor depth us c' ms)
      (raised : ∃ m ∈ ms, m.raised = some e) :
      Agrees limit floor depth c (.error e c') (.error e rest)

/-- What agrees behind some tokens agrees in front of them. -/
theorem Agrees.behind {floor depth' : Nat} {us rest : List Token} {c c' : Course}
    {ms : List Moment} {o : EStateM.Result Error Course α}
    {o' : EStateM.Result Error (List Token) α} (h : Agrees limit floor depth' c' o o')
    (ha : c.now.ahead = us ++ rest) (hend : HasEnd rest)
    (hr : c.Reaches limit floor depth us c' ms) : Agrees limit floor depth' c o o' := by
  have hahead := hr.ahead_eq ha hend
  cases h with
  | ok ahead hend' reaches =>
    refine .ok ?_ hend' (hr.trans reaches)
    rw [ha, ← hahead, ahead, List.append_assoc]
  | error ahead reaches raised =>
    obtain ⟨m, hm, he⟩ := raised
    refine .error ?_ (hr.trans reaches) ⟨m, List.mem_append_left _ hm, he⟩
    rw [ha, ← hahead, ahead, List.append_assoc]

/-- Behind a run that agrees, levels that are open are closed. -/
theorem Agrees.close {n : Nat} {c : Course} {o : EStateM.Result Error Course α}
    {o' : EStateM.Result Error (List Token) α} (hc : c.Stands limit (depth + n))
    (h : Agrees limit (depth + n) (depth + n) c o o') :
    Agrees limit depth depth c (closeLevels n o) o' := by
  have hgo : ∀ {us : List Token} {c' : Course} {ms : List Moment},
      c.Reaches limit (depth + n) (depth + n) us c' ms → n ≤ c'.now.depth ∧
        c.Reaches limit depth depth us (c'.move (c'.now.leaveAll n))
          ([⟨c'.now, none⟩] ++ ms) := by
    intro us c' ms hr
    have hstands := hr.stands hc
    have hmove := hstands.move [] depth
    have hnow : c'.now.leaveAll n =
        { c'.now with position := c'.now.position + 0, depth := depth } := by
      rw [leaveAll, hstands.depth_eq, Nat.add_sub_cancel]
      rfl
    have htrans := (hr.trans hmove).mono (Nat.le_add_right depth n)
    rw [List.append_nil] at htrans
    rw [hnow]
    exact ⟨by rw [hstands.depth_eq]; exact Nat.le_add_left n depth, htrans⟩
  cases h with
  | ok ahead hend reaches =>
    obtain ⟨hopen, hclosed⟩ := hgo reaches
    rw [closeLevels, if_pos hopen]
    exact .ok ahead hend hclosed
  | error ahead reaches raised =>
    obtain ⟨m, hm, he⟩ := raised
    obtain ⟨hopen, hclosed⟩ := hgo reaches
    rw [closeLevels, if_pos hopen]
    exact .error ahead hclosed ⟨m, List.mem_append_right _ hm, he⟩

/-! ## Work that performs a rule -/

/-- The work performs the rule, with `depth` open levels and the token `t` ahead. -/
def PerformsAt (limit : Int) (depth : Nat) (t : Token) (w : Work α) (r : Rule α) : Prop :=
  ∀ c : Course, c.Stands limit depth → firstToken c.now.ahead = t →
    Agrees limit depth depth c (w c) (r c.now.ahead)

/-- The work performs the rule, with `depth` open levels. -/
def Performs (limit : Int) (depth : Nat) (w : Work α) (r : Rule α) : Prop :=
  ∀ t, PerformsAt limit depth t w r

theorem Performs.agrees {w : Work α} {r : Rule α} (h : Performs limit depth w r) {c : Course}
    (hc : c.Stands limit depth) : Agrees limit depth depth c (w c) (r c.now.ahead) :=
  h _ c hc rfl

theorem Performs.of_agrees {w : Work α} {r : Rule α}
    (h : ∀ c : Course, c.Stands limit depth →
      Agrees limit depth depth c (w c) (r c.now.ahead)) : Performs limit depth w r :=
  fun _ c hc _ => h c hc

section

variable {t : Token} {w : Work α} {r : Rule α} {k : α → Work β} {k' : α → Rule β}

theorem PerformsAt.bind (hw : PerformsAt limit depth t w r)
    (hk : ∀ a, Performs limit depth (k a) (k' a)) :
    PerformsAt limit depth t (w >>= k) (r >>= k') := by
  intro c hc ht
  have h := hw c hc ht
  show Agrees limit depth depth c (EStateM.bind w k c) (EStateM.bind r k' c.now.ahead)
  unfold EStateM.bind
  generalize w c = o at h
  generalize r c.now.ahead = o' at h
  cases h with
  | @ok a us rest c' ms ahead hend reaches =>
    have hahead := reaches.ahead_eq ahead hend
    have hnext := (hk a).agrees (reaches.stands hc)
    rw [hahead] at hnext
    exact hnext.behind ahead hend reaches
  | error ahead reaches raised => exact .error ahead reaches raised

theorem Performs.bind (hw : Performs limit depth w r)
    (hk : ∀ a, Performs limit depth (k a) (k' a)) : Performs limit depth (w >>= k) (r >>= k') :=
  fun t => (hw t).bind hk

theorem PerformsAt.pure (a : α) : PerformsAt limit depth t (pure a) (pure a) :=
  fun c hc _ => .ok (List.nil_append _).symm c.now.ahead_hasEnd hc.refl

theorem Performs.pure (a : α) : Performs limit depth (pure a) (pure a) :=
  fun _ => .pure a

theorem Performs.map (hw : Performs limit depth w r) (f : α → β) :
    Performs limit depth (do return f (← w)) (do return f (← r)) :=
  hw.bind fun a => .pure (f a)

theorem PerformsAt.ite {p : Prop} [Decidable p] {w' : Work α} {r' : Rule α}
    (h₁ : PerformsAt limit depth t w r) (h₂ : PerformsAt limit depth t w' r') :
    PerformsAt limit depth t (if p then w else w') (if p then r else r') := by
  split
  · exact h₁
  · exact h₂

theorem Performs.ite {p : Prop} [Decidable p] {w' : Work α} {r' : Rule α}
    (h₁ : Performs limit depth w r) (h₂ : Performs limit depth w' r') :
    Performs limit depth (if p then w else w') (if p then r else r') :=
  fun t => (h₁ t).ite (h₂ t)

/-! ## Small pieces of work -/

/-- An error that is no lack of levels is raised. -/
theorem fail_performs {e : Token → Error} (he : ∀ t p l, e t ≠ .located p (.tooDeep l)) :
    PerformsAt limit depth t (Work.fail (e t) : Work α)
      fun ts => .error (e (firstToken ts)) ts := by
  intro c hc ht
  dsimp only
  rw [ht]
  have hraise := hc.raise (hc.sound fun p l h => he t p l (Option.some.inj h))
  exact .error (List.nil_append _).symm hraise ⟨_, List.mem_singleton_self _, rfl⟩

theorem refuse_ne_tooDeep (t : Token) (ks : List Kind) (p : Position) (l : Int) :
    t.refuse ks ≠ .located p (.tooDeep l) := by
  unfold Token.refuse
  split <;> nofun

theorem Performs.here_then {k : Token → Work β} {k' : Token → Rule β}
    (h : ∀ t, PerformsAt limit depth t (k t) (k' t)) :
    Performs limit depth (Work.here >>= k) (here >>= k') := by
  intro t c hc ht
  have hnext := h t c hc ht
  show Agrees limit depth depth c (k c.now.current c) (k' (firstToken c.now.ahead) c.now.ahead)
  rw [current_eq, ht]
  exact hnext

/-- A look at the token behind the one ahead.  Behind the end mark nothing is known of it. -/
theorem PerformsAt.next_then {k : Token → Work β} {k' : Token → Rule β}
    (h : ∀ u u', (t.isEnd = false → u = u') → PerformsAt limit depth t (k u) (k' u')) :
    PerformsAt limit depth t (Work.peek 1 >>= k) (next >>= k') := by
  intro c hc ht
  obtain ⟨u, hu, heq⟩ := c.now.peek_one
  rw [ht] at heq
  have hpeek : (Work.peek 1 >>= k) c = k u c := by
    show EStateM.bind (Work.peek 1) k c = k u c
    unfold EStateM.bind Work.peek
    rw [hu]
    rfl
  rw [hpeek]
  exact h u _ heq c hc ht

theorem skip_reaches {c : Course} (hc : c.Stands limit depth) (t : Token) :
    c.Reaches limit depth depth [t] (c.move c.now.advance) [⟨c.now, none⟩] := by
  have hmove := hc.move [t] depth
  have hadvance : c.now.advance =
      { c.now with position := c.now.position + [t].length, depth := depth } := by
    rw [← hc.depth_eq]
    rfl
  rw [hadvance]
  exact hmove

/-- A step over the token ahead, which must not be the end mark. -/
theorem PerformsAt.skip (ht : t.isEnd = false) : PerformsAt limit depth t Work.skip skip := by
  intro c hc hfirst
  obtain ⟨u, us, hahead⟩ := c.now.ahead_hasEnd.exists_cons
  rw [hahead] at hfirst
  obtain rfl : u = t := hfirst
  have hend : HasEnd us := (hahead ▸ c.now.ahead_hasEnd).tail ht
  have hrule : skip c.now.ahead = .ok () us := by
    rw [hahead]
    rfl
  rw [hrule]
  refine .ok ?_ hend (skip_reaches hc u)
  exact hahead

theorem refuse_performs (ks : List Kind) :
    Performs limit depth (Work.refuse ks : Work α) (refuse ks) := by
  have hpure : (refuse ks : Rule α) = here >>= fun _ => refuse ks := rfl
  rw [hpure]
  exact .here_then fun t =>
    fail_performs (e := fun t => t.refuse ks) fun t => refuse_ne_tooDeep t ks

/-- Moves over the token ahead if something is made of it, and complains otherwise. -/
def moveOver (expected : List Kind) (k : α → Rule β) : Option α → Rule β
  | some a => skip >>= fun _ => k a
  | none => refuse expected

theorem accept_bind (view : Token → Option α) (expected : List Kind) (k : α → Rule β) :
    accept view expected >>= k = here >>= fun t => moveOver expected k (view t) := by
  funext ts
  show EStateM.bind _ _ ts = moveOver expected k (view (firstToken ts)) ts
  unfold EStateM.bind accept
  cases view (firstToken ts) <;> rfl

/-- One token is read by a view that makes nothing of the end mark. -/
theorem accept_performs {view : Token → Option α} (expected : List Kind)
    (hend : ∀ t a, view t = some a → t.kind ≠ .eof) :
    Performs limit depth (Work.accept view expected) (accept view expected) := by
  rw [← bind_pure (accept view expected), accept_bind]
  refine .here_then fun t => ?_
  cases hv : view t with
  | none => exact refuse_performs expected t
  | some a => exact (PerformsAt.skip (beq_false_of_ne (hend t a hv))).bind fun _ => .pure a

theorem token_performs {ks others : List Kind} (hend : Kind.eof ∉ ks) :
    Performs limit depth (Work.token ks others) (token ks others) := by
  refine accept_performs _ fun t u hu hk => ?_
  rw [hk, if_neg hend] at hu
  cases hu

theorem ident_performs : Performs limit depth Work.ident ident := by
  refine accept_performs _ fun t u hu hk => ?_
  split at hu
  · next hc =>
    rw [Token.kind, hc] at hk
    cases hk
  · cases hu

theorem isHere_performs (k : Kind) : Performs limit depth (Work.isHere k) (isHere k) :=
  .here_then fun t => .pure (t.kind == k)

theorem skipIf_performs {k : Kind} (hend : k ≠ .eof) :
    Performs limit depth (Work.skipIf k) (skipIf k) := by
  show Performs limit depth
    (Work.here >>= fun t => if t.kind == k then Work.skip >>= fun _ => pure true else pure false)
    (here >>= fun t => if t.kind == k then skip >>= fun _ => pure true else pure false)
  refine .here_then fun t => ?_
  split
  · next hk =>
    have ht : t.isEnd = false := by
      rw [Token.isEnd, eq_of_beq hk]
      exact beq_false_of_ne hend
    exact (PerformsAt.skip ht).bind fun _ => .pure true
  · exact .pure false

theorem entry_bind {found : Option α} {a : α} (t : Token) (k : α → Work β) (h : found = some a) :
    Work.entry t found >>= k = k a := by
  subst h
  rfl

theorem uncounted_entry_bind {found : Option α} {a : α} (t : Token) (k : α → CountedWork β)
    (h : found = some a) : Work.uncounted (Work.entry t found) >>= k = k a := by
  subst h
  rfl

theorem answer_bind {o : Except Error α} {a : α} (k : α → Work β) (h : o = .ok a) :
    Work.answer o >>= k = k a := by
  subst h
  rfl

/-- A token is read by its kind, where the rule reads it by a view that makes something of these
kinds. -/
theorem token_view_performs {view : Token → Option α} {ks : List Kind} (hend : Kind.eof ∉ ks)
    (hview : ∀ t : Token, t.kind ∈ ks ↔ (view t).isSome = true)
    {k : Token → Work β} {k' : Token × α → Rule β}
    (hk : ∀ t a, view t = some a → Performs limit depth (k t) (k' (t, a))) :
    Performs limit depth (Work.token ks [] >>= k)
      (accept (fun t => (view t).map (t, ·)) ks >>= k') := by
  have hwork : Work.token ks [] >>= k =
      Work.here >>= fun t => if t.kind ∈ ks then Work.skip >>= fun _ => k t
        else Work.refuse ks := by
    unfold Work.token Work.accept
    rw [List.append_nil, bind_assoc]
    refine congrArg (Work.here >>= ·) (funext fun t => ?_)
    dsimp only
    by_cases hks : t.kind ∈ ks
    · rw [if_pos hks, if_pos hks]
      rfl
    · rw [if_neg hks, if_neg hks]
      rfl
  rw [accept_bind, hwork]
  refine .here_then fun t => ?_
  cases hv : view t with
  | none =>
    have hks : t.kind ∉ ks := by rw [hview, hv]; exact Bool.false_ne_true
    rw [if_neg hks]
    exact refuse_performs ks t
  | some a =>
    have hks : t.kind ∈ ks := by rw [hview, hv]; rfl
    have ht : t.kind ≠ .eof := fun he => hend (he ▸ hks)
    rw [if_pos hks]
    exact (PerformsAt.skip (beq_false_of_ne ht)).bind fun _ => hk t a hv

end

/-! ## Repetition -/

section

variable {σ : Type} {step : σ → Work (Option (α × σ))} {step' : σ → Rule (Option (α × σ))}

theorem Performs.unfoldWithin (h : ∀ s, Performs limit depth (step s) (step' s)) (count : Nat)
    (s : σ) : Performs limit depth (Work.unfoldWithin step count s)
      (Rule.unfoldWithin step' count s) := by
  induction count generalizing s with
  | zero => exact .pure []
  | succ count ih =>
    refine (h s).bind fun o => ?_
    cases o with
    | none => exact .pure []
    | some p => exact (ih p.2).map (p.1 :: ·)

theorem Performs.unfold (h : ∀ s, Performs limit depth (step s) (step' s)) (s : σ) :
    Performs limit depth (Work.unfold step s) (Rule.unfold step' s) :=
  .of_agrees fun c hc => (Performs.unfoldWithin h (c.now.ahead.length + 1) s).agrees hc

end

theorem Performs.collect {step : Work (Option α)} {step' : Rule (Option α)}
    (h : Performs limit depth step step') :
    Performs limit depth (Work.collect step) (Rule.collect step') :=
  .unfold (fun _ => h.map _) ()

theorem unfoldWithin_map {σ : Type} (step : σ → Rule (Option (α × σ))) (f : α → β) (count : Nat)
    (s : σ) :
    Rule.unfoldWithin (fun s => do return (← step s).map (Prod.map f id)) count s =
      (do return (← Rule.unfoldWithin step count s).map f : Rule (List β)) := by
  induction count generalizing s with
  | zero => rfl
  | succ count ih =>
    rw [Rule.unfoldWithin, Rule.unfoldWithin]
    simp only [bind_assoc, pure_bind]
    refine congrArg (step s >>= ·) (funext fun o => ?_)
    cases o with
    | none => rfl
    | some p =>
      obtain ⟨a, s'⟩ := p
      have hrest := congrArg (fun r : Rule (List β) => r >>= fun bs => pure (f a :: bs)) (ih s')
      simp only [bind_assoc, pure_bind] at hrest
      simp only [Option.map_some, Prod.map_apply, id_eq, bind_assoc, pure_bind, List.map_cons]
      exact hrest

/-- What a rule that is repeated answers, rewritten step by step. -/
theorem collect_map (step : Rule (Option α)) (f : α → β) :
    collect (do return (← step).map f) = (do return (← collect step).map f : Rule (List β)) := by
  have hstep : (fun _ : Unit =>
      (do return (← (do return (← step).map f)).map (·, ()) : Rule (Option (β × Unit)))) =
      fun _ => do return (← (do return (← step).map (·, ()))).map (Prod.map f id) := by
    funext u
    simp only [bind_assoc, pure_bind, Option.map_map]
    rfl
  unfold collect
  rw [hstep]
  funext ts
  exact congrFun (unfoldWithin_map _ f (ts.length + 1) ()) ts

/-- Work that is repeated answers with other things than the rule does, from which those of the
rule can be had. -/
theorem Performs.collect_map_bind {step : Work (Option β)} {step' : Rule (Option α)} {f : α → β}
    {g : β → α} {k : List β → Work γ} {k' : List α → Rule γ}
    (h : Performs limit depth step (do return (← step').map f)) (hg : ∀ a, g (f a) = a)
    (hk : ∀ bs : List β, Performs limit depth (k bs) (k' (bs.map g))) :
    Performs limit depth (Work.collect step >>= k) (Rule.collect step' >>= k') := by
  have hcollect := h.collect
  rw [collect_map] at hcollect
  have hid : g ∘ f = id := funext hg
  have hrule : Rule.collect step' >>= k' =
      (do return (← Rule.collect step').map f) >>= fun bs => k' (bs.map g) := by
    simp only [bind_assoc, pure_bind, List.map_map, hid, List.map_id]
  rw [hrule]
  exact hcollect.bind hk

/-! ## Levels of nesting -/

theorem Course.Stands.enter {c : Course} (h : c.Stands limit depth) (hlt : (depth : Int) < limit) :
    ∃ s, c.now.enter = .ok s ∧ (c.move s).Stands limit (depth + 1) ∧
      c.Reaches limit depth (depth + 1) [] (c.move s) [⟨c.now, none⟩] ∧
      s.ahead = c.now.ahead := by
  have hreaches := h.move [] (depth + 1)
  refine ⟨{ c.now with depth := depth + 1 }, ?_, ⟨h.limit_eq, rfl, ?_⟩, hreaches, ?_⟩
  · unfold Session.enter
    rw [if_pos (by rwa [h.depth_eq, h.limit_eq]), h.depth_eq]
  · rw [Int.natCast_succ]
    exact Int.add_one_le_of_lt hlt
  · exact hreaches.ahead_eq (List.nil_append _).symm c.now.ahead_hasEnd

theorem Course.Stands.enter_full {c : Course} (h : c.Stands limit depth)
    (hfull : (depth : Int) = limit) :
    c.now.enter = .error (.located c.now.current.position (.tooDeep limit)) := by
  unfold Session.enter
  rw [if_neg (by rw [h.depth_eq, h.limit_eq, hfull]; exact Int.lt_irrefl _), h.limit_eq]

theorem Agrees.full {c : Course} (hc : c.Stands limit depth) (hfull : (depth : Int) = limit) :
    Agrees limit depth depth c
      (.error (.located c.now.current.position (.tooDeep limit))
        (c.raise (.located c.now.current.position (.tooDeep limit))) :
        EStateM.Result Error Course α)
      (tooDeep limit c.now.ahead) := by
  rw [current_eq]
  exact .error (List.nil_append _).symm (hc.raise (hc.sound_full hfull _))
    ⟨_, List.mem_singleton_self _, rfl⟩

/-- Work in one more level, where one is left. -/
theorem Performs.nested {w : Work α} {r : Rule α} (hw : Performs limit (depth + 1) w r)
    (hlt : (depth : Int) < limit) : Performs limit depth (Work.nested w) r := by
  refine .of_agrees fun c hc => ?_
  obtain ⟨s, henter, hs, hreaches, hahead⟩ := hc.enter hlt
  have hagrees := Agrees.close hs (hw.agrees hs)
  have hrun : (c.move s).now.ahead = c.now.ahead := hahead
  rw [hrun] at hagrees
  have hwork : Work.nested w c = closeLevels 1 (w (c.move s)) := by
    unfold Work.nested
    rw [henter]
  rw [hwork]
  exact hagrees.behind (List.nil_append _).symm c.now.ahead_hasEnd hreaches

/-- Work in one more level, where none is left. -/
theorem nested_performs_tooDeep (w : Work α) (hfull : (depth : Int) = limit) :
    Performs limit depth (Work.nested w) (tooDeep limit) := by
  refine .of_agrees fun c hc => ?_
  unfold Work.nested
  rw [hc.enter_full hfull]
  exact .full hc hfull

/-! ## Levels that are counted -/

/-- The work performs the rule once its levels are closed, where `n` levels are counted above the
`base` and the token `t` is ahead. -/
def ClosedPerformsAt (limit : Int) (base n : Nat) (t : Token) (w : CountedWork α) (r : Rule α) :
    Prop :=
  ∀ c : Course, c.Stands limit (base + n) → firstToken c.now.ahead = t →
    Agrees limit base base c (Work.closed (w (c, n))) (r c.now.ahead)

/-- The work performs the rule once its levels are closed, where `n` levels are counted above the
`base`. -/
def ClosedPerforms (limit : Int) (base n : Nat) (w : CountedWork α) (r : Rule α) : Prop :=
  ∀ t, ClosedPerformsAt limit base n t w r

section

variable {base n : Nat} {t : Token} {w : Work α} {r : Rule α}

theorem ClosedPerformsAt.pure (a : α) : ClosedPerformsAt limit base n t (pure a) (pure a) :=
  fun c hc _ => Agrees.close hc (.ok (List.nil_append _).symm c.now.ahead_hasEnd hc.refl)

/-- Work that opens no level to be counted, and then some that may. -/
theorem ClosedPerformsAt.bind {k : α → CountedWork β} {k' : α → Rule β}
    (hw : PerformsAt limit (base + n) t w r)
    (hk : ∀ a, ClosedPerforms limit base n (k a) (k' a)) :
    ClosedPerformsAt limit base n t (Work.uncounted w >>= k) (r >>= k') := by
  intro c hc ht
  have h := hw c hc ht
  show Agrees limit base base c
    (Work.closed (EStateM.bind (Work.uncounted w) k (c, n))) (EStateM.bind r k' c.now.ahead)
  unfold EStateM.bind Work.uncounted
  dsimp only
  generalize w c = o at h
  generalize r c.now.ahead = o' at h
  cases h with
  | @ok a us rest c' ms ahead hend reaches =>
    have hahead := reaches.ahead_eq ahead hend
    have hnext := hk a _ c' (reaches.stands hc) rfl
    rw [hahead] at hnext
    exact hnext.behind ahead hend (reaches.mono (Nat.le_add_right base n))
  | error ahead reaches raised => exact .close hc (.error ahead reaches raised)

theorem ClosedPerforms.here_then {k : Token → CountedWork β} {k' : Token → Rule β}
    (h : ∀ t, ClosedPerformsAt limit base n t (k t) (k' t)) :
    ClosedPerforms limit base n (Work.uncounted Work.here >>= k) (here >>= k') := by
  intro t c hc ht
  have hnext := h t c hc ht
  show Agrees limit base base c (Work.closed (k c.now.current (c, n)))
    (k' (firstToken c.now.ahead) c.now.ahead)
  rw [current_eq, ht]
  exact hnext

theorem ClosedPerformsAt.openLevel_then {k : Unit → CountedWork α}
    (hlt : ((base + n : Nat) : Int) < limit)
    (h : ClosedPerformsAt limit base (n + 1) t (k ()) r) :
    ClosedPerformsAt limit base n t (Work.openLevel >>= k) r := by
  intro c hc ht
  obtain ⟨s, henter, hs, hreaches, hahead⟩ := hc.enter hlt
  have hnext := h (c.move s) hs (by rw [← ht, ← hahead]; rfl)
  have hrun : (c.move s).now.ahead = c.now.ahead := hahead
  rw [hrun] at hnext
  have hwork : (Work.openLevel >>= k) (c, n) = k () (c.move s, n + 1) := by
    show EStateM.bind Work.openLevel k (c, n) = _
    unfold EStateM.bind Work.openLevel
    dsimp only
    rw [henter]
  rw [hwork]
  exact hnext.behind (List.nil_append _).symm c.now.ahead_hasEnd
    (hreaches.mono (Nat.le_add_right base n))

/-- One more level is wanted, where none is left. -/
theorem openLevel_performs_tooDeep (k : Unit → CountedWork α)
    (hfull : ((base + n : Nat) : Int) = limit) :
    ClosedPerformsAt limit base n t (Work.openLevel >>= k) (tooDeep limit) := by
  intro c hc _
  show Agrees limit base base c (Work.closed (EStateM.bind Work.openLevel k (c, n))) _
  unfold EStateM.bind Work.openLevel
  dsimp only
  rw [hc.enter_full hfull]
  exact .close hc (.full hc hfull)

/-- Levels are counted from none on, and closed. -/
theorem Performs.closing {w : CountedWork α} (h : ClosedPerforms limit depth 0 w r) :
    Performs limit depth (Work.closing w) r :=
  h

end

end ScriptReader.Session
