import ScriptReader.Proofs.Relocation
import ScriptReader.Proofs.Runs

/-!
# Runs that are compared

A rule is run on some tokens, and another one on the same tokens further up.  `Follows` says that
the first does what the second does: it gives the same answer, or complains of the same, only
further down, and leaves the same tokens.  It may also stop before the second is done, with an
error that the comparison names; then the second leaves no more tokens than the first.

The relation is closed under sequence and repetition, and the small rules of the grammar follow
themselves, so it passes from rules to the rules that are made of them.  The tokens must hold an
end mark: behind the last token there is nothing that could be moved.

Main statements:

* `FollowsAt.bind`: one rule after the other;
* `Follows.unfold`: a rule that is repeated.
-/

namespace ScriptReader

/-- There is an end mark among some tokens. -/
def HasEnd (ts : List Token) : Prop :=
  ∃ t ∈ ts, t.isEnd = true

theorem HasEnd.tail {t : Token} {ts : List Token} (h : HasEnd (t :: ts)) (ht : t.isEnd = false) :
    HasEnd ts := by
  obtain ⟨u, hu, hend⟩ := h
  rcases List.mem_cons.mp hu with rfl | hu
  · rw [ht] at hend
    cases hend
  · exact ⟨u, hu, hend⟩

theorem HasEnd.exists_cons {ts : List Token} (h : HasEnd ts) : ∃ t us, ts = t :: us := by
  cases ts with
  | nil =>
    obtain ⟨u, hu, -⟩ := h
    cases hu
  | cons t us => exact ⟨t, us, rfl⟩

theorem hasEnd_concat {e : Token} (h : e.isEnd = true) (ts : List Token) : HasEnd (ts ++ [e]) :=
  ⟨e, by simp, h⟩

namespace Rule

variable {α β γ δ σ : Type}

/-! ## What a run leaves -/

/-- The tokens that a run leaves. -/
def left : EStateM.Result Error (List Token) α → List Token
  | .ok _ rest => rest
  | .error _ rest => rest

/-- A rule moves on over the tokens, and never back. -/
def Advances (r : Rule α) : Prop :=
  ∀ ts, left (r ts) <:+ ts

theorem Advances.bind {r : Rule α} {k : α → Rule γ} (hr : Advances r)
    (hk : ∀ a, Advances (k a)) : Advances (r >>= k) := by
  intro ts
  have hts := hr ts
  show left (EStateM.bind r k ts) <:+ ts
  unfold EStateM.bind
  cases h : r ts with
  | ok a mid =>
    rw [h] at hts
    exact (hk a mid).trans hts
  | error e mid =>
    rw [h] at hts
    exact hts

/-! ## The comparison -/

/-- How a run is compared with another one. -/
structure Comparison where
  /-- How much further down the tokens of the first run stand. -/
  shift : Shift
  /-- The errors that may stop the first run before the second is done. -/
  cut : Error → Prop

variable {c : Comparison} {f : α → β} {g : γ → δ}

/-- The outcomes of two runs that are compared, where `f` moves the answers. -/
inductive Alike (c : Comparison) (f : α → β) :
    EStateM.Result Error (List Token) β → EStateM.Result Error (List Token) α → Prop
  | ok {a : α} {rest : List Token} (h : HasEnd rest) :
      Alike c f (.ok (f a) (rest.map c.shift.token)) (.ok a rest)
  | error (e : Error) (rest : List Token) :
      Alike c f (.error (c.shift.error e) (rest.map c.shift.token)) (.error e rest)
  | cut {e : Error} {rest : List Token} {o : EStateM.Result Error (List Token) α} (he : c.cut e)
      (h : (left o).length ≤ rest.length) : Alike c f (.error e rest) o

/-- Where nothing is moved, the two runs are one, unless the first is stopped. -/
theorem Alike.eq_or_cut {f : α → α} {o o' : EStateM.Result Error (List Token) α}
    (h : Alike c f o o') (hshift : c.shift = .none) (hf : ∀ a, f a = a) :
    o = o' ∨ ∃ e rest, o = .error e rest ∧ c.cut e ∧ (left o').length ≤ rest.length := by
  have hmap : ∀ ts : List Token, ts.map c.shift.token = ts := by
    intro ts
    rw [hshift, Shift.token_none_eq, List.map_id]
  cases h with
  | ok _ => exact Or.inl (by rw [hf, hmap])
  | error e rest => exact Or.inl (by rw [hmap, hshift, Shift.error_none])
  | cut he hle => exact Or.inr ⟨_, _, rfl, he, hle⟩

/-- The rule `r` does what `r'` does, where the token `t` is ahead. -/
structure FollowsAt (c : Comparison) (f : α → β) (t : Token) (r : Rule β) (r' : Rule α) :
    Prop where
  advances : Advances r'
  alike : ∀ ts, HasEnd (t :: ts) →
    Alike c f (r ((t :: ts).map c.shift.token)) (r' (t :: ts))

/-- The rule `r` does what `r'` does. -/
def Follows (c : Comparison) (f : α → β) (r : Rule β) (r' : Rule α) : Prop :=
  ∀ t, FollowsAt c f t r r'

theorem Follows.advances {r : Rule β} {r' : Rule α} (h : Follows c f r r') : Advances r' :=
  (h (.endAt .start)).advances

theorem Follows.alike {r : Rule β} {r' : Rule α} (h : Follows c f r r') {ts : List Token}
    (hts : HasEnd ts) : Alike c f (r (ts.map c.shift.token)) (r' ts) := by
  obtain ⟨t, us, rfl⟩ := hts.exists_cons
  exact (h t).alike us hts

/-- A rule that follows another one on the same tokens does the same, unless it is stopped. -/
theorem Follows.eq_or_cut {f : α → α} {r r' : Rule α} (h : Follows c f r r')
    (hshift : c.shift = .none) (hf : ∀ a, f a = a) {ts : List Token} (hts : HasEnd ts) :
    r ts = r' ts ∨ ∃ e rest, r ts = .error e rest ∧ c.cut e ∧
      (left (r' ts)).length ≤ rest.length := by
  have halike := h.alike hts
  rw [hshift, Shift.token_none_eq, List.map_id] at halike
  exact halike.eq_or_cut hshift hf

/-! ## One rule after the other -/

variable {t : Token} {r : Rule β} {r' : Rule α} {k : β → Rule δ} {k' : α → Rule γ}

theorem FollowsAt.bind (hr : FollowsAt c f t r r') (hk : ∀ a, Follows c g (k (f a)) (k' a)) :
    FollowsAt c g t (r >>= k) (r' >>= k') where
  advances := hr.advances.bind fun a => (hk a).advances
  alike ts hts := by
    have h := hr.alike ts hts
    show Alike c g (EStateM.bind r k _) (EStateM.bind r' k' _)
    unfold EStateM.bind
    generalize r ((t :: ts).map c.shift.token) = o at h
    generalize r' (t :: ts) = o' at h
    cases h with
    | @ok a mid hmid => exact (hk a).alike hmid
    | error e rest => exact .error e rest
    | cut he hle =>
      apply Alike.cut he
      cases o' with
      | ok a mid => exact Nat.le_trans ((hk a).advances mid).length_le hle
      | error e mid => exact hle

theorem Follows.bind (hr : Follows c f r r') (hk : ∀ a, Follows c g (k (f a)) (k' a)) :
    Follows c g (r >>= k) (r' >>= k') :=
  fun t => (hr t).bind hk

theorem FollowsAt.pure {a : α} {b : β} (h : b = f a) : FollowsAt c f t (pure b) (pure a) := by
  subst h
  exact ⟨fun ts => List.suffix_refl ts, fun ts hts => .ok hts⟩

theorem Follows.pure {a : α} {b : β} (h : b = f a) : Follows c f (pure b) (pure a) :=
  fun _ => .pure h

/-- The answers of two rules are rewritten alike. -/
theorem Follows.map {h : β → δ} {h' : α → γ} (hr : Follows c f r r')
    (hh : ∀ a, h (f a) = g (h' a)) :
    Follows c g (do return h (← r)) (do return h' (← r')) :=
  hr.bind fun a => .pure (hh a)

theorem FollowsAt.ite {p : Prop} [Decidable p] {s : Rule β} {s' : Rule α}
    (h₁ : FollowsAt c f t r r') (h₂ : FollowsAt c f t s s') :
    FollowsAt c f t (if p then r else s) (if p then r' else s') := by
  split
  · exact h₁
  · exact h₂

theorem Follows.ite {p : Prop} [Decidable p] {s : Rule β} {s' : Rule α}
    (h₁ : Follows c f r r') (h₂ : Follows c f s s') :
    Follows c f (if p then r else s) (if p then r' else s') :=
  fun t => (h₁ t).ite (h₂ t)

/-! ## Small rules -/

theorem Follows.here_then {k : Token → Rule δ} {k' : Token → Rule γ}
    (h : ∀ t, FollowsAt c g t (k (c.shift.token t)) (k' t)) :
    Follows c g (here >>= k) (here >>= k') :=
  fun t => ⟨fun ts => (h (firstToken ts)).advances ts, (h t).alike⟩

/-- A look at the token behind the one ahead.  Behind the end mark nothing is known of it. -/
theorem FollowsAt.next_then {k : Token → Rule δ} {k' : Token → Rule γ}
    (h : ∀ u u', (t.isEnd = false → u = c.shift.token u') → FollowsAt c g t (k u) (k' u')) :
    FollowsAt c g t (next >>= k) (next >>= k') where
  advances ts := by
    obtain ⟨u, hu⟩ : ∃ u, t.isEnd = false → u = c.shift.token (firstToken ts.tail) :=
      ⟨_, fun _ => rfl⟩
    exact (h u _ hu).advances ts
  alike ts hts := by
    refine (h (firstToken (ts.map c.shift.token)) (firstToken ts) ?_).alike ts hts
    intro ht
    obtain ⟨u, us, rfl⟩ := (hts.tail ht).exists_cons
    rfl

/-- A step over the token ahead, which must not be the end mark. -/
theorem FollowsAt.skip_then {k : Unit → Rule δ} {k' : Unit → Rule γ} (ht : t.isEnd = false)
    (h : Follows c g (k ()) (k' ())) : FollowsAt c g t (skip >>= k) (skip >>= k') where
  advances ts := (h.advances ts.tail).trans (List.tail_suffix ts)
  alike _ hts := h.alike (hts.tail ht)

/-- A rule that reads one token follows itself, if it makes the same of a token further down and
nothing of the end mark. -/
theorem accept_follows {view : Token → Option β} {view' : Token → Option α} {expected : List Kind}
    (hmove : ∀ t, view (c.shift.token t) = (view' t).map f)
    (hend : ∀ t a, view' t = some a → t.kind ≠ .eof) :
    Follows c f (accept view expected) (accept view' expected) := by
  intro t
  constructor
  · intro ts
    cases hv : view' (firstToken ts) with
    | none =>
      rw [accept_eq_error hv]
      exact List.suffix_refl ts
    | some a =>
      simp only [accept, hv]
      exact List.tail_suffix ts
  · intro ts hts
    have hmoved := hmove t
    rw [List.map_cons]
    cases hv : view' t with
    | none =>
      rw [hv] at hmoved
      have hrefused : accept view expected (c.shift.token t :: ts.map c.shift.token) =
          .error ((c.shift.token t).refuse expected) _ := accept_eq_error hmoved
      have hrefused' : accept view' expected (t :: ts) = .error (t.refuse expected) _ :=
        accept_eq_error hv
      rw [hrefused, hrefused']
      exact .error (t.refuse expected) (t :: ts)
    | some a =>
      rw [hv] at hmoved
      rw [accept_cons hv, accept_cons hmoved]
      exact .ok (hts.tail (beq_false_of_ne (hend t a hv)))

/-- A rule that reads a token by a view which does not look at its position. -/
theorem accept_with_token_follows (view : Token → Option α) (expected : List Kind)
    (hmove : ∀ t, view (c.shift.token t) = view t)
    (hend : ∀ t a, view t = some a → t.kind ≠ .eof) :
    Follows c (fun x : Token × α => (c.shift.token x.1, x.2))
      (accept (fun t => (view t).map (t, ·)) expected)
      (accept (fun t => (view t).map (t, ·)) expected) := by
  refine accept_follows ?_ ?_
  · intro t
    rw [hmove, Option.map_map]
    rfl
  · intro t x hx
    obtain ⟨a, ha, -⟩ := Option.map_eq_some_iff.mp hx
    exact hend t a ha

theorem token_follows {ks others : List Kind} (hend : Kind.eof ∉ ks) :
    Follows c c.shift.token (token ks others) (token ks others) := by
  refine accept_follows ?_ ?_
  · intro t
    rw [Shift.kind_token]
    split <;> rfl
  · intro t u hu hk
    rw [hk, if_neg hend] at hu
    cases hu

theorem ident_follows : Follows c (fun x => (c.shift.token x.1, x.2)) ident ident := by
  refine accept_follows ?_ ?_
  · intro t
    rw [Shift.content_token]
    split <;> rfl
  · intro t u hu hk
    split at hu
    · next hc =>
      rw [Token.kind, hc] at hk
      cases hk
    · cases hu

theorem isHere_follows (k : Kind) : Follows c id (isHere k) (isHere k) :=
  .here_then fun _ => .pure rfl

theorem skipIf_follows {k : Kind} (hend : k ≠ .eof) : Follows c id (skipIf k) (skipIf k) := by
  intro t
  constructor
  · intro ts
    show left ((if (firstToken ts).kind == k then _ else _ : Rule Bool) ts) <:+ ts
    split
    · exact List.tail_suffix ts
    · exact List.suffix_refl ts
  · intro ts hts
    show Alike c id ((if (c.shift.token t).kind == k then _ else _ : Rule Bool) _)
      ((if t.kind == k then _ else _ : Rule Bool) _)
    rw [Shift.kind_token]
    split
    · next hk =>
      have ht : t.isEnd = false := by
        rw [Token.isEnd, eq_of_beq hk]
        exact beq_false_of_ne hend
      exact Alike.ok (f := id) (hts.tail ht)
    · exact Alike.ok (f := id) hts

theorem refuse_follows (ks : List Kind) : Follows c f (refuse ks) (refuse ks) :=
  fun t => ⟨fun ts => List.suffix_refl ts, fun ts _ => .error (t.refuse ks) (t :: ts)⟩

theorem tooDeep_follows (limit : Int) : Follows c f (tooDeep limit) (tooDeep limit) :=
  fun t => ⟨fun ts => List.suffix_refl ts,
    fun ts _ => .error (.located t.position (.tooDeep limit)) (t :: ts)⟩

/-- A run that gives up where it begins, with an error that the comparison names, is like every
run that moves on. -/
theorem Alike.of_cut {e : Error} (he : c.cut e) (h : Advances r') (ts : List Token) :
    Alike c f (.error e (ts.map c.shift.token)) (r' ts) := by
  apply Alike.cut he
  rw [List.length_map]
  exact (h ts).length_le

theorem tooDeep_cuts {limit : Int} (hcut : ∀ p, c.cut (.located p (.tooDeep limit)))
    (h : Advances r') : Follows c f (tooDeep limit) r' :=
  fun t => ⟨h, fun ts _ => .of_cut (hcut _) h (t :: ts)⟩

/-! ## Repetition -/

section

variable {step : σ → Rule (Option (β × σ))} {step' : σ → Rule (Option (α × σ))}

theorem Follows.unfoldWithin
    (h : ∀ s, Follows c (Option.map fun x : α × σ => (f x.1, x.2)) (step s) (step' s))
    (count : Nat) (s : σ) :
    Follows c (List.map f) (unfoldWithin step count s) (unfoldWithin step' count s) := by
  induction count generalizing s with
  | zero => exact .pure rfl
  | succ count ih =>
    refine (h s).bind fun o => ?_
    cases o with
    | none => exact .pure rfl
    | some p => exact (ih p.2).map fun _ => rfl

/-- A rule that is repeated follows another one if its steps do. -/
theorem Follows.unfold
    (h : ∀ s, Follows c (Option.map fun x : α × σ => (f x.1, x.2)) (step s) (step' s)) (s : σ) :
    Follows c (List.map f) (unfold step s) (unfold step' s) := by
  have hcount := fun count => Follows.unfoldWithin h count s
  intro t
  constructor
  · intro ts
    exact (hcount (ts.length + 1)).advances ts
  · intro ts hts
    have halike := (hcount ((t :: ts).length + 1)).alike hts
    show Alike c _ (Rule.unfoldWithin step (((t :: ts).map c.shift.token).length + 1) s _) _
    rw [List.length_map]
    exact halike

end

theorem Follows.collect {step : Rule (Option β)} {step' : Rule (Option α)}
    (h : Follows c (Option.map f) step step') :
    Follows c (List.map f) (collect step) (collect step') := by
  refine Follows.unfold (fun _ => h.map fun o => ?_) ()
  cases o <;> rfl

end Rule

end ScriptReader
