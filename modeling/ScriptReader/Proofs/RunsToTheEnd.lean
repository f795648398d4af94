import ScriptReader.Proofs.Phrase
import ScriptReader.Proofs.Runs

/-!
# Runs up to the end

The rules of the grammar read what stands in front of the first end mark, and nothing else.  Such a
run `Stops`: it takes some of the tokens in front of the mark, and then answers, or fails with an
error that concerns the token it stands at.  What stands behind the mark is not looked at.

A rule that answers in a loop must take a token where it goes on, so the relation is told which
answers need one.  It is closed under sequence and repetition, and the small rules stop.

Main statements:

* `StopsAt.bind`: one rule after the other;
* `Stops.unfold`: a rule that is repeated.
-/

namespace ScriptReader

open Phrase

/-- An error that stands at the token `t` and says of it that it was not expected, that the script
must not end there, or that it nests deeper than the limit. -/
inductive Error.Concerns (limit : Int) (t : Token) : Error → Prop
  | unexpected (h : t.isEnd = false) (ks : List Kind) :
      Error.Concerns limit t (.located t.position (.unexpected t.lexeme ks))
  | unfinished (h : t.isEnd = true) (ks : List Kind) :
      Error.Concerns limit t (.located t.position (.unfinished ks))
  | tooDeep : Error.Concerns limit t (.located t.position (.tooDeep limit))

theorem Error.Concerns.refuse (limit : Int) (t : Token) (ks : List Kind) :
    Error.Concerns limit t (t.refuse ks) := by
  unfold Token.refuse
  split
  · next h => exact .unfinished h ks
  · next h => exact .unexpected (Bool.eq_false_iff.mpr h) ks

theorem firstToken_append_cons (us : List Token) (e : Token) (more : List Token) :
    firstToken (us ++ e :: more) = firstToken (us ++ [e]) := by
  cases us <;> rfl

namespace Rule

variable {limit : Int} {α β σ : Type} {us vs : List Token} {e t : Token}

/-! ## Outcomes in front of an end mark -/

/-- The outcomes of a run on the tokens `us`, the mark `e` and any more tokens.  It takes some of
`us`, one at least if the answer is `taken`, and leaves the others. -/
inductive StopsOn (limit : Int) (taken : α → Prop) (us : List Token) (e : Token)
    (o : List Token → EStateM.Result Error (List Token) α) : Prop
  | ok {a : α} {vs ws : List Token} (split : us = vs ++ ws) (moved : taken a → vs ≠ [])
      (run : ∀ more, o more = .ok a (ws ++ e :: more))
  | error {err : Error} {vs ws : List Token} (split : us = vs ++ ws)
      (concerns : err.Concerns limit (firstToken (ws ++ [e])))
      (run : ∀ more, o more = .error err (ws ++ e :: more))

variable {taken taken' : α → Prop} {o o' : List Token → EStateM.Result Error (List Token) α}

theorem StopsOn.congr (h : StopsOn limit taken us e o) (ho : ∀ more, o' more = o more) :
    StopsOn limit taken us e o' := by
  obtain rfl : o' = o := funext ho
  exact h

theorem StopsOn.mono (h : StopsOn limit taken us e o) (ht : ∀ a, taken' a → taken a) :
    StopsOn limit taken' us e o := by
  cases h with
  | ok split moved run => exact .ok split (fun ha => moved (ht _ ha)) run
  | error split concerns run => exact .error split concerns run

theorem StopsOn.map {o' : List Token → EStateM.Result Error (List Token) β}
    (h : StopsOn limit (fun _ => False) us e o) (f : α → β)
    (hok : ∀ more a rest, o more = .ok a rest → o' more = .ok (f a) rest)
    (herror : ∀ more err rest, o more = .error err rest → o' more = .error err rest) :
    StopsOn limit (fun _ => False) us e o' := by
  cases h with
  | ok split _ run => exact .ok split False.elim fun more => hok _ _ _ (run more)
  | error split concerns run => exact .error split concerns fun more => herror _ _ _ (run more)

/-- What stops behind some tokens that are taken stops in front of them. -/
theorem StopsOn.behind (h : StopsOn limit taken us e o)
    (ht : ∀ a, taken' a → taken a ∨ vs ≠ []) : StopsOn limit taken' (vs ++ us) e o := by
  cases h with
  | @ok a vs' ws split moved run =>
    have hsplit : vs ++ us = vs ++ vs' ++ ws := by rw [split, List.append_assoc]
    refine .ok hsplit (fun ha hnil => ?_) run
    obtain ⟨hvs, hvs'⟩ := List.append_eq_nil_iff.mp hnil
    exact (ht a ha).elim (fun h => moved h hvs') fun h => h hvs
  | @error err vs' ws split concerns run =>
    have hsplit : vs ++ us = vs ++ vs' ++ ws := by rw [split, List.append_assoc]
    exact .error hsplit concerns run

/-! ## Rules that stop -/

/-- The rule stops where the token `t` is ahead. -/
def StopsAt (limit : Int) (taken : α → Prop) (t : Token) (r : Rule α) : Prop :=
  ∀ us e, Open us → e.isEnd = true → firstToken (us ++ [e]) = t →
    StopsOn limit taken us e fun more => r (us ++ e :: more)

/-- The rule stops wherever it begins. -/
def Stops (limit : Int) (taken : α → Prop) (r : Rule α) : Prop :=
  ∀ t, StopsAt limit taken t r

/-- The rule stops, and may answer without taking a token. -/
abbrev Stays (limit : Int) (r : Rule α) : Prop :=
  Stops limit (fun _ => False) r

/-- The rule stops, and takes a token for each of its answers. -/
abbrev Moves (limit : Int) (r : Rule α) : Prop :=
  Stops limit (fun _ => True) r

/-- The rule stops, and takes a token where it gives something. -/
abbrev Proceeds (limit : Int) (r : Rule (Option α)) : Prop :=
  Stops limit (fun o => o.isSome = true) r

theorem Stops.on {r : Rule α} (h : Stops limit taken r) (hus : Open us) (he : e.isEnd = true) :
    StopsOn limit taken us e fun more => r (us ++ e :: more) :=
  h _ us e hus he rfl

/-- A rule that stops answers or fails, with the tokens it takes in front of those it leaves. -/
theorem Stops.outcome {r : Rule α} (h : Stops limit taken r) (hus : Open us)
    (he : e.isEnd = true) :
    (∃ a vs ws, us = vs ++ ws ∧ (taken a → vs ≠ []) ∧
      ∀ more, r (vs ++ (ws ++ e :: more)) = .ok a (ws ++ e :: more)) ∨
    ∃ err vs ws, us = vs ++ ws ∧ err.Concerns limit (firstToken (ws ++ [e])) ∧
      ∀ more, r (vs ++ (ws ++ e :: more)) = .error err (ws ++ e :: more) := by
  cases h.on hus he with
  | @ok a vs ws split moved run =>
    subst split
    refine Or.inl ⟨a, vs, ws, rfl, moved, fun more => ?_⟩
    rw [← List.append_assoc]
    exact run more
  | @error err vs ws split concerns run =>
    subst split
    refine Or.inr ⟨err, vs, ws, rfl, concerns, fun more => ?_⟩
    rw [← List.append_assoc]
    exact run more

theorem StopsAt.mono {r : Rule α} (h : StopsAt limit taken t r) (ht : ∀ a, taken' a → taken a) :
    StopsAt limit taken' t r :=
  fun us e hus he hfirst => (h us e hus he hfirst).mono ht

theorem Stops.mono {r : Rule α} (h : Stops limit taken r) (ht : ∀ a, taken' a → taken a) :
    Stops limit taken' r :=
  fun t => (h t).mono ht

/-- A rule that takes a token for each answer does so for those that need one. -/
theorem Moves.stops {r : Rule α} (h : Moves limit r) : Stops limit taken r :=
  h.mono fun _ _ => trivial

theorem Moves.proceeds {r : Rule (Option α)} (h : Moves limit r) : Proceeds limit r :=
  h.stops

/-- In front of a token that is no end mark, that token is the first of those to be taken. -/
theorem exists_cons_of_not_end (he : e.isEnd = true) (ht : t.isEnd = false)
    (h : firstToken (us ++ [e]) = t) : ∃ vs, us = t :: vs := by
  cases us with
  | nil =>
    obtain rfl : e = t := h
    rw [he] at ht
    cases ht
  | cons u vs =>
    obtain rfl : u = t := h
    exact ⟨vs, rfl⟩

/-! ## One rule after the other -/

section

variable {r : Rule α} {k : α → Rule β} {taken : β → Prop} {first : α → Prop}

/-- The second rule takes a token where the answer needs one, unless the first has. -/
theorem StopsAt.bind (hr : StopsAt limit first t r)
    (hk : ∀ a, Stops limit (fun b => taken b ∧ ¬ first a) (k a)) :
    StopsAt limit taken t (r >>= k) := by
  intro us e hus he hfirst
  cases hr us e hus he hfirst with
  | @ok a vs ws split moved run =>
    subst split
    have hrest := (hk a).on (open_append.mp hus).2 he
    have hneeds : ∀ b, taken b → (taken b ∧ ¬ first a) ∨ vs ≠ [] := by
      intro b hb
      by_cases ha : first a
      · exact Or.inr (moved ha)
      · exact Or.inl ⟨hb, ha⟩
    exact (hrest.behind hneeds).congr fun more => bind_of_ok (run more)
  | error split concerns run =>
    exact .error split concerns fun more => bind_of_error (run more)

theorem Stops.bind (hr : Stops limit first r)
    (hk : ∀ a, Stops limit (fun b => taken b ∧ ¬ first a) (k a)) : Stops limit taken (r >>= k) :=
  fun t => (hr t).bind hk

theorem StopsAt.then (hr : StopsAt limit (fun _ => True) t r) (hk : ∀ a, Stays limit (k a)) :
    StopsAt limit taken t (r >>= k) :=
  hr.bind fun a => (hk a).mono fun _ hb => hb.2 trivial

theorem Moves.then (hr : Moves limit r) (hk : ∀ a, Stays limit (k a)) :
    Stops limit taken (r >>= k) :=
  fun t => (hr t).then hk

/-- Behind a rule that may take no token the other one is asked for it. -/
theorem Stays.then (hr : Stays limit r) (hk : ∀ a, Stops limit taken (k a)) :
    Stops limit taken (r >>= k) :=
  hr.bind fun a => (hk a).mono fun _ hb => hb.1

theorem StopsAt.pure {a : α} {taken : α → Prop} (h : ¬ taken a) :
    StopsAt limit taken t (pure a) :=
  fun _ _ _ _ _ => .ok (List.nil_append _).symm (fun ha => absurd ha h) fun _ => rfl

theorem Stops.pure {a : α} {taken : α → Prop} (h : ¬ taken a) : Stops limit taken (pure a) :=
  fun _ => .pure h

theorem Moves.map (hr : Moves limit r) (f : α → β) :
    Stops limit taken (do return f (← r)) :=
  hr.then fun _ => .pure id

theorem StopsAt.ite {p : Prop} [Decidable p] {r' : Rule α} {taken : α → Prop}
    (h₁ : StopsAt limit taken t r) (h₂ : StopsAt limit taken t r') :
    StopsAt limit taken t (if p then r else r') := by
  split
  · exact h₁
  · exact h₂

theorem Stops.ite {p : Prop} [Decidable p] {r' : Rule α} {taken : α → Prop}
    (h₁ : Stops limit taken r) (h₂ : Stops limit taken r') :
    Stops limit taken (if p then r else r') :=
  fun t => (h₁ t).ite (h₂ t)

end

/-! ## Small rules -/

section

variable {k : Token → Rule α}

theorem Stops.here_then (h : ∀ t, StopsAt limit taken t (k t)) :
    Stops limit taken (here >>= k) := by
  intro t us e hus he hfirst
  refine (h t us e hus he hfirst).congr fun more => ?_
  show k (firstToken (us ++ e :: more)) (us ++ e :: more) = _
  rw [firstToken_append_cons, hfirst]

/-- A look at the token behind the one ahead.  It must change nothing at an end mark, behind which
anything may stand. -/
theorem StopsAt.next_then (hend : t.isEnd = true → ∀ u u', k u = k u')
    (h : ∀ u, StopsAt limit taken t (k u)) : StopsAt limit taken t (next >>= k) := by
  intro us e hus he hfirst
  cases us with
  | nil =>
    refine (h t [] e hus he hfirst).congr fun more => ?_
    show k (firstToken more) (e :: more) = _
    rw [hend (hfirst ▸ he) (firstToken more) t]
    rfl
  | cons u us =>
    refine (h (firstToken (us ++ [e])) _ e hus he hfirst).congr fun more => ?_
    show k (firstToken (us ++ e :: more)) (u :: us ++ e :: more) = _
    rw [firstToken_append_cons]

end

theorem StopsAt.skip (ht : t.isEnd = false) : StopsAt limit (fun _ => True) t skip := by
  intro us e hus he hfirst
  obtain ⟨vs, rfl⟩ := exists_cons_of_not_end he ht hfirst
  have hsplit : t :: vs = [t] ++ vs := rfl
  exact .ok hsplit (fun _ => List.cons_ne_nil t []) fun _ => rfl

theorem StopsAt.refuse (ks : List Kind) : StopsAt limit taken t (refuse ks : Rule α) := by
  intro us e _ _ _
  refine .error (List.nil_append _).symm (.refuse limit _ ks) fun more => ?_
  show EStateM.Result.error ((firstToken (us ++ e :: more)).refuse ks) _ = _
  rw [firstToken_append_cons]

theorem StopsAt.tooDeep : StopsAt limit taken t (tooDeep limit : Rule α) := by
  intro us e _ _ _
  refine .error (List.nil_append _).symm .tooDeep fun more => ?_
  show EStateM.Result.error (Error.located (firstToken (us ++ e :: more)).position _) _ = _
  rw [firstToken_append_cons]

/-- One token is read by a view that makes nothing of the end mark. -/
theorem Moves.accept {view : Token → Option α} (expected : List Kind)
    (hend : ∀ t a, view t = some a → t.kind ≠ .eof) : Moves limit (accept view expected) := by
  intro t us e hus he hfirst
  cases hv : view t with
  | none =>
    subst hfirst
    refine .error (List.nil_append _).symm (.refuse limit _ expected) fun more => ?_
    rw [accept_eq_error (by rw [firstToken_append_cons, hv]), firstToken_append_cons]
  | some a =>
    obtain ⟨vs, rfl⟩ := exists_cons_of_not_end he (beq_false_of_ne (hend t a hv)) hfirst
    have hsplit : t :: vs = [t] ++ vs := rfl
    exact .ok hsplit (fun _ => List.cons_ne_nil t []) fun more => accept_cons hv

theorem Moves.token {ks others : List Kind} (hend : Kind.eof ∉ ks) :
    Moves limit (token ks others) := by
  refine Moves.accept _ fun t u hu hk => ?_
  rw [hk, if_neg hend] at hu
  cases hu

theorem Moves.ident : Moves limit ident := by
  refine Moves.accept _ fun t u hu hk => ?_
  split at hu
  · next hc =>
    rw [Token.kind, hc] at hk
    cases hk
  · cases hu

theorem Stays.isHere (k : Kind) : Stays limit (isHere k) :=
  .here_then fun _ => .pure id

/-- A token that may be left out is taken where the answer tells so. -/
theorem Stops.skipIf {k : Kind} (hend : k ≠ .eof) : Stops limit (· = true) (skipIf k) := by
  show Stops limit _ (here >>= fun t => if t.kind == k then Rule.skip >>= fun _ => Pure.pure true
    else Pure.pure false)
  refine .here_then fun t => ?_
  by_cases hk : t.kind = k
  · rw [if_pos (beq_iff_eq.mpr hk)]
    have ht : t.isEnd = false := beq_false_of_ne (hk ▸ hend)
    exact (StopsAt.skip ht).then fun _ => .pure id
  · rw [if_neg (fun h => hk (eq_of_beq h))]
    exact .pure Bool.false_ne_true

theorem Stays.skipIf {k : Kind} (hend : k ≠ .eof) : Stays limit (Rule.skipIf k) :=
  (Stops.skipIf hend).mono fun _ => False.elim

/-! ## Repetition -/

/-- Steps that are repeated, more often than there are tokens in front of the mark. -/
theorem StopsOn.unfoldWithin {step : σ → Rule (Option (α × σ))}
    (h : ∀ s, Proceeds limit (step s)) (he : e.isEnd = true) (us : List Token) (hus : Open us)
    (s : σ) (count : List Token → Nat) (hcount : ∀ more, us.length < count more) :
    StopsOn limit (fun _ => False) us e
      fun more => unfoldWithin step (count more) s (us ++ e :: more) := by
  induction hn : us.length using Nat.strongRecOn generalizing us s count with
  | ind n ih =>
    have hcount' : ∀ more, ∃ m, count more = m + 1 := by
      intro more
      exact Nat.exists_eq_add_one_of_ne_zero (Nat.ne_zero_of_lt (hcount more))
    cases (h s).on hus he with
    | error split concerns run =>
      refine .error split concerns fun more => ?_
      obtain ⟨m, hm⟩ := hcount' more
      rw [hm, Rule.unfoldWithin, bind_of_error (run more)]
    | @ok a vs ws split moved run =>
      subst split
      cases a with
      | none =>
        refine .ok (a := []) rfl False.elim fun more => ?_
        obtain ⟨m, hm⟩ := hcount' more
        rw [hm, Rule.unfoldWithin, bind_of_ok (run more)]
        rfl
      | some p =>
        -- the step has taken a token, so there are fewer in front of the mark
        have hvs : 0 < vs.length := List.length_pos_iff.mpr (moved rfl)
        rw [List.length_append] at hn hcount
        have hrest := ih ws.length (by omega) ws (open_append.mp hus).2 p.2
          (fun more => count more - 1) (fun more => by have := hcount more; omega) rfl
        have hstep : ∀ more, Rule.unfoldWithin step (count more) s (vs ++ ws ++ e :: more) =
            (do return p.1 :: (← Rule.unfoldWithin step (count more - 1) p.2) : Rule (List α))
              (ws ++ e :: more) := by
          intro more
          obtain ⟨m, hm⟩ := hcount' more
          rw [hm, Rule.unfoldWithin, bind_of_ok (run more)]
          rfl
        refine (hrest.behind fun _ => False.elim).map (p.1 :: ·) (fun more as rest hr => ?_) ?_
        · rw [hstep, bind_of_ok hr]
          rfl
        · intro more err rest hr
          rw [hstep, bind_of_error hr]

/-- A rule that is repeated stops. -/
theorem Stays.unfold {step : σ → Rule (Option (α × σ))} (h : ∀ s, Proceeds limit (step s))
    (s : σ) : Stays limit (unfold step s) := by
  intro t us e hus he _
  refine StopsOn.unfoldWithin h he us hus s (fun more => (us ++ e :: more).length + 1) ?_
  intro more
  rw [List.length_append]
  omega

/-- A rule goes on giving something where what it gives is made into something else. -/
theorem Proceeds.map {r : Rule (Option α)} (h : Proceeds limit r) (f : α → β) :
    Proceeds limit (do return (← r).map f) := by
  refine Stops.bind h fun o => .pure ?_
  rintro ⟨hmap, ho⟩
  exact ho (by rwa [Option.isSome_map] at hmap)

theorem Stays.collect {step : Rule (Option α)} (h : Proceeds limit step) :
    Stays limit (collect step) :=
  Stays.unfold (fun _ => h.map _) ()

end Rule

end ScriptReader
