import ScriptReader.Grammar.Rule

/-!
# Runs of rules that succeed

A run of a rule on a list of tokens answers or fails.  This file says what the small rules
of the grammar answer: a rule that moves on takes the token ahead, and the end mark is
never taken.  The larger rules are read with `bind_ok`, one small rule after the other.

A repeated rule makes as many steps as give something.  `Repeats` is that run, step after
step, and `unfold_ok` says that the repetition follows it: a step that gives something
takes a token, so the bound on the number of steps is never met.

Main statements:

* `Rule.token_ok`: a token of some kinds is read exactly where it stands;
* `Rule.unfold_ok`, `Rule.collect_ok`: what a repeated rule answers.
-/

namespace ScriptReader

namespace Rule

/-! ## One rule after the other -/

theorem bind_of_ok {α β : Type} {r : Rule α} {f : α → Rule β} {a : α} {ts mid : List Token}
    (h : r ts = .ok a mid) : (r >>= f) ts = f a mid := by
  show EStateM.bind r f ts = _
  unfold EStateM.bind
  rw [h]

theorem bind_of_error {α β : Type} {r : Rule α} {f : α → Rule β} {e : Error}
    {ts rest : List Token} (h : r ts = .error e rest) : (r >>= f) ts = .error e rest := by
  show EStateM.bind r f ts = _
  unfold EStateM.bind
  rw [h]

theorem bind_ok {α β : Type} {r : Rule α} {f : α → Rule β} {ts rest : List Token} {b : β} :
    (r >>= f) ts = .ok b rest ↔ ∃ a mid, r ts = .ok a mid ∧ f a mid = .ok b rest := by
  show EStateM.bind r f ts = .ok b rest ↔ _
  unfold EStateM.bind
  cases h : r ts with
  | ok a mid =>
    constructor
    · intro hf
      exact ⟨a, mid, rfl, hf⟩
    · rintro ⟨a', mid', he, hf⟩
      cases he
      exact hf
  | error e mid =>
    constructor
    · intro hf
      cases hf
    · rintro ⟨a', mid', he, -⟩
      cases he

theorem pure_ok {α : Type} {a b : α} {ts rest : List Token} :
    (pure a : Rule α) ts = .ok b rest ↔ a = b ∧ ts = rest := by
  show EStateM.Result.ok a ts = .ok b rest ↔ _
  rw [EStateM.Result.ok.injEq]

theorem map_ok {α β : Type} {r : Rule α} {g : α → β} {ts rest : List Token} {b : β} :
    (do return g (← r) : Rule β) ts = .ok b rest ↔ ∃ a, r ts = .ok a rest ∧ g a = b := by
  rw [bind_ok]
  constructor
  · rintro ⟨a, mid, ha, hb⟩
    obtain ⟨rfl, rfl⟩ := pure_ok.mp hb
    exact ⟨a, ha, rfl⟩
  · rintro ⟨a, ha, rfl⟩
    exact ⟨a, rest, ha, pure_ok.mpr ⟨rfl, rfl⟩⟩

/-! ## Looking ahead -/

theorem here_ok {t : Token} {ts rest : List Token} :
    here ts = .ok t rest ↔ firstToken ts = t ∧ ts = rest := by
  show EStateM.Result.ok (firstToken ts) ts = .ok t rest ↔ _
  rw [EStateM.Result.ok.injEq]

theorem next_ok {t : Token} {ts rest : List Token} :
    next ts = .ok t rest ↔ firstToken ts.tail = t ∧ ts = rest := by
  show EStateM.Result.ok (firstToken ts.tail) ts = .ok t rest ↔ _
  rw [EStateM.Result.ok.injEq]

theorem isHere_ok {k : Kind} {b : Bool} {ts rest : List Token} :
    isHere k ts = .ok b rest ↔ ((firstToken ts).kind == k) = b ∧ ts = rest := by
  show EStateM.Result.ok ((firstToken ts).kind == k) ts = .ok b rest ↔ _
  rw [EStateM.Result.ok.injEq]

theorem exists_cons_of_firstToken {ts : List Token} (h : (firstToken ts).kind ≠ .eof) :
    ∃ t rest, ts = t :: rest ∧ firstToken ts = t := by
  cases ts with
  | nil => exact absurd rfl h
  | cons t rest => exact ⟨t, rest, rfl, rfl⟩

/-! ## Moving on -/

/-- A rule that makes nothing of the end mark reads the token that stands ahead. -/
theorem accept_ok {α : Type} {view : Token → Option α} {expected : List Kind} {a : α}
    {ts rest : List Token} (hend : view (.endAt .start) = none) :
    accept view expected ts = .ok a rest ↔ ∃ t, ts = t :: rest ∧ view t = some a := by
  unfold accept
  cases ts with
  | nil =>
    simp only [firstToken, hend]
    constructor
    · intro h
      cases h
    · rintro ⟨t, ht, -⟩
      cases ht
  | cons t ts =>
    simp only [firstToken]
    cases hv : view t with
    | none =>
      constructor
      · intro h
        cases h
      · rintro ⟨t', ht, hv'⟩
        cases ht
        rw [hv] at hv'
        cases hv'
    | some a' =>
      constructor
      · intro h
        cases h
        exact ⟨t, rfl, hv⟩
      · rintro ⟨t', ht, hv'⟩
        cases ht
        rw [hv] at hv'
        cases hv'
        rfl

/-- A token of some kinds is read where one stands. -/
theorem token_ok {ks others : List Kind} {t : Token} {ts rest : List Token}
    (hend : Kind.eof ∉ ks) :
    token ks others ts = .ok t rest ↔ ts = t :: rest ∧ t.kind ∈ ks := by
  unfold token
  rw [accept_ok (by rw [Token.kind_endAt, if_neg hend])]
  constructor
  · rintro ⟨u, rfl, hu⟩
    split at hu
    · next hk =>
      cases hu
      exact ⟨rfl, hk⟩
    · cases hu
  · rintro ⟨rfl, hk⟩
    exact ⟨t, rfl, if_pos hk⟩

theorem token_one_ok {k : Kind} {others : List Kind} {t : Token} {ts rest : List Token}
    (hend : k ≠ .eof) :
    token [k] others ts = .ok t rest ↔ ts = t :: rest ∧ t.kind = k := by
  rw [token_ok (by simpa using hend.symm), List.mem_singleton]

theorem ident_ok {t : Token} {s : String} {ts rest : List Token} :
    ident ts = .ok (t, s) rest ↔ ts = t :: rest ∧ t.content = .ident s := by
  unfold ident
  rw [accept_ok rfl]
  constructor
  · rintro ⟨u, rfl, hu⟩
    split at hu
    · next hc =>
      cases hu
      exact ⟨rfl, hc⟩
    · cases hu
  · rintro ⟨rfl, hc⟩
    exact ⟨t, rfl, by simp [hc]⟩

/-- A token of the kind `k` is moved over where one stands, and nothing else is. -/
theorem skipIf_ok {k : Kind} {b : Bool} {ts rest : List Token} (hend : k ≠ .eof) :
    skipIf k ts = .ok b rest ↔
      (b = true ∧ ∃ t, ts = t :: rest ∧ t.kind = k) ∨
        (b = false ∧ ts = rest ∧ (firstToken ts).kind ≠ k) := by
  unfold skipIf
  rw [bind_ok]
  constructor
  · rintro ⟨c, mid, hc, hm⟩
    obtain ⟨rfl, rfl⟩ := isHere_ok.mp hc
    split at hm
    · next hk =>
      have hk' : (firstToken ts).kind = k := by simpa using hk
      obtain ⟨t, ts', rfl, ht⟩ := exists_cons_of_firstToken (by rw [hk']; exact hend)
      cases hm
      exact Or.inl ⟨rfl, t, rfl, by rw [← ht]; exact hk'⟩
    · next hk =>
      cases hm
      exact Or.inr ⟨rfl, rfl, by simpa using hk⟩
  · rintro (⟨rfl, t, rfl, ht⟩ | ⟨rfl, rfl, ht⟩)
    · exact ⟨true, _, isHere_ok.mpr ⟨by simpa [firstToken] using ht, rfl⟩, rfl⟩
    · exact ⟨false, _, isHere_ok.mpr ⟨by simpa using ht, rfl⟩, rfl⟩

/-! ## Repetition -/

section

variable {σ α : Type}

/-- The steps from a state on give the values `as` and leave `rest`. -/
inductive Repeats (step : σ → Rule (Option (α × σ))) :
    σ → List Token → List α → List Token → Prop
  | done {s : σ} {ts rest : List Token} (h : step s ts = .ok none rest) :
      Repeats step s ts [] rest
  | more {s s' : σ} {a : α} {as : List α} {ts mid rest : List Token}
      (h : step s ts = .ok (some (a, s')) mid) (later : Repeats step s' mid as rest) :
      Repeats step s ts (a :: as) rest

/-- A step that gives something takes a token. -/
def Takes (step : σ → Rule (Option (α × σ))) : Prop :=
  ∀ s ts a s' rest, step s ts = .ok (some (a, s')) rest → rest.length < ts.length

variable {step : σ → Rule (Option (α × σ))}

theorem unfoldWithin_ok (ht : Takes step) :
    ∀ (count : Nat) (s : σ) (ts : List Token) (as : List α) (rest : List Token),
      ts.length < count → (unfoldWithin step count s ts = .ok as rest ↔
        Repeats step s ts as rest) := by
  intro count
  induction count with
  | zero => intro s ts as rest h; omega
  | succ count ih =>
    intro s ts as rest hc
    rw [unfoldWithin, bind_ok]
    constructor
    · rintro ⟨o, mid, hs, ho⟩
      cases o with
      | none =>
        obtain ⟨rfl, rfl⟩ := pure_ok.mp ho
        exact .done hs
      | some p =>
        obtain ⟨a, s'⟩ := p
        obtain ⟨as', hr, rfl⟩ := map_ok.mp ho
        have hlt := ht _ _ _ _ _ hs
        exact .more hs ((ih s' mid as' rest (by omega)).mp hr)
    · intro h
      cases h with
      | done hs => exact ⟨none, rest, hs, pure_ok.mpr ⟨rfl, rfl⟩⟩
      | @more _ s' a as' _ mid _ hs later =>
        have hlt := ht _ _ _ _ _ hs
        have hr := (ih s' mid as' rest (by omega)).mpr later
        exact ⟨some (a, s'), mid, hs, map_ok.mpr ⟨as', hr, rfl⟩⟩

/-- A repeated rule gives what its steps give. -/
theorem unfold_ok (ht : Takes step) {s : σ} {ts rest : List Token} {as : List α} :
    unfold step s ts = .ok as rest ↔ Repeats step s ts as rest :=
  unfoldWithin_ok ht _ s ts as rest (Nat.lt_succ_self _)

end

/-- The steps of a rule that keeps no state. -/
inductive Collects {α : Type} (step : Rule (Option α)) :
    List Token → List α → List Token → Prop
  | done {ts rest : List Token} (h : step ts = .ok none rest) : Collects step ts [] rest
  | more {a : α} {as : List α} {ts mid rest : List Token} (h : step ts = .ok (some a) mid)
      (later : Collects step mid as rest) : Collects step ts (a :: as) rest

theorem stateless_ok {α : Type} {step : Rule (Option α)} {o : Option (α × Unit)}
    {ts rest : List Token} :
    (do return (← step).map (·, ()) : Rule (Option (α × Unit))) ts = .ok o rest ↔
      step ts = .ok (o.map (·.1)) rest := by
  rw [map_ok]
  constructor
  · rintro ⟨a, ha, rfl⟩
    rw [ha]
    cases a <;> rfl
  · intro h
    refine ⟨_, h, ?_⟩
    cases o <;> rfl

/-- A rule that is repeated without a state gives what its steps give. -/
theorem collect_ok {α : Type} {step : Rule (Option α)}
    (ht : ∀ ts a rest, step ts = .ok (some a) rest → rest.length < ts.length)
    {ts rest : List Token} {as : List α} :
    collect step ts = .ok as rest ↔ Collects step ts as rest := by
  unfold collect
  rw [unfold_ok (fun _ ts a _ rest h => ht ts a rest (stateless_ok.mp h))]
  constructor
  · intro h
    generalize () = u at h
    induction h with
    | done h => exact .done (stateless_ok.mp h)
    | more h _ ih => exact .more (stateless_ok.mp h) ih
  · intro h
    induction h with
    | done h => exact .done (stateless_ok.mpr h)
    | @more a as ts mid rest h _ ih =>
      have hs := stateless_ok (o := some (a, ())).mpr h
      exact .more hs ih

end Rule

end ScriptReader
