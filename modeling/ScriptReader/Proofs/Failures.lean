import ScriptReader.Proofs.Runs

/-!
# Runs of rules that fail

A rule that fails has read some tokens `us` and stands in front of others.  Either it asks for
tokens of some kinds and finds none of them, or the levels of nesting are used up.  `Fails` is
such a run, together with all that is known of it:

* what the rule does where other tokens follow `us`: if none of the kinds asked for is ahead it
  fails in the same way, and a lack of levels shows in the two tokens ahead;
* that each kind asked for may stand there: some tokens that begin with it complete what has
  been read to a whole, where the whole is what the text around the rule asks for;
* that something may follow where the levels are used up, and how many tokens were read before.

A rule that answers may look at the token ahead, and `Settles` says by which kinds of it the
answer is changed.  Two kinds of tokens leave more open than the rules behind them say: a name
may go on as a call, an element or a change, and a closed block as an `elif` or `else`.  These
are `overlooked`.

Failures of a composed rule come from its parts, by `Fails.bind_left`, `Fails.bind_right` and
`Fails.behind`; the small rules have a lemma each, and `unfold_fails` is the one for repetition.
-/

namespace ScriptReader

/-- The kinds that may carry on what ends in a token of some kind, although no rule behind it
asks for them. -/
def Kind.overlooked : Kind → List Kind
  | .ident => [.symbol .openParen, .symbol .openBracket] ++ updates
  | .symbol .closeBrace => [.keyword .elifWord, .keyword .elseWord]
  | _ => []

/-- The kinds that may carry on what ends some tokens. -/
def overlooked (us : List Token) : List Kind :=
  (us.getLast?.map (·.kind.overlooked)).getD []

@[simp] theorem overlooked_concat (us : List Token) (t : Token) :
    overlooked (us ++ [t]) = t.kind.overlooked := by
  simp [overlooked]

@[simp] theorem overlooked_singleton (t : Token) : overlooked [t] = t.kind.overlooked := rfl

theorem overlooked_append {us vs : List Token} (h : vs ≠ []) :
    overlooked (us ++ vs) = overlooked vs := by
  obtain ⟨ws, t, rfl⟩ := (List.eq_nil_or_concat vs).resolve_left h
  rw [List.concat_eq_append, ← List.append_assoc, overlooked_concat, overlooked_concat]

/-- What is overlooked behind the last of some tokens is overlooked behind all of them. -/
theorem overlooked_subset (us vs : List Token) {k : Kind} (h : k ∈ overlooked vs) :
    k ∈ overlooked (us ++ vs) := by
  have hne : vs ≠ [] := by
    rintro rfl
    cases h
  rwa [overlooked_append hne]

namespace Rule

/-! ## Tokens that are told apart -/

/-- Behind `us` the tokens `rest'` begin like `rest`, or with a kind that is neither known nor
overlooked. -/
def Resembles (known : Kind → Prop) (us rest rest' : List Token) : Prop :=
  (firstToken rest').kind = (firstToken rest).kind ∨
    ¬ known (firstToken rest').kind ∧ (firstToken rest').kind ∉ overlooked us

variable {known known' : Kind → Prop} {us us' rest rest' : List Token}

theorem Resembles.mono (h : Resembles known' us rest rest') (hk : ∀ k, known k → known' k) :
    Resembles known us rest rest' := by
  rcases h with h | ⟨h, ho⟩
  · exact Or.inl h
  · exact Or.inr ⟨fun hm => h (hk _ hm), ho⟩

theorem Resembles.of_append (h : Resembles known (us ++ us') rest rest') :
    Resembles known us' rest rest' := by
  rcases h with h | ⟨h, ho⟩
  · exact Or.inl h
  · exact Or.inr ⟨h, fun hm => ho (overlooked_subset us us' hm)⟩

theorem Resembles.of_cons {t : Token} (h : Resembles known (t :: us) rest rest') :
    Resembles known us rest rest' := by
  have h' : Resembles known ([t] ++ us) rest rest' := h
  exact h'.of_append

/-- Tokens that resemble others have no known kind ahead, if those have none. -/
theorem Resembles.not_known (h : Resembles known us rest rest')
    (hk : ¬ known (firstToken rest).kind) : ¬ known (firstToken rest').kind := by
  rcases h with h | ⟨h, -⟩
  · rwa [h]
  · exact h

theorem firstToken_eq_of_take {n : Nat} (h : rest'.take (n + 1) = rest.take (n + 1)) :
    firstToken rest' = firstToken rest := by
  cases rest with
  | nil =>
    rw [List.take_nil, List.take_eq_nil_iff] at h
    rw [h.resolve_left (Nat.succ_ne_zero n)]
  | cons t ts =>
    cases rest' with
    | nil => cases h
    | cons t' ts' =>
      rw [List.take_succ_cons, List.take_succ_cons] at h
      exact (List.cons.inj h).1

theorem Resembles.before (h : Resembles known' (us ++ us') rest rest')
    (hk : us' = [] → ∀ k, known k → known' k) :
    Resembles known us (us' ++ rest) (us' ++ rest') := by
  cases us' with
  | nil =>
    rw [List.append_nil] at h
    exact h.mono (hk rfl)
  | cons t us' => exact Or.inl rfl

theorem Resembles.before_of_take {n : Nat} (h : rest'.take (n + 1) = rest.take (n + 1)) :
    Resembles known us (us' ++ rest) (us' ++ rest') := by
  cases us' with
  | nil => exact Or.inl (by rw [List.nil_append, List.nil_append, firstToken_eq_of_take h])
  | cons t us' => exact Or.inl rfl

/-! ## Answers -/

section

variable {α β : Type} {r : Rule α} {f : α → Rule β} {a : α} {b : β}

/-- The rule reads `us` and answers `a` in front of `rest`, where no known kind is ahead; and so
it does in front of all tokens that are not told apart. -/
structure Settles (r : Rule α) (known : Kind → Prop) (us rest : List Token) (a : α) : Prop where
  /-- No known kind is ahead. -/
  stops : ¬ known (firstToken rest).kind
  /-- The answer does not change. -/
  answers : ∀ rest', Resembles known us rest rest' → r (us ++ rest') = .ok a rest'

theorem Settles.of_forall (h : ∀ rest', r (us ++ rest') = .ok a rest') :
    Settles r (fun _ => False) us rest a :=
  ⟨id, fun rest' _ => h rest'⟩

theorem bind_error {ts : List Token} {e : Error} :
    (r >>= f) ts = .error e rest ↔
      r ts = .error e rest ∨ ∃ a mid, r ts = .ok a mid ∧ f a mid = .error e rest := by
  show EStateM.bind r f ts = .error e rest ↔ _
  unfold EStateM.bind
  cases h : r ts with
  | ok a mid =>
    constructor
    · intro hf
      exact Or.inr ⟨a, mid, rfl, hf⟩
    · rintro (he | ⟨a', mid', he, hf⟩)
      · cases he
      · cases he
        exact hf
  | error e' mid =>
    constructor
    · intro hf
      cases hf
      exact Or.inl rfl
    · rintro (he | ⟨a', mid', he, -⟩)
      · cases he
        rfl
      · cases he

theorem map_error {g : α → β} {ts : List Token} {e : Error} :
    (do return g (← r) : Rule β) ts = .error e rest ↔ r ts = .error e rest := by
  rw [bind_error, or_iff_left]
  rintro ⟨a, mid, -, h⟩
  cases h

theorem Settles.bind (hr : Settles r known us (us' ++ rest) a)
    (hf : Settles (f a) known' us' rest b) (hk : us' = [] → ∀ k, known k → known' k) :
    Settles (r >>= f) known' (us ++ us') rest b where
  stops := hf.stops
  answers rest' h := by
    rw [List.append_assoc, bind_of_ok (hr.answers _ (h.before hk))]
    exact hf.answers rest' h.of_append

end

/-! ## Failures -/

/-- Some token of the kind `k` begins a whole. -/
def Admits (whole : List Token → Prop) (k : Kind) : Prop :=
  ∃ t vs, t.kind = k ∧ whole (t :: vs)

variable {α β : Type} {whole : List Token → Prop} {limit : Int} {n n' : Nat}
variable {opens opens' ks : List Kind} {ts : List Token} {err : Error}

/-- Behind `us` the rule asks for tokens of the kinds `ks`, and finds none of them. -/
structure Asks (r : Rule α) (whole : List Token → Prop) (opens : List Kind)
    (us rest : List Token) (ks : List Kind) : Prop where
  /-- None of the kinds is ahead. -/
  stops : (firstToken rest).kind ∉ ks
  /-- The rule asks for the same kinds wherever none of them is ahead. -/
  refuses : ∀ rest', Resembles (· ∈ ks) us rest rest' →
    r (us ++ rest') = .error ((firstToken rest').refuse ks) rest'
  /-- There is something to ask for. -/
  nonempty : ks ≠ []
  /-- Each of the kinds may follow. -/
  admits : ∀ k ∈ ks, Admits (fun vs => whole (us ++ vs)) k
  /-- Where nothing has been read, the rule asks for what opens its phrases. -/
  atStart : us = [] → ks = opens

/-- Behind `us` the rule, with `n` levels left, needs one more. -/
structure Overflows (r : Rule α) (limit : Int) (whole : List Token → Prop) (n : Nat)
    (us rest : List Token) : Prop where
  /-- Each level has taken a token. -/
  levels : n ≤ us.length
  /-- Some kind may follow. -/
  admits : ∃ k, Admits (fun vs => whole (us ++ vs)) k
  /-- The levels are used up wherever the same two tokens are ahead. -/
  exceeds : ∀ rest', rest'.take 2 = rest.take 2 →
    r (us ++ rest') = .error (.located (firstToken rest').position (.tooDeep limit)) rest'

/-- A run of a rule that fails. -/
inductive Fails (limit : Int) (r : Rule α) (whole : List Token → Prop) (opens : List Kind)
    (n : Nat) : List Token → Error → List Token → Prop
  | asks {us rest : List Token} {ks : List Kind} (h : Asks r whole opens us rest ks) :
      Fails limit r whole opens n (us ++ rest) ((firstToken rest).refuse ks) rest
  | overflows {us rest : List Token} (h : Overflows r limit whole n us rest) :
      Fails limit r whole opens n (us ++ rest)
        (.located (firstToken rest).position (.tooDeep limit)) rest

variable {r : Rule α} {r' : Rule β} {f : α → Rule β} {a : α}

/-- A rule fails where another one does, if it fails there on all tokens that begin alike. -/
theorem Fails.congr (h : Fails limit r whole opens n ts err rest)
    (hr : ∀ ts', opens ≠ [] ∧ (firstToken ts').kind ∉ opens ∨ firstToken ts' = firstToken ts →
      ∀ e rest', r ts' = .error e rest' → r' ts' = .error e rest') :
    Fails limit r' whole opens n ts err rest := by
  cases h with
  | @asks us rest ks h =>
    refine .asks ⟨h.stops, fun rest' hr' => hr _ ?_ _ _ (h.refuses rest' hr'), h.nonempty,
      h.admits, h.atStart⟩
    cases us with
    | nil =>
      obtain rfl := h.atStart rfl
      exact Or.inl ⟨h.nonempty, hr'.not_known h.stops⟩
    | cons t us => exact Or.inr rfl
  | @overflows us rest h =>
    refine .overflows ⟨h.levels, h.admits, fun rest' hr' => ?_⟩
    refine hr _ (Or.inr ?_) _ _ (h.exceeds rest' hr')
    cases us with
    | nil => exact firstToken_eq_of_take hr'
    | cons t us => rfl

/-- The same, where one of the tokens that open the rule is ahead.  Then that token is always
ahead, and behind it stands one of the same kind, or none that is overlooked. -/
theorem Fails.congr_opened (h : Fails limit r whole opens n ts err rest)
    (hk : (firstToken ts).kind ∈ opens)
    (hr : ∀ ts', firstToken ts' = firstToken ts →
      ((firstToken ts'.tail).kind = (firstToken ts.tail).kind ∨
        (firstToken ts'.tail).kind ∉ (firstToken ts).kind.overlooked) →
      ∀ e rest', r ts' = .error e rest' → r' ts' = .error e rest') :
    Fails limit r' whole opens' n ts err rest := by
  cases h with
  | @asks us rest ks h =>
    cases us with
    | nil => exact absurd (h.atStart rfl ▸ hk) h.stops
    | cons t us =>
      refine .asks ⟨h.stops, fun rest' hr' => ?_, h.nonempty, h.admits, nofun⟩
      refine hr (t :: us ++ rest') rfl ?_ _ _ (h.refuses rest' hr')
      cases us with
      | nil => exact hr'.imp id And.right
      | cons u us => exact Or.inl rfl
  | @overflows us rest h =>
    refine .overflows ⟨h.levels, h.admits, fun rest' hr' => ?_⟩
    have hfirst := firstToken_eq_of_take hr'
    have hsecond : firstToken rest'.tail = firstToken rest.tail := by
      have htail : rest'.tail.take 1 = rest.tail.take 1 := by
        have hdrop := congrArg (List.drop 1) hr'
        rwa [List.drop_take, List.drop_take, List.drop_one, List.drop_one] at hdrop
      exact firstToken_eq_of_take htail
    refine hr (us ++ rest') ?_ (Or.inl ?_) _ _ (h.exceeds rest' hr')
    · cases us with
      | nil => exact hfirst
      | cons t us => rfl
    · match us with
      | [] => exact congrArg Token.kind hsecond
      | [t] => exact congrArg Token.kind hfirst
      | t :: u :: us => rfl

/-- What fails in its first part fails. -/
theorem Fails.bind_left (h : Fails limit r whole opens n ts err rest) :
    Fails limit (r >>= f) whole opens n ts err rest :=
  h.congr fun _ _ _ _ he => bind_error.mpr (Or.inl he)

/-- A rule fails behind tokens that it reads, if another rule fails there and if it goes on
like that other rule, which asks for all that is known. -/
theorem Fails.after (h : Fails limit r' (fun vs => whole (us ++ vs)) opens' n' ts err rest)
    (hr : ∀ ts', Resembles known us ts ts' →
      ∀ e rest', r' ts' = .error e rest' → r (us ++ ts') = .error e rest')
    (hk : opens' ≠ [] → ∀ k, known k → k ∈ opens') (ho : us = [] → opens = opens')
    (hn : n ≤ n' + us.length) : Fails limit r whole opens n (us ++ ts) err rest := by
  cases h with
  | @asks us' rest ks h =>
    rw [← List.append_assoc]
    refine .asks ⟨h.stops, ?_, h.nonempty, ?_, ?_⟩
    · intro rest' hr'
      have hk' : us' = [] → ∀ k, known k → k ∈ ks := by
        rintro rfl
        obtain rfl := h.atStart rfl
        exact hk h.nonempty
      rw [List.append_assoc]
      exact hr _ (hr'.before hk') _ _ (h.refuses rest' hr'.of_append)
    · intro k hm
      simpa only [List.append_assoc] using h.admits k hm
    · intro hnil
      obtain ⟨rfl, rfl⟩ := List.append_eq_nil_iff.mp hnil
      rw [h.atStart rfl, ho rfl]
  | @overflows us' rest h =>
    have hlevels := h.levels
    rw [← List.append_assoc]
    refine .overflows ⟨by rw [List.length_append]; omega, ?_, ?_⟩
    · simpa only [List.append_assoc] using h.admits
    · intro rest' hr'
      rw [List.append_assoc]
      exact hr _ (.before_of_take hr') _ _ (h.exceeds rest' hr')

/-- What fails in its second part fails, if the first part asks for no more than the second. -/
theorem Fails.bind_right (hr : Settles r known us ts a)
    (hf : Fails limit (f a) (fun vs => whole (us ++ vs)) opens' n' ts err rest)
    (hk : opens' ≠ [] → ∀ k, known k → k ∈ opens') (ho : us = [] → opens = opens')
    (hn : n ≤ n' + us.length) : Fails limit (r >>= f) whole opens n (us ++ ts) err rest := by
  refine hf.after ?_ hk ho hn
  intro ts' hts e rest' he
  rw [bind_of_ok (hr.answers ts' hts)]
  exact he

theorem Fails.bind_settled (hr : Settles r (fun _ => False) us ts a) (hus : us ≠ [])
    (hf : Fails limit (f a) (fun vs => whole (us ++ vs)) opens' n' ts err rest)
    (hn : n ≤ n' + us.length) : Fails limit (r >>= f) whole opens n (us ++ ts) err rest :=
  .bind_right hr hf (fun _ _ => False.elim) (fun hnil => absurd hnil hus) hn

/-- What fails behind some tokens that are always read fails. -/
theorem Fails.behind (hus : us ≠ [])
    (h : Fails limit r' (fun vs => whole (us ++ vs)) opens' n' ts err rest)
    (hr : ∀ ts' e rest', r' ts' = .error e rest' → r (us ++ ts') = .error e rest')
    (hn : n ≤ n' + us.length) : Fails limit r whole opens n (us ++ ts) err rest := by
  have hr' : ∀ ts', Resembles (fun _ => False) us ts ts' →
      ∀ e rest', r' ts' = .error e rest' → r (us ++ ts') = .error e rest' := fun ts' _ => hr ts'
  exact h.after hr' (fun _ _ => False.elim) (fun hnil => absurd hnil hus) hn

theorem Fails.behind_cons {t : Token}
    (h : Fails limit r' (fun vs => whole (t :: vs)) opens' n' ts err rest)
    (hr : ∀ ts' e rest', r' ts' = .error e rest' → r (t :: ts') = .error e rest')
    (hn : n ≤ n' + 1) : Fails limit r whole opens n (t :: ts) err rest :=
  Fails.behind (List.cons_ne_nil t []) h hr hn

theorem Fails.at_start (hends : (firstToken ts).kind ∉ opens) (hne : opens ≠ [])
    (hadmits : ∀ k ∈ opens, Admits whole k)
    (hr : ∀ ts', (firstToken ts').kind ∉ opens →
      r ts' = .error ((firstToken ts').refuse opens) ts') :
    Fails limit r whole opens n ts ((firstToken ts).refuse opens) ts := by
  have h : Asks r whole opens [] ts opens :=
    ⟨hends, fun ts' hts => hr ts' (hts.not_known hends), hne, hadmits, fun _ => rfl⟩
  exact .asks h

theorem Fails.at_limit {k : Kind} (hadmits : Admits whole k)
    (hr : ∀ ts', ts'.take 2 = ts.take 2 →
      r ts' = .error (.located (firstToken ts').position (.tooDeep limit)) ts') :
    Fails limit r whole opens 0 ts (.located (firstToken ts).position (.tooDeep limit)) ts := by
  have h : Overflows r limit whole 0 [] ts := ⟨Nat.zero_le _, ⟨k, hadmits⟩, hr⟩
  exact .overflows h

/-! ## The small rules -/

theorem refuse_fails (hne : ks ≠ []) (hends : (firstToken ts).kind ∉ ks)
    (hadmits : ∀ k ∈ ks, Admits whole k) (h : (refuse ks : Rule α) ts = .error err rest) :
    Fails limit (refuse ks : Rule α) whole ks n ts err rest := by
  cases h
  exact .at_start hends hne hadmits fun _ _ => rfl

/-- A token of the kinds `own` and a rule behind it: the one is asked for, unless it is there
and the rule fails.  No token of the kinds `others` is ahead. -/
theorem accept_then {view : Token → Option α} {expected : List Kind} (own others : List Kind)
    (hks : expected = own ++ others) (hview : ∀ t, t.kind ∈ own ↔ (view t).isSome = true)
    (hne : own ≠ []) (hend : Kind.eof ∉ own) (hends : (firstToken ts).kind ∉ others)
    (hadmits : ∀ k ∈ own ++ others, Admits whole k) (hn : n ≤ n' + 1)
    (h : (accept view expected >>= f) ts = .error err rest)
    (hf : ∀ t a ts', ts = t :: ts' → view t = some a → f a ts' = .error err rest →
      ∃ opens', Fails limit (f a) (fun vs => whole (t :: vs)) opens' n' ts' err rest) :
    Fails limit (accept view expected >>= f) whole expected n ts err rest := by
  subst hks
  have hnone : ∀ t : Token, t.kind ∉ own → view t = none := by
    intro t ht
    rwa [← Option.not_isSome_iff_eq_none, ← hview]
  rcases bind_error.mp h with h | ⟨a, mid, ha, hfa⟩
  · have hstops : (firstToken ts).kind ∉ own := by
      intro hm
      obtain ⟨a, ha⟩ := Option.isSome_iff_exists.mp ((hview _).mp hm)
      simp [accept, ha] at h
    rw [accept_eq_error (hnone _ hstops)] at h
    cases h
    have hstops' : (firstToken rest).kind ∉ own ++ others := by
      simp [hstops, hends]
    refine .at_start hstops' (by simp [hne]) hadmits fun ts' hts => ?_
    exact bind_error.mpr (Or.inl (accept_eq_error (hnone _ fun hm =>
      hts (List.mem_append_left _ hm))))
  · obtain ⟨t, rfl, ht⟩ := (accept_ok (hnone _ hend)).mp ha
    obtain ⟨opens', hfails⟩ := hf t a mid rfl ht hfa
    refine .behind_cons hfails ?_ hn
    intro ts' e rest' he
    rw [bind_of_ok (accept_cons ht)]
    exact he

theorem tokens_then {ks others : List Kind} {f : Token → Rule β} (hne : ks ≠ [])
    (hend : Kind.eof ∉ ks) (hends : (firstToken ts).kind ∉ others)
    (hadmits : ∀ k ∈ ks ++ others, Admits whole k) (hn : n ≤ n' + 1)
    (h : (token ks others >>= f) ts = .error err rest)
    (hf : ∀ t ts', ts = t :: ts' → t.kind ∈ ks → f t ts' = .error err rest →
      ∃ opens', Fails limit (f t) (fun vs => whole (t :: vs)) opens' n' ts' err rest) :
    Fails limit (token ks others >>= f) whole (ks ++ others) n ts err rest := by
  refine accept_then ks others rfl ?_ hne hend hends hadmits hn h ?_
  · intro t
    split <;> simp [*]
  · intro t t' ts' hts ht hft
    split at ht
    · next hk =>
      cases ht
      exact hf t ts' hts hk hft
    · cases ht

theorem token_then {k : Kind} {f : Token → Rule β} (hend : k ≠ .eof) (hadmits : Admits whole k)
    (hn : n ≤ n' + 1) (h : (token [k] [] >>= f) ts = .error err rest)
    (hf : ∀ t ts', ts = t :: ts' → t.kind = k → f t ts' = .error err rest →
      ∃ opens', Fails limit (f t) (fun vs => whole (t :: vs)) opens' n' ts' err rest) :
    Fails limit (token [k] [] >>= f) whole [k] n ts err rest :=
  tokens_then (List.cons_ne_nil k []) (by simpa using hend.symm) List.not_mem_nil
    (List.forall_mem_singleton.mpr hadmits) hn h
    fun t ts' hts hk => hf t ts' hts (List.mem_singleton.mp hk)

theorem token_fails {k : Kind} {others : List Kind} (hend : k ≠ .eof)
    (hends : (firstToken ts).kind ∉ others) (hk : Admits whole k)
    (hothers : ∀ k' ∈ others, Admits whole k') (h : token [k] others ts = .error err rest) :
    Fails limit (token [k] others) whole (k :: others) n ts err rest := by
  have h' : (token [k] others >>= pure) ts = .error err rest := bind_error.mpr (Or.inl h)
  have hf : Fails limit (token [k] others >>= pure) whole ([k] ++ others) n ts err rest :=
    tokens_then (List.cons_ne_nil k []) (by simpa using hend.symm) hends
      (List.forall_mem_cons.mpr ⟨hk, hothers⟩) (Nat.le_succ n) h' fun t ts' _ _ h => by cases h
  rwa [bind_pure] at hf

theorem ident_then {f : Token × String → Rule β} (hadmits : Admits whole .ident) (hn : n ≤ n' + 1)
    (h : (ident >>= f) ts = .error err rest)
    (hf : ∀ t name ts', ts = t :: ts' → t.content = .ident name →
      f (t, name) ts' = .error err rest →
      ∃ opens', Fails limit (f (t, name)) (fun vs => whole (t :: vs)) opens' n' ts' err rest) :
    Fails limit (ident >>= f) whole [.ident] n ts err rest := by
  refine accept_then [.ident] [] rfl ?_ (List.cons_ne_nil _ _) (by decide) (List.not_mem_nil)
    (by simpa using hadmits) hn h ?_
  · intro t
    unfold Token.kind
    cases t.content <;> simp [Content.kind]
  · intro t a ts' hts ha hfa
    split at ha
    · next name hc =>
      cases ha
      exact hf t name ts' hts hc hfa
    · cases ha

theorem skipIf_ne_error {k : Kind} : skipIf k ts ≠ .error err rest := by
  unfold skipIf
  rw [bind_of_ok (isHere_ok.mpr ⟨rfl, rfl⟩)]
  split <;> exact nofun

theorem ident_fails (hadmits : Admits whole .ident) (h : ident ts = .error err rest) :
    Fails limit ident whole [.ident] n ts err rest := by
  have h' : (ident >>= pure) ts = .error err rest := bind_error.mpr (Or.inl h)
  have hf : Fails limit (ident >>= pure) whole [.ident] n ts err rest :=
    ident_then hadmits (Nat.le_succ n) h' fun t name ts' _ _ h => by cases h
  rwa [bind_pure] at hf

/-- A token that may be left out and a rule behind it.  Without the token the rule asks for it,
if it asks for anything where it begins. -/
theorem skipIf_then {k : Kind} {f : Bool → Rule β} (hend : k ≠ .eof)
    (hopens : opens ≠ [] → k ∈ opens) (h : (skipIf k >>= f) ts = .error err rest)
    (hyes : ∀ t ts', ts = t :: ts' → t.kind = k → f true ts' = .error err rest →
      ∃ opens', Fails limit (f true) (fun vs => whole (t :: vs)) opens' n ts' err rest)
    (hno : (firstToken ts).kind ≠ k → f false ts = .error err rest →
      Fails limit (f false) whole opens n ts err rest) :
    Fails limit (skipIf k >>= f) whole opens n ts err rest := by
  rcases bind_error.mp h with h | ⟨b, mid, hb, hfb⟩
  · exact absurd h skipIf_ne_error
  · rcases (skipIf_ok hend).mp hb with ⟨rfl, t, rfl, ht⟩ | ⟨rfl, rfl, ht⟩
    · obtain ⟨opens', hfails⟩ := hyes t mid rfl ht hfb
      refine .behind_cons hfails ?_ (Nat.le_add_right n 1)
      intro ts' e rest' he
      have hskip : skipIf k (t :: ts') = .ok true ts' :=
        (skipIf_ok hend).mpr (Or.inl ⟨rfl, t, rfl, ht⟩)
      rw [bind_of_ok hskip]
      exact he
    · have hs : Settles (skipIf k) (· = k) [] ts false :=
        ⟨ht, fun rest' hr => (skipIf_ok hend).mpr (Or.inr ⟨rfl, rfl, hr.not_known ht⟩)⟩
      refine .bind_right hs (hno ht hfb) ?_ (fun _ => rfl) (Nat.le_refl n)
      rintro hne k' rfl
      exact hopens hne

/-- A look at the token ahead and a rule behind it.  If the token is there, the rule asks for
no other token where it begins; if it is not there, the rule asks for it. -/
theorem isHere_then {k : Kind} {f : Bool → Rule β} (hopens : opens ≠ [] → k ∈ opens)
    (h : (isHere k >>= f) ts = .error err rest)
    (hyes : (firstToken ts).kind = k → f true ts = .error err rest →
      Fails limit (f true) whole [k] n ts err rest)
    (hno : (firstToken ts).kind ≠ k → f false ts = .error err rest →
      Fails limit (f false) whole opens n ts err rest) :
    Fails limit (isHere k >>= f) whole opens n ts err rest := by
  have hthere : ∀ ts', (firstToken ts').kind = k → (isHere k >>= f) ts' = f true ts' :=
    fun ts' hk => bind_of_ok (isHere_ok.mpr ⟨beq_iff_eq.mpr hk, rfl⟩)
  have helse : ∀ ts', (firstToken ts').kind ≠ k → (isHere k >>= f) ts' = f false ts' :=
    fun ts' hk => bind_of_ok (isHere_ok.mpr ⟨beq_eq_false_iff_ne.mpr hk, rfl⟩)
  by_cases hk : (firstToken ts).kind = k
  · rw [hthere ts hk] at h
    refine (hyes hk h).congr_opened (List.mem_singleton.mpr hk) ?_
    intro ts' hts _ e rest' he
    rwa [hthere ts' (by rw [hts, hk])]
  · rw [helse ts hk] at h
    refine (hno hk h).congr ?_
    intro ts' hts e rest' he
    rw [helse ts']
    · exact he
    · rcases hts with ⟨hne, hm⟩ | hts
      · exact fun hk' => hm (hk' ▸ hopens hne)
      · rwa [hts]

/-! ## Repetition -/

section

variable {σ : Type} {step : σ → Rule (Option (α × σ))}

theorem unfoldWithin_eq (ht : Takes step) :
    ∀ {c d : Nat} {s : σ} {ts : List Token}, ts.length < c → ts.length < d →
      unfoldWithin step c s ts = unfoldWithin step d s ts := by
  intro c
  induction c with
  | zero => intro d s ts hc _; omega
  | succ c ih =>
    intro d s ts hc hd
    cases d with
    | zero => omega
    | succ d =>
      rw [unfoldWithin, unfoldWithin]
      cases hs : step s ts with
      | error e mid => rw [bind_of_error hs, bind_of_error hs]
      | ok o mid =>
        rw [bind_of_ok hs, bind_of_ok hs]
        cases o with
        | none => rfl
        | some p =>
          obtain ⟨a, s'⟩ := p
          have hlt := ht _ _ _ _ _ hs
          have heq := ih (s := s') (show mid.length < c by omega) (show mid.length < d by omega)
          show EStateM.bind (unfoldWithin step c s') _ mid =
            EStateM.bind (unfoldWithin step d s') _ mid
          unfold EStateM.bind
          rw [heq]

theorem unfold_of_some (ht : Takes step) {s s' : σ} {a : α} {mid : List Token}
    (h : step s ts = .ok (some (a, s')) mid) :
    unfold step s ts = (do return a :: (← unfold step s') : Rule (List α)) mid := by
  have hlt := ht _ _ _ _ _ h
  show unfoldWithin step (ts.length + 1) s ts = _
  rw [unfoldWithin, bind_of_ok h]
  show EStateM.bind (unfoldWithin step ts.length s') _ mid = EStateM.bind (unfold step s') _ mid
  unfold EStateM.bind unfold
  rw [unfoldWithin_eq ht hlt (Nat.lt_succ_self _)]

theorem unfold_error (ht : Takes step) {s : σ} :
    unfold step s ts = .error err rest ↔ step s ts = .error err rest ∨
      ∃ a s' mid, step s ts = .ok (some (a, s')) mid ∧ unfold step s' mid = .error err rest := by
  cases hs : step s ts with
  | error e mid =>
    have hu : unfold step s ts = .error e mid := by
      show unfoldWithin step (ts.length + 1) s ts = _
      rw [unfoldWithin, bind_of_error hs]
    rw [hu]
    simp
  | ok o mid =>
    cases o with
    | none =>
      have hu : unfold step s ts = .ok [] mid := (unfold_ok ht).mpr (.done hs)
      rw [hu]
      simp
    | some p =>
      obtain ⟨a, s'⟩ := p
      rw [unfold_of_some ht hs, map_error]
      constructor
      · intro h
        exact Or.inr ⟨a, s', mid, rfl, h⟩
      · rintro (h | ⟨a', s'', mid', h, hu⟩)
        · cases h
        · cases h
          exact hu

/-- A repeated rule fails in one of its steps.  `Fits s whole ts` says what is known of the
state, of the whole and of the tokens ahead at each step. -/
theorem unfold_fails (ht : Takes step) (opens : σ → List Kind)
    (Fits : σ → (List Token → Prop) → List Token → Prop)
    (hfails : ∀ {s whole ts err rest}, Fits s whole ts → step s ts = .error err rest →
      Fails limit (step s) whole (opens s) n ts err rest)
    (hsettles : ∀ {s whole ts a s' rest}, Fits s whole ts → step s ts = .ok (some (a, s')) rest →
      ∃ us known, ts = us ++ rest ∧ us ≠ [] ∧ Settles (step s) known us rest (some (a, s')) ∧
        (∀ k, known k → k ∈ opens s') ∧ Fits s' (fun vs => whole (us ++ vs)) rest)
    {s : σ} (hfits : Fits s whole ts) (h : unfold step s ts = .error err rest) :
    Fails limit (unfold step s) whole (opens s) n ts err rest := by
  induction hl : ts.length using Nat.strongRecOn generalizing s whole ts with
  | ind l ih =>
    subst hl
    rcases (unfold_error ht).mp h with hs | ⟨a, s', mid, hs, hlater⟩
    · exact (hfails hfits hs).congr fun ts' _ e rest' he => (unfold_error ht).mpr (Or.inl he)
    · obtain ⟨us, known, rfl, hne, hsettle, hk, hfits'⟩ := hsettles hfits hs
      have hf := ih mid.length (ht _ _ _ _ _ hs) hfits' hlater rfl
      refine hf.after ?_ (fun _ => hk) (fun hnil => absurd hnil hne) (Nat.le_add_right _ _)
      intro ts' hts e rest' he
      exact (unfold_error ht).mpr (Or.inr ⟨a, s', ts', hsettle.answers ts' hts, he⟩)

end

theorem stateless_error {step : Rule (Option α)} :
    (do return (← step).map (·, ()) : Rule (Option (α × Unit))) ts = .error err rest ↔
      step ts = .error err rest :=
  map_error

/-- A rule that is repeated without a state fails in one of its steps. -/
theorem collect_fails {step : Rule (Option α)}
    (ht : ∀ ts a rest, step ts = .ok (some a) rest → rest.length < ts.length)
    (Fits : (List Token → Prop) → List Token → Prop)
    (hfails : ∀ {whole ts err rest}, Fits whole ts → step ts = .error err rest →
      Fails limit step whole opens n ts err rest)
    (hsettles : ∀ {whole ts a rest}, Fits whole ts → step ts = .ok (some a) rest →
      ∃ us known, ts = us ++ rest ∧ us ≠ [] ∧ Settles step known us rest (some a) ∧
        (∀ k, known k → k ∈ opens) ∧ Fits (fun vs => whole (us ++ vs)) rest)
    (hfits : Fits whole ts) (h : collect step ts = .error err rest) :
    Fails limit (collect step) whole opens n ts err rest := by
  have ht' : Takes fun _ : Unit => (do return (← step).map (·, ()) : Rule (Option (α × Unit))) :=
    fun _ ts a _ rest h => ht ts a rest (stateless_ok.mp h)
  refine unfold_fails ht' (fun _ => opens) (fun _ => Fits) ?_ ?_ hfits h
  · intro _ whole ts err rest hfits h
    exact (hfails hfits (stateless_error.mp h)).bind_left
  · intro _ whole ts a _ rest hfits h
    obtain ⟨us, known, rfl, hne, hs, hk, hfits'⟩ := hsettles hfits (stateless_ok.mp h)
    refine ⟨us, known, rfl, hne, ⟨hs.stops, ?_⟩, hk, hfits'⟩
    intro rest' hr
    exact stateless_ok.mpr (hs.answers rest' hr)

end Rule

end ScriptReader
