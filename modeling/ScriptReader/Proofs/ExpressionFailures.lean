import ScriptReader.Proofs.Completions
import ScriptReader.Proofs.Failures

/-!
# Expressions that cannot be read

Each rule for expressions fails in one of the ways of `Rule.Fails`, given that the rule for the
expressions inside does.  What may complete a phrase is asked of the text around the rule: a
hypothesis says of each phrase of the rule, in front of which tokens it begins a whole.

Main statement: `reports_expression`, the rule for expressions reports its failures.
-/

namespace ScriptReader.Grammar

open Rule Phrase

/-- A rule for expressions reports its failures.  Where it answers, the operators are the kinds
that would have changed the answer; where it fails, with `n` levels left, it fails in one of
the known ways. -/
structure Reports (limit : Int) (n : Nat) (rule : List Kind → Rule Expr) : Prop where
  /-- An answer. -/
  settles : ∀ {alternatives : List Kind} {ts rest : List Token} {e : Expr},
    rule alternatives ts = .ok e rest → ∃ us, ts = us ++ rest ∧ Expression us e ∧
      Settles (rule alternatives) (· ∈ Kind.binaries) us rest e
  /-- A failure. -/
  fails : ∀ {whole : List Token → Prop} {alternatives : List Kind} {ts rest : List Token}
    {err : Error}, (∀ us e, Expression us e → ∃ vs, whole (us ++ vs)) →
      (∀ k ∈ alternatives, Admits whole k) → (firstToken ts).kind ∉ alternatives →
        rule alternatives ts = .error err rest →
          Fails limit (rule alternatives) whole (Kind.atomStarts ++ alternatives) n ts err rest

variable {sub : (alternatives : List Kind) → Rule Expr} {Q : Expr → Prop} {limit : Int} {n : Nat}
variable {whole : List Token → Prop} {ts rest : List Token} {err : Error}

theorem admits_binaries {us : List Token} {e : Expr} (he : Expression us e)
    (hwhole : ∀ us e, Expression us e → ∃ vs, whole (us ++ vs)) :
    ∀ k ∈ Kind.binaries, Admits (fun vs => whole (us ++ vs)) k := by
  intro k hk
  obtain ⟨vs, e', he'⟩ := he.exists_longer hk
  obtain ⟨ws, hws⟩ := hwhole _ _ he'
  exact .of_sample ⟨vs ++ ws, by simpa using hws⟩

/-- An expression and a rule behind it, which asks for an operator too if it fails where it
begins. -/
theorem Reports.bind (hsub : Reports limit n sub) {β : Type} {alternatives : List Kind}
    {f : Expr → Rule β} (hwhole : ∀ us e, Expression us e → ∃ vs, whole (us ++ vs))
    (halt : ∀ k ∈ alternatives, Admits whole k) (hends : (firstToken ts).kind ∉ alternatives)
    (h : (sub alternatives >>= f) ts = .error err rest)
    (hf : ∀ us e mid, ts = us ++ mid → Expression us e → (firstToken mid).kind ∉ Kind.binaries →
      (∀ k ∈ Kind.binaries, Admits (fun vs => whole (us ++ vs)) k) → f e mid = .error err rest →
      ∃ opens', Fails limit (f e) (fun vs => whole (us ++ vs)) opens' n mid err rest ∧
        (opens' ≠ [] → ∀ k ∈ Kind.binaries, k ∈ opens')) :
    Fails limit (sub alternatives >>= f) whole (Kind.atomStarts ++ alternatives) n ts err rest := by
  rcases bind_error.mp h with he | ⟨e, mid, he, hfe⟩
  · exact (hsub.fails hwhole halt hends he).bind_left
  · obtain ⟨us, rfl, hus, hs⟩ := hsub.settles he
    obtain ⟨opens', hfails, hopens⟩ := hf us e mid rfl hus hs.stops (admits_binaries hus hwhole) hfe
    obtain ⟨t, vs, rfl, -⟩ := hus.opens
    exact .bind_right hs hfails hopens nofun (Nat.le_add_right n _)

theorem Reports.closed (hsub : Reports limit n sub) {β : Type} {k : Kind} {g : Expr → β}
    (hend : k ≠ .eof)
    (hwhole : ∀ us e, Expression us e → ∀ r, r.kind = k → ∃ vs, whole (us ++ r :: vs))
    (h : (do let e ← sub []; let _ ← token [k] Kind.binaries; return g e : Rule β) ts =
      .error err rest) :
    Fails limit (do let e ← sub []; let _ ← token [k] Kind.binaries; return g e : Rule β) whole
      Kind.atomStarts n ts err rest := by
  have hexpr : ∀ us e, Expression us e → ∃ vs, whole (us ++ vs) := by
    intro us e he
    obtain ⟨vs, hvs⟩ := hwhole us e he _ k.kind_sample
    exact ⟨_, hvs⟩
  have hf := hsub.bind hexpr (List.forall_mem_nil _) List.not_mem_nil h ?_
  · rwa [List.append_nil] at hf
  · intro us e mid _ he hends hadmits htoken
    have hclose := hwhole us e he _ k.kind_sample
    exact ⟨_, (token_fails hend hends (.of_sample hclose) hadmits (map_error.mp htoken)).bind_left,
      fun _ k hk => List.mem_cons_of_mem _ hk⟩

/-- An expression, with a look at its first token, and a rule behind it. -/
theorem Reports.here_bind (hsub : Reports limit n sub) {β : Type} {alternatives : List Kind}
    {f : Token → Expr → Rule β} (hwhole : ∀ us e, Expression us e → ∃ vs, whole (us ++ vs))
    (halt : ∀ k ∈ alternatives, Admits whole k) (hends : (firstToken ts).kind ∉ alternatives)
    (h : (do let t ← here; let e ← sub alternatives; f t e : Rule β) ts = .error err rest)
    (hf : ∀ us e mid, ts = us ++ mid → Expression us e → (firstToken mid).kind ∉ Kind.binaries →
      (∀ k ∈ Kind.binaries, Admits (fun vs => whole (us ++ vs)) k) →
      f (firstToken ts) e mid = .error err rest →
      ∃ opens', Fails limit (f (firstToken ts) e) (fun vs => whole (us ++ vs)) opens' n mid err
        rest ∧ (opens' ≠ [] → ∀ k ∈ Kind.binaries, k ∈ opens')) :
    Fails limit (do let t ← here; let e ← sub alternatives; f t e : Rule β) whole
      (Kind.atomStarts ++ alternatives) n ts err rest := by
  have h' : (sub alternatives >>= f (firstToken ts)) ts = .error err rest := h
  refine (hsub.bind hwhole halt hends h' hf).congr ?_
  intro ts' hts e rest' he
  show (sub alternatives >>= f (firstToken ts')) ts' = .error e rest'
  rcases hts with ⟨-, hk⟩ | hts
  · -- no expression begins with the token ahead
    rcases bind_error.mp he with he | ⟨e', mid, he, -⟩
    · exact bind_error.mpr (Or.inl he)
    · obtain ⟨us, rfl, hus, -⟩ := hsub.settles he
      exact absurd (List.mem_append_left _ (kind_firstToken hus mid)) hk
  · rw [hts]
    exact he

/-! ## Arguments -/

/-- What is known in front of a comma or the end of the arguments. -/
structure BehindArgument (whole : List Token → Prop) (ts : List Token) : Prop where
  completes : ∀ {us : List Token} {es : List Expr} {r : Token}, MoreArguments us es →
    r.kind = .symbol .closeParen → ∃ vs, whole (us ++ r :: vs)
  admits : ∀ k ∈ Kind.binaries, Admits whole k
  ends : (firstToken ts).kind ∉ Kind.binaries

theorem BehindArgument.expression (hb : BehindArgument whole ts) {t : Token}
    (ht : t.kind = .symbol .comma) :
    ∀ us e, Expression us e → ∃ vs, whole (t :: (us ++ vs)) := by
  intro us e he
  obtain ⟨vs, hvs⟩ := hb.completes (.cons ht he .nil) (Kind.kind_sample (.symbol .closeParen))
  exact ⟨_, by simpa using hvs⟩

theorem BehindArgument.next (hb : BehindArgument whole ts) {t : Token} {us : List Token} {e : Expr}
    (ht : t.kind = .symbol .comma) (he : Expression us e)
    (hends : (firstToken rest).kind ∉ Kind.binaries) :
    BehindArgument (fun vs => whole (t :: us ++ vs)) rest where
  completes hes hr := by
    obtain ⟨vs, hvs⟩ := hb.completes (.cons ht he hes) hr
    exact ⟨vs, by simpa using hvs⟩
  admits := @admits_binaries (fun vs => whole (t :: vs)) us e he (hb.expression ht)
  ends := hends

theorem nextArgument_fails (hsub : Reports limit n sub) (hb : BehindArgument whole ts)
    (h : nextArgument sub ts = .error err rest) :
    Fails limit (nextArgument sub) whole
      ([.symbol .comma, .symbol .closeParen] ++ Kind.binaries) n ts err rest := by
  have hcomma : Admits whole (.symbol .comma) := by
    obtain ⟨vs, hvs⟩ := hb.expression (Kind.kind_sample _) _ _ expression_sample
    exact .of_sample ⟨_, hvs⟩
  have hclose : Admits whole (.symbol .closeParen) :=
    .of_sample (hb.completes .nil (Kind.kind_sample _))
  have hadmits : ∀ k ∈ [.symbol .comma, .symbol .closeParen] ++ Kind.binaries,
      Admits whole k := by
    simpa only [List.cons_append, List.nil_append, List.forall_mem_cons] using
      ⟨hcomma, hclose, hb.admits⟩
  refine tokens_then (List.cons_ne_nil _ _) (by decide) hb.ends hadmits (Nat.le_succ n) h ?_
  intro t ts' _ _ hts
  split at hts
  · next hk =>
    rw [if_pos hk]
    have ht : t.kind = .symbol .comma := by simpa using hk
    have hsome := map_error.mp hts
    exact ⟨_, (hsub.fails (hb.expression ht) (List.forall_mem_nil _) List.not_mem_nil
      hsome).bind_left⟩
  · cases hts

theorem nextArgument_settles (hsub : Reports limit n sub) {e : Expr}
    (h : nextArgument sub ts = .ok (some e) rest) :
    ∃ t us, ts = t :: us ++ rest ∧ t.kind = .symbol .comma ∧ Expression us e ∧
      Settles (nextArgument sub) (· ∈ Kind.binaries) (t :: us) rest (some e) := by
  rcases nextArgument_ok.mp h with ⟨_, _, _, ho⟩ | ⟨t, mid, e', rfl, ht, he, ho⟩
  · cases ho
  · cases ho
    obtain ⟨us, rfl, hus, hs⟩ := hsub.settles he
    refine ⟨t, us, rfl, ht, hus, hs.stops, ?_⟩
    intro rest' hr
    exact nextArgument_ok.mpr (Or.inr ⟨t, us ++ rest', e, rfl, ht, hs.answers _ hr.of_cons, rfl⟩)

theorem moreArguments_fails (hreads : Reads sub Q) (hsub : Reports limit n sub)
    (hb : BehindArgument whole ts) (h : collect (nextArgument sub) ts = .error err rest) :
    Fails limit (collect (nextArgument sub)) whole
      ([.symbol .comma, .symbol .closeParen] ++ Kind.binaries) n ts err rest := by
  refine collect_fails (nextArgument_takes hreads) BehindArgument (nextArgument_fails hsub) ?_ hb h
  intro whole ts e rest hb h
  obtain ⟨t, us, rfl, ht, hus, hs⟩ := nextArgument_settles hsub h
  exact ⟨t :: us, _, rfl, List.cons_ne_nil _ _, hs, fun k hk => List.mem_append_right _ hk,
    hb.next ht hus hs.stops⟩

/-- The arguments of a call fail in front of an argument or behind one. -/
theorem arguments_fails (hreads : Reads sub Q) (hsub : Reports limit n sub)
    (hwhole : ∀ us es r, Arguments us es → r.kind = .symbol .closeParen →
      ∃ vs, whole (us ++ r :: vs))
    (h : arguments sub ts = .error err rest) :
    Fails limit (arguments sub) whole (Kind.atomStarts ++ [.symbol .closeParen]) n ts err rest := by
  have hclose : Admits whole (.symbol .closeParen) :=
    .of_sample (hwhole [] [] _ .nil (Kind.kind_sample _))
  have hexpr : ∀ us e, Expression us e → ∃ vs, whole (us ++ vs) := by
    intro us e he
    obtain ⟨vs, hvs⟩ := hwhole _ _ _ (.cons he .nil) (Kind.kind_sample _)
    exact ⟨_, by simpa using hvs⟩
  refine skipIf_then (by decide) (fun _ => by decide) h ?_ ?_
  · intro t ts' _ _ hyes
    cases hyes
  · intro hk hno
    refine hsub.bind hexpr (by simpa using hclose) (by simpa using hk) hno ?_
    intro us e mid hts he hends hadmits hmore
    have hb : BehindArgument (fun vs => whole (us ++ vs)) mid := by
      refine ⟨?_, hadmits, hends⟩
      intro vs es r hes hr
      obtain ⟨ws, hws⟩ := hwhole _ _ r (.cons he hes) hr
      exact ⟨ws, by simpa using hws⟩
    have hcollect := moreArguments_fails hreads hsub hb (map_error.mp hmore)
    exact ⟨_, hcollect.bind_left, fun _ k hk => List.mem_append_right _ hk⟩

/-! ## Lists -/

theorem itemBody_fails (hsub : Reports limit n sub) {isPack : Bool}
    (hwhole : ∀ us e, Expression us e → ∃ vs, whole (us ++ vs))
    (halt : ∀ k ∈ itemAlternatives isPack, Admits whole k)
    (hends : (firstToken ts).kind ∉ itemAlternatives isPack)
    (h : itemBody sub isPack ts = .error err rest) :
    Fails limit (itemBody sub isPack) whole (Kind.atomStarts ++ itemAlternatives isPack) n ts err
      rest := by
  refine hsub.here_bind hwhole halt hends h ?_
  intro us e mid _ _ _ _ hskip
  exact absurd (map_error.mp hskip) skipIf_ne_error

/-- Dots beside an item are moved over, and where there are none they could follow. -/
theorem dots_settles {isSpread : Bool} (h : skipIf (.symbol .dots) ts = .ok isSpread rest) :
    ∃ vs, ts = vs ++ rest ∧ Dots vs isSpread ∧
      Settles (skipIf (.symbol .dots)) (fun k => vs = [] ∧ k = .symbol .dots) vs rest isSpread := by
  rcases (skipIf_ok (by decide)).mp h with ⟨rfl, d, rfl, hd⟩ | ⟨rfl, rfl, hd⟩
  · refine ⟨[d], rfl, .present hd, nofun, ?_⟩
    intro rest' _
    exact (skipIf_ok (by decide)).mpr (Or.inl ⟨rfl, d, rfl, hd⟩)
  · refine ⟨[], rfl, .absent, fun hk => hd hk.2, ?_⟩
    intro rest' hr
    have hd' := hr.not_known fun hk => hd hk.2
    exact (skipIf_ok (by decide)).mpr (Or.inr ⟨rfl, rfl, fun hk => hd' ⟨rfl, hk⟩⟩)

theorem itemBody_settles (hsub : Reports limit n sub) {isPack isSpread : Bool} {i : Item}
    (h : itemBody sub isPack ts = .ok (i, isSpread) rest) :
    ∃ us vs e, ts = us ++ vs ++ rest ∧ Expression us e ∧ Dots vs isSpread ∧
      i = .mk e.place e isSpread isPack ∧
      Settles (itemBody sub isPack) (· ∈ itemFollow isSpread) (us ++ vs) rest (i, isSpread) := by
  obtain ⟨t, _, h₁, h⟩ := bind_ok.mp h
  obtain ⟨e, _, h₂, h⟩ := bind_ok.mp h
  obtain ⟨s, h₃, hi⟩ := map_ok.mp h
  obtain ⟨rfl, rfl⟩ := here_ok.mp h₁
  obtain ⟨us, rfl, he, hs⟩ := hsub.settles h₂
  obtain ⟨vs, rfl, hv, hd⟩ := dots_settles h₃
  cases hi
  have hfollow : ∀ k, k ∈ itemFollow isSpread ↔
      vs = [] ∧ (k ∈ Kind.binaries ∨ k = .symbol .dots) := by
    intro k
    cases hv <;> simp [itemFollow]
  refine ⟨us, vs, e, by simp, he, hv, by rw [place_firstToken he], ?_, ?_⟩
  · rintro hk
    obtain ⟨rfl, hk | hk⟩ := (hfollow _).mp hk
    · exact hs.stops hk
    · exact hd.stops ⟨rfl, hk⟩
  · intro rest' hr
    have hexpr := hs.answers _ (hr.before fun hnil k hk => (hfollow k).mpr ⟨hnil, Or.inl hk⟩)
    have hdots := hd.answers rest' (hr.of_append.mono fun k hk =>
      (hfollow k).mpr ⟨hk.1, Or.inr hk.2⟩)
    rw [List.append_assoc]
    refine bind_ok.mpr ⟨_, _, here_ok.mpr ⟨rfl, rfl⟩, bind_ok.mpr ⟨e, _, hexpr, ?_⟩⟩
    refine map_ok.mpr ⟨isSpread, hdots, ?_⟩
    rw [place_firstToken he, place_firstToken he]

/-- Behind an item without dots behind it, dots or an operator may follow. -/
theorem admits_itemFollow {ps us vs : List Token} {e : Expr} {isPack isSpread : Bool}
    (hp : Dots ps isPack) (he : Expression us e) (hv : Dots vs isSpread)
    (hwhole : ∀ us i, ListItem us i → ∃ vs, whole (us ++ vs)) :
    ∀ k ∈ itemFollow isSpread, Admits (fun ws => whole (ps ++ us ++ vs ++ ws)) k := by
  intro k hk
  cases hv with
  | present _ => cases hk
  | absent =>
    rcases List.mem_append.mp hk with hk | hk
    · obtain ⟨vs, e', he'⟩ := he.exists_longer hk
      obtain ⟨ws, hws⟩ := hwhole _ _ (.mk hp he' .absent)
      exact .of_sample ⟨vs ++ ws, by simpa using hws⟩
    · obtain rfl := List.mem_singleton.mp hk
      obtain ⟨ws, hws⟩ := hwhole _ _ (.mk hp he (.present (Kind.kind_sample _)))
      exact .of_sample ⟨ws, by simpa using hws⟩

/-- What is known in front of a comma or the end of a list. -/
structure BehindItem (follow : List Kind) (whole : List Token → Prop) (ts : List Token) : Prop where
  completes : ∀ {us : List Token} {is : List Item} {r : Token}, MoreItems us is →
    r.kind = .symbol .closeBracket → ∃ vs, whole (us ++ r :: vs)
  admits : ∀ k ∈ follow, Admits whole k
  ends : (firstToken ts).kind ∉ follow

variable {follow : List Kind}

theorem BehindItem.item (hb : BehindItem follow whole ts) {t : Token}
    (ht : t.kind = .symbol .comma) {us : List Token} {i : Item} (hi : ListItem us i) :
    ∃ vs, whole (t :: (us ++ vs)) := by
  obtain ⟨vs, hvs⟩ := hb.completes (.cons ht hi .nil) (Kind.kind_sample (.symbol .closeBracket))
  exact ⟨_, by simpa using hvs⟩

/-- Behind a comma and the dots of an item its expression may stand. -/
theorem BehindItem.expression (hb : BehindItem follow whole ts) {t : Token} {ps : List Token}
    {isPack : Bool} (ht : t.kind = .symbol .comma) (hp : Dots ps isPack) :
    ∀ us e, Expression us e → ∃ vs, whole (t :: (ps ++ (us ++ vs))) := by
  intro us e he
  obtain ⟨vs, hvs⟩ := hb.item ht (.mk hp he .absent)
  exact ⟨vs, by simpa using hvs⟩

theorem BehindItem.alternatives (hb : BehindItem follow whole ts) {t : Token}
    (ht : t.kind = .symbol .comma) :
    ∀ k ∈ itemAlternatives false, Admits (fun vs => whole (t :: vs)) k := by
  have hclose := hb.completes (.comma ht) (Kind.kind_sample (.symbol .closeBracket))
  obtain ⟨vs, hvs⟩ := hb.expression ht (.present (Kind.kind_sample (.symbol .dots))) _ _
    expression_sample
  exact List.forall_mem_cons.mpr
    ⟨.of_sample hclose, List.forall_mem_singleton.mpr (.of_sample ⟨_, hvs⟩)⟩

theorem BehindItem.next (hb : BehindItem follow whole ts) {t : Token} {ps us vs : List Token}
    {e : Expr} {isPack isSpread : Bool} (ht : t.kind = .symbol .comma) (hp : Dots ps isPack)
    (he : Expression us e) (hv : Dots vs isSpread)
    (hends : (firstToken rest).kind ∉ itemFollow isSpread) :
    BehindItem (itemFollow isSpread) (fun ws => whole (t :: (ps ++ us ++ vs) ++ ws)) rest where
  completes his hr := by
    obtain ⟨ws, hws⟩ := hb.completes (.cons ht (.mk hp he hv) his) hr
    exact ⟨ws, by simpa using hws⟩
  admits := by
    have hwhole : ∀ us i, ListItem us i → ∃ vs, whole (t :: (us ++ vs)) :=
      fun _ _ hi => hb.item ht hi
    exact @admits_itemFollow (fun ws => whole (t :: ws)) _ _ _ _ _ _ hp he hv hwhole
  ends := hends

theorem nextItem_fails (hsub : Reports limit n sub) (hb : BehindItem follow whole ts)
    (h : nextItem sub follow ts = .error err rest) :
    Fails limit (nextItem sub follow) whole
      ([.symbol .comma, .symbol .closeBracket] ++ follow) n ts err rest := by
  have hcomma : Admits whole (.symbol .comma) := by
    obtain ⟨vs, hvs⟩ := hb.completes (.comma (Kind.kind_sample _))
      (Kind.kind_sample (.symbol .closeBracket))
    exact .of_sample ⟨_, hvs⟩
  have hclose : Admits whole (.symbol .closeBracket) :=
    .of_sample (hb.completes .nil (Kind.kind_sample _))
  have hadmits : ∀ k ∈ [.symbol .comma, .symbol .closeBracket] ++ follow, Admits whole k := by
    simpa only [List.cons_append, List.nil_append, List.forall_mem_cons] using
      ⟨hcomma, hclose, hb.admits⟩
  refine tokens_then (List.cons_ne_nil _ _) (by decide) hb.ends hadmits (Nat.le_succ n) h ?_
  intro t ts' _ _ hts
  split at hts
  · next hk =>
    have ht : t.kind = .symbol .comma := by simpa using hk
    rw [if_pos hk]
    -- behind the comma: the end of the list, or an item with or without dots
    refine ⟨Kind.atomStarts ++ itemAlternatives false,
      skipIf_then (by decide) (fun _ => by decide) hts ?_ ?_⟩
    · intro _ _ _ _ hyes
      cases hyes
    · intro hnot hno
      refine skipIf_then (by decide) (fun _ => by decide) hno ?_ ?_
      · intro d ts'' _ hd hyes
        exact ⟨_, (itemBody_fails hsub (hb.expression ht (.present hd)) (List.forall_mem_nil _)
          List.not_mem_nil (map_error.mp hyes)).bind_left⟩
      · intro hnot' hno'
        have hends : (firstToken ts').kind ∉ itemAlternatives false := by
          simp [itemAlternatives, hnot, hnot']
        exact (itemBody_fails hsub (hb.expression ht .absent) (hb.alternatives ht) hends
          (map_error.mp hno')).bind_left
  · cases hts

theorem nextItem_settles (hsub : Reports limit n sub) {i : Item} {follow' : List Kind}
    (h : nextItem sub follow ts = .ok (some (i, follow')) rest) :
    ∃ t ps us vs e isPack isSpread, ts = t :: (ps ++ us ++ vs) ++ rest ∧
      t.kind = .symbol .comma ∧ Dots ps isPack ∧ Expression us e ∧ Dots vs isSpread ∧
      follow' = itemFollow isSpread ∧
      Settles (nextItem sub follow) (· ∈ follow') (t :: (ps ++ us ++ vs)) rest
        (some (i, follow')) := by
  obtain ⟨t, mid, h₁, k₁⟩ := bind_ok.mp h
  obtain ⟨rfl, hk⟩ := (token_ok (by decide)).mp h₁
  split at k₁
  · next hc =>
    have hc : t.kind = .symbol .comma := by simpa using hc
    obtain ⟨b, _, h₂, k₂⟩ := bind_ok.mp k₁
    rcases (skipIf_ok (by decide)).mp h₂ with ⟨rfl, r, rfl, hr⟩ | ⟨rfl, rfl, -⟩
    · cases k₂
    · obtain ⟨isPack, _, h₃, k₃⟩ := bind_ok.mp k₂
      obtain ⟨⟨i', isSpread⟩, h₄, ho⟩ := map_ok.mp k₃
      obtain ⟨ps, rfl, hp⟩ := dots_sound h₃
      obtain ⟨us, vs, e, rfl, he, hv, rfl, hs⟩ := itemBody_settles hsub h₄
      cases ho
      refine ⟨t, ps, us, vs, e, isPack, isSpread, by simp, hc, hp, he, hv, rfl, hs.stops, ?_⟩
      intro rest' hr
      rw [List.append_assoc ps] at hr ⊢
      have hbody := hs.answers rest' hr.of_cons.of_append
      have hopen := skipIf_item (.mk hp he hv) rest'
      have hdots : skipIf (.symbol .dots) (ps ++ (us ++ vs ++ rest')) = .ok isPack _ :=
        dots_complete hp (by rw [List.append_assoc]; exact kind_ne_dots he)
      rw [List.append_assoc ps] at hopen
      rw [List.append_assoc] at hopen
      refine bind_ok.mpr ⟨t, ps ++ (us ++ vs ++ rest'), ?_, ?_⟩
      · exact (token_ok (by decide)).mpr ⟨by simp, hk⟩
      rw [if_pos (beq_iff_eq.mpr hc)]
      refine bind_ok.mpr ⟨false, _, hopen, bind_ok.mpr ⟨isPack, _, hdots, ?_⟩⟩
      exact map_ok.mpr ⟨_, hbody, rfl⟩
  · cases k₁

theorem moreItems_fails (hreads : Reads sub Q) (hsub : Reports limit n sub)
    (hb : BehindItem follow whole ts) (h : unfold (nextItem sub) follow ts = .error err rest) :
    Fails limit (unfold (nextItem sub) follow) whole
      ([.symbol .comma, .symbol .closeBracket] ++ follow) n ts err rest := by
  refine unfold_fails (nextItem_takes hreads)
    (fun follow => [.symbol .comma, .symbol .closeBracket] ++ follow) BehindItem
    (nextItem_fails hsub) ?_ hb h
  intro follow whole ts i follow' rest hb h
  obtain ⟨t, ps, us, vs, e, isPack, isSpread, rfl, ht, hp, he, hv, rfl, hs⟩ :=
    nextItem_settles hsub h
  exact ⟨_, _, rfl, List.cons_ne_nil _ _, hs, fun k hk => List.mem_append_right _ hk,
    hb.next ht hp he hv hs.stops⟩

/-! ## Lists and comprehensions -/

/-- The rest of a comprehension fails at one of its tokens or in its source. -/
theorem comprehension_fails (hsub : Reports limit n sub) {p : Place} {body : Expr}
    (hwhole : ∀ {f t i r : Token} {name : String} {us : List Token} {source : Expr},
      f.kind = .keyword .forWord → t.content = .ident name → i.kind = .keyword .inWord →
      Expression us source → r.kind = .symbol .closeBracket →
      ∃ vs, whole (f :: t :: i :: (us ++ r :: vs)))
    (h : comprehension sub p body ts = .error err rest) :
    Fails limit (comprehension sub p body) whole [.keyword .forWord] n ts err rest := by
  have hsource : ∀ {f t i : Token} {name : String}, f.kind = .keyword .forWord →
      t.content = .ident name → i.kind = .keyword .inWord →
      ∀ us e, Expression us e → ∃ vs, whole (f :: t :: i :: (us ++ vs)) := by
    intro f t i name hf ht hi us e he
    obtain ⟨vs, hvs⟩ := hwhole hf ht hi he (Kind.kind_sample (.symbol .closeBracket))
    exact ⟨_, hvs⟩
  have hin : ∀ {f t : Token} {name : String}, f.kind = .keyword .forWord →
      t.content = .ident name → ∃ vs, whole (f :: t :: (Kind.keyword .inWord).sample :: vs) :=
    fun hf ht => exists_of_append (hsource hf ht (Kind.kind_sample _) _ _ expression_sample)
  have hname : ∀ {f : Token}, f.kind = .keyword .forWord →
      ∃ vs, whole (f :: Kind.ident.sample :: vs) :=
    fun hf => exists_of_cons (hin hf rfl)
  refine token_then (by decide) (.of_sample (exists_of_cons (hname (Kind.kind_sample _))))
    (Nat.le_succ n) h ?_
  intro f ts₁ _ hf h₁
  refine ⟨_, ident_then (.of_sample (hname hf)) (Nat.le_succ n) h₁ ?_⟩
  intro t name ts₂ _ ht h₂
  refine ⟨_, token_then (by decide) (.of_sample (hin hf ht)) (Nat.le_succ n) h₂ ?_⟩
  intro i ts₃ _ hi h₃
  exact ⟨_, hsub.closed (by decide) (fun us e he r hr => hwhole hf ht hi he hr) h₃⟩

/-- The kinds besides a comma and the bracket that could stand behind the expression of a first
item. -/
def headFollow (isPack : Bool) : List Kind :=
  itemFollow false ++ if isPack then [] else [.keyword .forWord]

/-- What is known behind the expression of a first item. -/
structure BehindHead (isPack : Bool) (whole : List Token → Prop) (ts : List Token) : Prop where
  completes : ∀ {us : List Token} {is : List Item} {r : Token}, MoreItems us is →
    r.kind = .symbol .closeBracket → ∃ vs, whole (us ++ r :: vs)
  admits : ∀ k ∈ headFollow isPack, Admits whole k
  ends : (firstToken ts).kind ≠ .symbol .dots → (firstToken ts).kind ∉ headFollow isPack
  spread : ∀ {d : Token} {us : List Token} {is : List Item} {r : Token}, d.kind = .symbol .dots →
    MoreItems us is → r.kind = .symbol .closeBracket → ∃ vs, whole (d :: (us ++ r :: vs))

/-- The rest of a list fails in one of its items, or in front of the first one. -/
theorem listFrom_fails (hreads : Reads sub Q) (hsub : Reports limit n sub) {p q : Place}
    {head : Expr} {isPack : Bool} (hb : BehindHead isPack whole ts)
    (h : listFrom sub p q head isPack ts = .error err rest) :
    Fails limit (listFrom sub p q head isPack) whole
      ([.symbol .comma, .symbol .closeBracket] ++ headFollow isPack) n ts err rest := by
  refine skipIf_then (by decide) (fun _ => by simp [headFollow, itemFollow]) h ?_ ?_
  · intro d ts' _ hd hyes
    have hitem : BehindItem (itemFollow true ++ if isPack || true then [] else [.keyword .forWord])
        (fun vs => whole (d :: vs)) ts' := by
      rw [if_pos (Bool.or_true isPack)]
      exact ⟨fun his hr => hb.spread hd his hr, List.forall_mem_nil _, List.not_mem_nil⟩
    exact ⟨_, (moreItems_fails hreads hsub hitem (map_error.mp hyes)).bind_left⟩
  · intro hdots hno
    have hfollow : (itemFollow false ++ if isPack || false then [] else [.keyword .forWord]) =
        headFollow isPack := by
      rw [Bool.or_false]
      rfl
    rw [hfollow] at hno ⊢
    have hitem : BehindItem (headFollow isPack) whole ts := ⟨hb.completes, hb.admits, hb.ends hdots⟩
    exact (moreItems_fails hreads hsub hitem (map_error.mp hno)).bind_left

/-- What completes a list or a comprehension behind its bracket. -/
structure BehindBracket (whole : List Token → Prop) : Prop where
  items : ∀ {us : List Token} {is : List Item} {r : Token}, Items us is →
    r.kind = .symbol .closeBracket → ∃ vs, whole (us ++ r :: vs)
  comprehension : ∀ {us vs : List Token} {body source : Expr} {f t i r : Token} {name : String},
    Expression us body → f.kind = .keyword .forWord → t.content = .ident name →
    i.kind = .keyword .inWord → Expression vs source → r.kind = .symbol .closeBracket →
      ∃ ws, whole (us ++ f :: t :: i :: (vs ++ r :: ws))

theorem behindBracket {l : Token} (hl : l.kind = .symbol .openBracket)
    (hwhole : ∀ us a, Atom us a → ∃ vs, whole (us ++ vs)) :
    BehindBracket (fun vs => whole (l :: vs)) where
  items his hr := by
    obtain ⟨vs, hvs⟩ := hwhole _ _ (.list hl his hr)
    exact ⟨vs, by simpa using hvs⟩
  comprehension hb hf ht hi hs hr := by
    obtain ⟨ws, hws⟩ := hwhole _ _ (.comprehension hl hb hf ht hi hs hr)
    exact ⟨ws, by simpa using hws⟩

theorem BehindBracket.item (hb : BehindBracket whole) {us : List Token} {i : Item}
    (hi : ListItem us i) : ∃ vs, whole (us ++ vs) := by
  obtain ⟨vs, hvs⟩ := hb.items (.cons hi .nil) (Kind.kind_sample (.symbol .closeBracket))
  exact ⟨_, by simpa using hvs⟩

theorem BehindBracket.admits (hb : BehindBracket whole) :
    ∀ k ∈ itemAlternatives false, Admits whole k := by
  have hclose := hb.items .nil (Kind.kind_sample (.symbol .closeBracket))
  have hdots :=
    hb.item (.mk (.present (Kind.kind_sample (.symbol .dots))) expression_sample .absent)
  exact List.forall_mem_cons.mpr
    ⟨.of_sample hclose, List.forall_mem_singleton.mpr (.of_sample (exists_of_append hdots))⟩

theorem BehindBracket.admits_for (hb : BehindBracket whole) {us : List Token} {e : Expr}
    (he : Expression us e) : Admits (fun vs => whole (us ++ vs)) (.keyword .forWord) := by
  obtain ⟨ws, hws⟩ := hb.comprehension he (Kind.kind_sample (.keyword .forWord))
    (t := Kind.ident.sample) rfl (Kind.kind_sample (.keyword .inWord)) expression_sample
    (Kind.kind_sample (.symbol .closeBracket))
  exact .of_sample ⟨_, hws⟩

/-- The expression of a first item may go on as the item, or as a comprehension if there are no
dots in front of it. -/
theorem BehindBracket.head (hb : BehindBracket whole) {ps us : List Token} {e : Expr}
    {isPack : Bool} (hp : Dots ps isPack) (he : Expression us e)
    (hends : (firstToken ts).kind ≠ .symbol .dots → (firstToken ts).kind ∉ headFollow isPack) :
    BehindHead isPack (fun vs => whole (ps ++ (us ++ vs))) ts where
  completes his hr := by
    obtain ⟨ws, hws⟩ := hb.items (.cons (.mk hp he .absent) his) hr
    exact ⟨ws, by simpa using hws⟩
  spread hd his hr := by
    obtain ⟨ws, hws⟩ := hb.items (.cons (.mk hp he (.present hd)) his) hr
    exact ⟨ws, by simpa using hws⟩
  admits := by
    intro k hk
    rcases List.mem_append.mp hk with hk | hk
    · simpa using admits_itemFollow hp he .absent (fun _ _ hi => hb.item hi) k hk
    · cases hp with
      | present _ => cases hk
      | absent =>
        obtain rfl := List.mem_singleton.mp hk
        exact hb.admits_for he
  ends := hends

variable (sub) in
/-- A list or a comprehension behind the bracket and the dots of its first item. -/
def firstItem (p : Place) (isPack : Bool) : Rule Expr := do
  let first ← here
  let head ← sub (itemAlternatives isPack)
  if !isPack && (← isHere (.keyword .forWord)) then comprehension sub p head
  else listFrom sub p first.place head isPack

/-- A first item fails in its expression, or behind it as an item or a comprehension. -/
theorem firstItem_fails (hreads : Reads sub Q) (hsub : Reports limit n sub)
    (hb : BehindBracket whole) {p : Place} {ps : List Token} {isPack : Bool} (hp : Dots ps isPack)
    (halt : ∀ k ∈ itemAlternatives isPack, Admits (fun vs => whole (ps ++ vs)) k)
    (hends : (firstToken ts).kind ∉ itemAlternatives isPack)
    (h : firstItem sub p isPack ts = .error err rest) :
    Fails limit (firstItem sub p isPack) (fun vs => whole (ps ++ vs))
      (Kind.atomStarts ++ itemAlternatives isPack) n ts err rest := by
  have hexpr : ∀ us e, Expression us e → ∃ vs, whole (ps ++ (us ++ vs)) := by
    intro us e he
    obtain ⟨vs, hvs⟩ := hb.item (.mk hp he .absent)
    exact ⟨vs, by simpa using hvs⟩
  refine hsub.here_bind hexpr halt hends h ?_
  intro us head mid _ he hops _ htail
  cases isPack with
  | true =>
    have hlist : listFrom sub p (firstToken ts).place head true mid = .error err rest := htail
    have hhead : BehindHead true (fun vs => whole (ps ++ (us ++ vs))) mid := by
      refine hb.head hp he ?_
      intro hdots
      simp [headFollow, itemFollow, hdots, hops]
    have hf := listFrom_fails hreads hsub hhead hlist
    refine ⟨_, hf.congr fun ts' _ e rest' he => he, ?_⟩
    intro _ k hk
    simp [headFollow, itemFollow, hk]
  | false =>
    cases hp
    refine ⟨[.symbol .comma, .symbol .closeBracket] ++ headFollow false,
      isHere_then (fun _ => by simp [headFollow]) htail ?_ ?_, ?_⟩
    · intro _ hyes
      exact comprehension_fails hsub (hb.comprehension he) hyes
    · intro hfor hno
      have hhead : BehindHead false (fun vs => whole ([] ++ (us ++ vs))) mid := by
        refine hb.head .absent he ?_
        intro hdots
        simp [headFollow, itemFollow, hdots, hops, hfor]
      exact listFrom_fails hreads hsub hhead hno
    · intro _ k hk
      simp [headFollow, itemFollow, hk]

/-- A list or a comprehension fails at its bracket or behind it. -/
theorem list_fails (hreads : Reads sub Q) (hsub : Reports limit n sub)
    (hwhole : ∀ us a, Atom us a → ∃ vs, whole (us ++ vs))
    (h : list sub ts = .error err rest) :
    Fails limit (list sub) whole [.symbol .openBracket] (n + 1) ts err rest := by
  have hopen : Admits whole (.symbol .openBracket) := by
    obtain ⟨vs, hvs⟩ := (behindBracket (Kind.kind_sample (.symbol .openBracket)) hwhole).items .nil
      (Kind.kind_sample (.symbol .closeBracket))
    exact .of_sample ⟨_, hvs⟩
  refine token_then (by decide) hopen (Nat.le_refl _) h ?_
  intro l ts₁ _ hl h₁
  have hb := behindBracket hl hwhole
  refine ⟨Kind.atomStarts ++ itemAlternatives false,
    skipIf_then (by decide) (fun _ => by decide) h₁ ?_ ?_⟩
  · intro _ _ _ _ hyes
    cases hyes
  · intro hnot hno
    refine skipIf_then (by decide) (fun _ => by decide) hno ?_ ?_
    · intro d ts₂ _ hd hyes
      exact ⟨_, firstItem_fails hreads hsub hb (.present hd) (List.forall_mem_nil _)
        List.not_mem_nil hyes⟩
    · intro hnot' hno'
      have hends : (firstToken ts₁).kind ∉ itemAlternatives false := by
        simp [itemAlternatives, hnot, hnot']
      exact firstItem_fails hreads hsub hb .absent hb.admits hends hno'

/-! ## Atoms -/

theorem stepExpr_fails (hwhole : ∀ us a, Atom us a → ∃ vs, whole (us ++ vs))
    (h : stepExpr ts = .error err rest) :
    Fails limit stepExpr whole [.symbol .increment, .symbol .decrement] n ts err rest := by
  have hview : ∀ t : Token, t.kind ∈ [.symbol .increment, .symbol .decrement] ↔
      (t.step?.map (t, ·)).isSome = true := by
    intro t
    simp only [Option.isSome_map, Option.isSome_iff_exists, Token.step?_eq_some, List.mem_cons,
      List.not_mem_nil, or_false]
    constructor
    · rintro (hk | hk)
      · exact ⟨.plus, Or.inl ⟨hk, rfl⟩⟩
      · exact ⟨.minus, Or.inr ⟨hk, rfl⟩⟩
    · rintro ⟨o, ⟨hk, -⟩ | ⟨hk, -⟩⟩
      · exact Or.inl hk
      · exact Or.inr hk
  have hadmits : ∀ k ∈ [.symbol .increment, .symbol .decrement], Admits whole k := by
    intro k hk
    obtain ⟨e, he⟩ := exists_step (by simpa using hk)
    obtain ⟨vs, hvs⟩ := hwhole _ _ he
    exact .of_sample ⟨_, hvs⟩
  refine accept_then [.symbol .increment, .symbol .decrement] [] rfl hview (List.cons_ne_nil _ _)
    (by decide) List.not_mem_nil hadmits (Nat.le_succ n) h ?_
  rintro t ⟨t', o⟩ ts' _ ht hname
  obtain ⟨o', ho, -⟩ := Option.map_eq_some_iff.mp ht
  obtain ⟨vs, hvs⟩ := hwhole _ _ (.step (u := Kind.ident.sample) ho rfl)
  exact ⟨_, (ident_fails (.of_sample ⟨vs, hvs⟩) (map_error.mp hname)).bind_left⟩

theorem call_error {t l : Token} {name : String} (ht : t.content = .ident name)
    (hl : l.kind = .symbol .openParen) :
    call sub (t :: l :: ts) = .error err rest ↔ arguments sub ts = .error err rest := by
  unfold call
  rw [bind_of_ok (ident_ok.mpr ⟨rfl, ht⟩)]
  dsimp only
  rw [bind_of_ok ((token_one_ok (by decide)).mpr ⟨rfl, hl⟩), map_error]

theorem index_error {t l : Token} {name : String} (ht : t.content = .ident name)
    (hl : l.kind = .symbol .openBracket) :
    index sub (t :: l :: ts) = .error err rest ↔
      (do let e ← sub []; let _ ← token [.symbol .closeBracket] Kind.binaries
          return .index t.place name e : Rule Expr) ts = .error err rest := by
  unfold index
  rw [bind_of_ok (ident_ok.mpr ⟨rfl, ht⟩)]
  dsimp only
  rw [bind_of_ok ((token_one_ok (by decide)).mpr ⟨rfl, hl⟩)]

theorem named_of_paren {t l : Token} {name : String} (hl : l.kind = .symbol .openParen) :
    named sub t name (t :: l :: ts) = call sub (t :: l :: ts) := by
  unfold named
  rw [bind_of_ok (next_ok.mpr ⟨rfl, rfl⟩), if_pos (by simp [firstToken, hl])]

theorem named_of_bracket {t l : Token} {name : String} (hl : l.kind = .symbol .openBracket) :
    named sub t name (t :: l :: ts) = index sub (t :: l :: ts) := by
  unfold named
  rw [bind_of_ok (next_ok.mpr ⟨rfl, rfl⟩), if_neg (by simp [firstToken, hl]),
    if_pos (by simp [firstToken, hl])]

theorem named_of_apart {t : Token} {name : String} (hr : Apart ts) :
    named sub t name (t :: ts) = .ok (.ident t.place name) ts := by
  unfold named
  rw [bind_of_ok (next_ok.mpr ⟨rfl, rfl⟩), if_neg (by simpa using hr.1),
    if_neg (by simpa using hr.2)]
  rfl

/-- An atom that begins with a name fails in its arguments or in its subscript. -/
theorem named_fails (hreads : Reads sub Q) (hsub : Reports limit n sub) {t : Token} {name : String}
    (ht : t.content = .ident name) (hwhole : ∀ us a, Atom us a → ∃ vs, whole (us ++ vs))
    {opens : List Kind} (h : named sub t name (t :: ts) = .error err rest) :
    Fails limit (named sub t name) whole opens (n + 1) (t :: ts) err rest := by
  by_cases hp : (firstToken ts).kind = .symbol .openParen
  · obtain ⟨l, ts', rfl, hl⟩ := exists_cons_of_firstToken (by rw [hp]; nofun)
    rw [hl] at hp
    rw [named_of_paren hp, call_error ht hp] at h
    have hargs : ∀ us es r, Arguments us es → r.kind = .symbol .closeParen →
        ∃ vs, whole (t :: l :: (us ++ r :: vs)) := by
      intro us es r hes hr
      obtain ⟨vs, hvs⟩ := hwhole _ _ (.call ht hp hes hr)
      exact ⟨vs, by simpa using hvs⟩
    have hf : Fails limit (arguments sub) (fun vs => whole (t :: l :: vs)) _ n ts' err rest :=
      arguments_fails hreads hsub hargs h
    refine hf.behind (List.cons_ne_nil t [l]) ?_ (Nat.le_succ (n + 1))
    intro x e rest' he
    show named sub t name (t :: l :: x) = _
    rw [named_of_paren hp, call_error ht hp]
    exact he
  · by_cases hb : (firstToken ts).kind = .symbol .openBracket
    · obtain ⟨l, ts', rfl, hl⟩ := exists_cons_of_firstToken (by rw [hb]; nofun)
      rw [hl] at hb
      rw [named_of_bracket hb, index_error ht hb] at h
      have hindex : ∀ us e, Expression us e → ∀ r, r.kind = .symbol .closeBracket →
          ∃ vs, whole (t :: l :: (us ++ r :: vs)) := by
        intro us e he r hr
        obtain ⟨vs, hvs⟩ := hwhole _ _ (.index ht hb he hr)
        exact ⟨vs, by simpa using hvs⟩
      have hf : Fails limit _ (fun vs => whole (t :: l :: vs)) _ n ts' err rest :=
        hsub.closed (by decide) hindex h
      refine hf.behind (List.cons_ne_nil t [l]) ?_ (Nat.le_succ (n + 1))
      intro x e rest' he
      show named sub t name (t :: l :: x) = _
      rw [named_of_bracket hb, index_error ht hb]
      exact he
    · rw [named_of_apart ⟨hp, hb⟩] at h
      cases h

theorem atom_of_ident {alternatives : List Kind} {name : String}
    (h : (firstToken ts).content = .ident name) :
    atom sub alternatives ts = named sub (firstToken ts) name ts := by
  unfold atom
  rw [bind_of_ok (here_ok.mpr ⟨rfl, rfl⟩), h]

theorem atom_of_bracket {alternatives : List Kind} {text : String}
    (h : (firstToken ts).content = .symbol .openBracket text) :
    atom sub alternatives ts = list sub ts := by
  unfold atom
  rw [bind_of_ok (here_ok.mpr ⟨rfl, rfl⟩), h]

theorem atom_of_step {alternatives : List Kind}
    (h : (firstToken ts).kind ∈ [.symbol .increment, .symbol .decrement]) :
    atom sub alternatives ts = stepExpr ts := by
  unfold atom
  rw [bind_of_ok (here_ok.mpr ⟨rfl, rfl⟩)]
  rcases List.mem_cons.mp h with hk | hk
  · obtain ⟨text, hc⟩ := Token.exists_text hk
    rw [hc]
  · obtain ⟨text, hc⟩ := Token.exists_text (List.mem_singleton.mp hk)
    rw [hc]

theorem atom_of_other {alternatives : List Kind} (h : (firstToken ts).kind ∉ Kind.atomStarts) :
    atom sub alternatives ts =
      .error ((firstToken ts).refuse (Kind.atomStarts ++ alternatives)) ts := by
  unfold atom
  rw [bind_of_ok (here_ok.mpr ⟨rfl, rfl⟩)]
  cases hc : (firstToken ts).content with
  | symbol s text =>
    rw [Token.kind_eq hc] at h
    cases s with
    | openBracket | increment | decrement =>
      simp [Content.kind, Kind.atomStarts, Kind.literals] at h
    | _ => rfl
  | keyword _ _ | eof _ | other _ _ => rfl
  | _ =>
    rw [Token.kind_eq hc] at h
    simp [Content.kind, Kind.atomStarts, Kind.literals] at h

theorem leaf_ne_error {e : Expr} : leaf e ts ≠ .error err rest :=
  nofun

theorem atom_fails (hreads : Reads sub Q) (hsub : Reports limit n sub) {alternatives : List Kind}
    (hwhole : ∀ us a, Atom us a → ∃ vs, whole (us ++ vs))
    (halt : ∀ k ∈ alternatives, Admits whole k) (hends : (firstToken ts).kind ∉ alternatives)
    (h : atom sub alternatives ts = .error err rest) :
    Fails limit (atom sub alternatives) whole (Kind.atomStarts ++ alternatives) (n + 1) ts err
      rest := by
  have hadmits : ∀ k ∈ Kind.atomStarts ++ alternatives, Admits whole k := by
    intro k hk
    rcases List.mem_append.mp hk with hk | hk
    · obtain ⟨vs, a, ha⟩ := exists_atom hk
      obtain ⟨ws, hws⟩ := hwhole _ _ ha
      exact .of_sample ⟨vs ++ ws, hws⟩
    · exact halt k hk
  by_cases hk : (firstToken ts).kind ∈ Kind.atomStarts
  · cases hc : (firstToken ts).content with
    | int _ | float _ | bool _ | string _ | char _ =>
      unfold atom at h
      rw [bind_of_ok (here_ok.mpr ⟨rfl, rfl⟩), hc] at h
      exact absurd h leaf_ne_error
    | ident name =>
      obtain ⟨t, hts, ht⟩ := exists_cons_of_content hc nofun
      rw [atom_of_ident hc] at h
      rw [hts] at h hk hc ⊢
      have hf : Fails limit (named sub t name) whole [.ident] (n + 1) (t :: ts.tail) err rest :=
        named_fails hreads hsub ht hwhole h
      refine hf.congr_opened (List.mem_singleton.mpr (Token.kind_eq ht)) ?_
      intro ts' hts' _ e rest' he
      rw [atom_of_ident (by rw [hts']; exact hc), hts']
      exact he
    | symbol s text =>
      have hkind : (firstToken ts).kind = .symbol s := Token.kind_eq hc
      have hs : s = .openBracket ∨ s = .increment ∨ s = .decrement := by
        simpa [hkind, Kind.atomStarts, Kind.literals] using hk
      rcases hs with rfl | hs
      · rw [atom_of_bracket hc] at h
        refine (list_fails hreads hsub hwhole h).congr_opened (List.mem_singleton.mpr hkind) ?_
        intro ts' hts' _ e rest' he
        rw [atom_of_bracket (by rw [hts']; exact hc)]
        exact he
      · have hstep : (firstToken ts).kind ∈ [.symbol .increment, .symbol .decrement] := by
          simpa [hkind] using hs
        rw [atom_of_step hstep] at h
        refine (stepExpr_fails hwhole h).congr_opened hstep ?_
        intro ts' hts' _ e rest' he
        rw [atom_of_step (by rw [hts']; exact hstep)]
        exact he
    | keyword _ _ | eof _ | other _ _ =>
      rw [Token.kind_eq hc] at hk
      simp [Content.kind, Kind.atomStarts, Kind.literals] at hk
  · rw [atom_of_other hk] at h
    cases h
    refine .at_start (by simp [hk, hends]) (by simp [Kind.atomStarts, Kind.literals]) hadmits ?_
    intro ts' hts
    exact atom_of_other fun hm => hts (List.mem_append_left _ hm)

/-- A name that is read as a variable stands in front of no bracket. -/
theorem apart_of_atom (hreads : Reads sub Q) {alternatives : List Kind} {p : Place} {name : String}
    (h : atom sub alternatives ts = .ok (.ident p name) rest) : Apart rest := by
  obtain ⟨us, rfl, ha, -⟩ := atom_sound hreads h
  cases ha with
  | @ident t _ ht =>
    have hc : (firstToken (t :: rest)).content = .ident name := ht
    have h : atom sub alternatives (t :: rest) = .ok (.ident t.place name) rest := h
    rw [atom_of_ident hc] at h
    constructor
    · intro hp
      obtain ⟨l, ts', rfl, hl⟩ := exists_cons_of_firstToken (by rw [hp]; nofun)
      rw [hl] at hp
      have hcall : call sub (t :: l :: ts') = .ok (.ident t.place name) (l :: ts') := by
        rw [← named_of_paren hp]
        exact h
      obtain ⟨_, _, _, _, _, _, _, _, _, _, _, _, ho⟩ := (call_ok hreads).mp hcall
      cases ho
    · intro hb
      obtain ⟨l, ts', rfl, hl⟩ := exists_cons_of_firstToken (by rw [hb]; nofun)
      rw [hl] at hb
      have hindex : index sub (t :: l :: ts') = .ok (.ident t.place name) (l :: ts') := by
        rw [← named_of_bracket hb]
        exact h
      obtain ⟨_, _, _, _, _, _, _, _, _, _, _, _, ho⟩ := (index_ok hreads).mp hindex
      cases ho

/-- What is read as an atom is read in front of all other tokens, unless they are a bracket
behind a name. -/
theorem atom_settles (hreads : Reads sub Q) {alternatives : List Kind} {a : Expr}
    (h : atom sub alternatives ts = .ok a rest) :
    ∃ us, ts = us ++ rest ∧ Atom us a ∧
      Settles (atom sub alternatives) (fun _ => False) us rest a := by
  obtain ⟨us, rfl, ha, hq⟩ := atom_sound hreads h
  refine ⟨us, rfl, ha, id, ?_⟩
  intro rest' hr
  refine atom_complete hreads alternatives ha hq ?_
  rintro p name rfl
  have hapart := apart_of_atom hreads h
  cases ha with
  | @ident t _ ht =>
    rcases hr with hr | ⟨-, ho⟩
    · unfold Apart
      rwa [hr]
    · rw [overlooked_singleton, Token.kind_eq ht] at ho
      constructor
      · intro hk
        exact ho (by rw [hk]; simp [Content.kind, Kind.overlooked])
      · intro hk
        exact ho (by rw [hk]; simp [Content.kind, Kind.overlooked])

theorem Reports.atom_bind (hreads : Reads sub Q) (hsub : Reports limit n sub) {β : Type}
    {alternatives : List Kind} {f : Expr → Rule β}
    (hwhole : ∀ us a, Atom us a → ∃ vs, whole (us ++ vs))
    (halt : ∀ k ∈ alternatives, Admits whole k) (hends : (firstToken ts).kind ∉ alternatives)
    (h : (atom sub alternatives >>= f) ts = .error err rest)
    (hf : ∀ us a mid, ts = us ++ mid → Atom us a → f a mid = .error err rest →
      ∃ opens', Fails limit (f a) (fun vs => whole (us ++ vs)) opens' n mid err rest) :
    Fails limit (atom sub alternatives >>= f) whole (Kind.atomStarts ++ alternatives) (n + 1) ts err
      rest := by
  rcases bind_error.mp h with ha | ⟨a, mid, ha, hfa⟩
  · exact (atom_fails hreads hsub hwhole halt hends ha).bind_left
  · obtain ⟨us, rfl, hus, hs⟩ := atom_settles hreads ha
    obtain ⟨opens', hfails⟩ := hf us a mid rfl hus hfa
    obtain ⟨t, us, rfl, -⟩ := hus.opens
    exact .bind_settled hs (List.cons_ne_nil t us) hfails (by simp)

/-! ## Chains -/

theorem binary?_eq_none_iff {t : Token} : t.binary? = none ↔ t.kind ∉ Kind.binaries := by
  rw [Token.kind_mem_binaries, Option.not_isSome_iff_eq_none]

variable (limit)

/-- The rest of a chain is read up to a token that is no operator. -/
theorem chain_settles {levels : Nat} {lhs e : Expr}
    (h : chain limit levels lhs ts = .ok e rest) :
    ∃ us, ts = us ++ rest ∧ Chain us lhs e ∧
      Settles (chain limit levels lhs) (· ∈ Kind.binaries) us rest e := by
  induction levels generalizing lhs ts with
  | zero =>
    obtain ⟨hb, rfl, rfl⟩ := (chain_zero_ok limit).mp h
    have hstops := binary?_eq_none_iff.mp hb
    refine ⟨[], rfl, .nil, hstops, ?_⟩
    intro rest' hr
    exact (chain_zero_ok limit).mpr ⟨binary?_eq_none_iff.mpr (hr.not_known hstops), rfl, rfl⟩
  | succ levels ih =>
    rcases (chain_succ_ok limit).mp h with
      ⟨hb, rfl, rfl⟩ | ⟨t, ts', o, b, mid, rfl, ht, hatom, hchain⟩
    · have hstops := binary?_eq_none_iff.mp hb
      refine ⟨[], rfl, .nil, hstops, ?_⟩
      intro rest' hr
      exact (chain_succ_ok limit).mpr
        (Or.inl ⟨binary?_eq_none_iff.mpr (hr.not_known hstops), rfl, rfl⟩)
    · obtain ⟨us, rfl, ha, hsa⟩ := atom_settles (reads_expression limit levels) hatom
      obtain ⟨vs, rfl, hc, hsc⟩ := ih hchain
      refine ⟨t :: us ++ vs, by simp, .cons ht ha hc, hsc.stops, ?_⟩
      intro rest' hr
      have hr' : Resembles (· ∈ Kind.binaries) (us ++ vs) rest rest' := hr.of_cons
      have ha' := hsa.answers _ (hr'.before fun _ _ => False.elim)
      have hc' := hsc.answers _ hr'.of_append
      exact (chain_succ_ok limit).mpr
        (Or.inr ⟨t, us ++ (vs ++ rest'), o, b, vs ++ rest', by simp, ht, ha', hc'⟩)

theorem chain_error {levels : Nat} {lhs : Expr} {t : Token} {o : Operator}
    (ht : t.binary? = some o) :
    chain limit (levels + 1) lhs (t :: ts) = .error err rest ↔
      (do let rhs ← atom (expression limit levels) []
          chain limit levels (.operation lhs.place lhs o rhs) : Rule Expr) ts =
        .error err rest := by
  rw [chain, bind_of_ok (here_ok.mpr ⟨rfl, rfl⟩)]
  simp only [firstToken, ht]
  exact Iff.rfl

/-- The rest of a chain fails in an operand.  It asks for nothing in front of its first
operator, but a level may be missing there. -/
theorem chain_fails {levels : Nat}
    (hsub : ∀ m, m < levels → Reports limit m (expression limit m)) {lhs : Expr}
    (hwhole : ∀ us e, Chain us lhs e → ∃ vs, whole (us ++ vs))
    (h : chain limit levels lhs ts = .error err rest) :
    Fails limit (chain limit levels lhs) whole [] levels ts err rest := by
  induction levels generalizing lhs ts whole with
  | zero =>
    cases hb : (firstToken ts).binary? with
    | none =>
      rw [(chain_zero_ok limit).mpr ⟨hb, rfl, rfl⟩] at h
      cases h
    | some o =>
      rw [chain_zero_error limit hb] at h
      cases h
      obtain ⟨vs, hvs⟩ := hwhole _ _ (.cons hb atom_sample .nil)
      have hadmits : Admits whole (firstToken rest).kind := ⟨_, _, rfl, hvs⟩
      refine .at_limit hadmits fun ts' hts => chain_zero_error limit (o := o) ?_
      rw [firstToken_eq_of_take hts]
      exact hb
  | succ levels ih =>
    cases hb : (firstToken ts).binary? with
    | none =>
      rw [(chain_succ_ok limit).mpr (Or.inl ⟨hb, rfl, rfl⟩)] at h
      cases h
    | some o =>
      obtain ⟨t, ts', rfl, ht⟩ := exists_cons_of_firstToken (kind_ne_eof_of_binary? hb)
      rw [ht] at hb
      rw [chain_error limit hb] at h
      have hatom : ∀ us a, Atom us a → ∃ vs, whole (t :: (us ++ vs)) := by
        intro us a ha
        obtain ⟨vs, hvs⟩ := hwhole _ _ (.cons hb ha .nil)
        exact ⟨vs, by simpa using hvs⟩
      have hoperand : Fails limit (do
          let rhs ← atom (expression limit levels) []
          chain limit levels (.operation lhs.place lhs o rhs) : Rule Expr)
          (fun vs => whole (t :: vs)) (Kind.atomStarts ++ []) (levels + 1) ts' err rest := by
        refine (hsub levels (Nat.lt_succ_self levels)).atom_bind (reads_expression limit levels)
          hatom (List.forall_mem_nil _) List.not_mem_nil h ?_
        intro us rhs mid _ ha hchain
        refine ⟨[], ih (fun m hm => hsub m (Nat.lt_succ_of_lt hm)) ?_ hchain⟩
        intro vs e hc
        obtain ⟨ws, hws⟩ := hwhole _ _ (.cons hb ha hc)
        exact ⟨ws, by simpa using hws⟩
      refine hoperand.behind_cons ?_ (Nat.le_succ _)
      intro ts'' e rest' he
      rw [chain_error limit hb]
      exact he

/-! ## Expressions -/

theorem expression_zero_fails {alternatives : List Kind} {opens : List Kind}
    (hwhole : ∀ us e, Expression us e → ∃ vs, whole (us ++ vs))
    (h : expression limit 0 alternatives ts = .error err rest) :
    Fails limit (expression limit 0 alternatives) whole opens 0 ts err rest := by
  rw [expression] at h ⊢
  cases h
  exact .at_limit (.of_sample (hwhole _ _ expression_sample)) fun _ _ => rfl

theorem reports_expression_zero : Reports limit 0 (expression limit 0) where
  settles h := by
    rw [expression] at h
    cases h
  fails hwhole _ _ h := expression_zero_fails limit hwhole h

theorem reports_expression_succ {levels : Nat}
    (hsub : ∀ m, m ≤ levels → Reports limit m (expression limit m)) :
    Reports limit (levels + 1) (expression limit (levels + 1)) where
  settles := by
    intro alternatives ts rest e h
    rw [expression] at h ⊢
    obtain ⟨a, mid, ha, hc⟩ := bind_ok.mp h
    obtain ⟨us, rfl, hus, hsa⟩ := atom_settles (reads_expression limit levels) ha
    obtain ⟨vs, rfl, hvs, hsc⟩ := chain_settles limit hc
    exact ⟨us ++ vs, by simp, .chain hus hvs, hsa.bind hsc fun _ _ => False.elim⟩
  fails := by
    intro whole alternatives ts rest err hwhole halt hends h
    rw [expression] at h ⊢
    have hatom : ∀ us a, Atom us a → ∃ vs, whole (us ++ vs) := fun us a ha =>
      hwhole us a ha.expression
    refine (hsub levels (Nat.le_refl levels)).atom_bind (reads_expression limit levels) hatom halt
      hends h ?_
    intro us a mid _ hus hc
    refine ⟨[], chain_fails limit (fun m hm => hsub m (Nat.le_of_lt hm)) ?_ hc⟩
    intro vs e hvs
    obtain ⟨ws, hws⟩ := hwhole _ _ (.chain hus hvs)
    exact ⟨ws, by simpa using hws⟩

/-- The rule for expressions reports its failures. -/
theorem reports_expression (levels : Nat) : Reports limit levels (expression limit levels) := by
  induction levels using Nat.strongRecOn with
  | ind levels ih =>
    cases levels with
    | zero => exact reports_expression_zero limit
    | succ levels => exact reports_expression_succ limit fun m hm => ih m (Nat.lt_succ_of_le hm)

end ScriptReader.Grammar
