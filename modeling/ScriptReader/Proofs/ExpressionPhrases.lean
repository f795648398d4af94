import ScriptReader.Grammar.Expression
import ScriptReader.Proofs.Runs
import ScriptReader.Proofs.PhraseLevels

/-!
# Expressions are read as their phrases

`Reads rule Q` says of a rule that it reads the phrases of the expressions with the property
`Q`, and nothing else.  A rule that is given such a rule for the expressions inside reads the
phrases whose parts have the property: that is proved of each rule of the grammar in turn, and
`reads_expression` puts them together, by induction on the number of levels.

Main statement: `reads_expression`, the rule for expressions with some levels left reads the
expressions that take no more levels.
-/

namespace ScriptReader.Grammar

open Rule Phrase

/-- A rule reads the phrases of the expressions with the property `Q`: what it reads is one,
and each is read where the tokens behind it do not carry on. -/
structure Reads (rule : List Kind → Rule Expr) (Q : Expr → Prop) : Prop where
  /-- What is read is a phrase. -/
  sound : ∀ {alternatives : List Kind} {ts rest : List Token} {e : Expr},
    rule alternatives ts = .ok e rest → ∃ us, ts = us ++ rest ∧ Expression us e ∧ Q e
  /-- A phrase is read. -/
  complete : ∀ (alternatives : List Kind) (rest : List Token) {us : List Token} {e : Expr},
    Expression us e → Q e → Stops rest → rule alternatives (us ++ rest) = .ok e rest

/-- A symbol that is neither an operator between operands nor an opening bracket ends an
expression. -/
theorem stops_of_kind {t : Token} {ts : List Token} {k : Kind} (h : t.kind = k)
    (hk : k ∉ Kind.binaries ∧ k ≠ .symbol .openParen ∧ k ≠ .symbol .openBracket) :
    Stops (t :: ts) := by
  subst h
  refine ⟨?_, hk.2.1, hk.2.2⟩
  show t.binary? = none
  rw [← Option.not_isSome_iff_eq_none, ← Token.kind_mem_binaries]
  exact hk.1

/-- What stands at the front of an expression is of a kind that begins one. -/
theorem kind_firstToken {us : List Token} {e : Expr} (h : Expression us e) (rest : List Token) :
    (firstToken (us ++ rest)).kind ∈ Kind.atomStarts := by
  obtain ⟨t, vs, rfl, hk, -⟩ := h.opens
  exact hk

theorem place_firstToken {us rest : List Token} {e : Expr} (h : Expression us e) :
    (firstToken (us ++ rest)).place = e.place := by
  obtain ⟨t, vs, rfl, -, hp⟩ := h.opens
  exact hp

/-- A token of a kind that begins no expression is not skipped in front of one. -/
theorem skipIf_expression {us rest : List Token} {e : Expr} {k : Kind} (h : Expression us e)
    (hk : k ∉ Kind.atomStarts) (hend : k ≠ .eof) :
    skipIf k (us ++ rest) = .ok false (us ++ rest) := by
  refine (skipIf_ok hend).mpr (Or.inr ⟨rfl, rfl, ?_⟩)
  intro he
  exact hk (he ▸ kind_firstToken h rest)

variable {sub : (alternatives : List Kind) → Rule Expr} {Q : Expr → Prop}

/-! ## Arguments -/

/-- An argument behind a comma is a phrase, and the arguments end at the parenthesis. -/
theorem nextArgument_ok {ts rest : List Token} {o : Option Expr} :
    nextArgument sub ts = .ok o rest ↔
      (∃ t, ts = t :: rest ∧ t.kind = .symbol .closeParen ∧ o = none) ∨
        ∃ t mid e, ts = t :: mid ∧ t.kind = .symbol .comma ∧ sub [] mid = .ok e rest ∧
          o = some e := by
  unfold nextArgument
  rw [bind_ok]
  constructor
  · rintro ⟨t, mid, ht, hm⟩
    obtain ⟨rfl, hk⟩ := (token_ok (by decide)).mp ht
    split at hm
    · next hc =>
      obtain ⟨e, he, rfl⟩ := map_ok.mp hm
      exact Or.inr ⟨t, mid, e, rfl, by simpa using hc, he, rfl⟩
    · next hc =>
      obtain ⟨rfl, rfl⟩ := pure_ok.mp hm
      refine Or.inl ⟨t, rfl, ?_, rfl⟩
      simpa [show t.kind ≠ .symbol .comma by simpa using hc] using hk
  · rintro (⟨t, rfl, hk, rfl⟩ | ⟨t, mid, e, rfl, hk, he, rfl⟩)
    · exact ⟨t, rest, (token_ok (by decide)).mpr ⟨rfl, by simp [hk]⟩, by rw [hk]; rfl⟩
    · refine ⟨t, mid, (token_ok (by decide)).mpr ⟨rfl, by simp [hk]⟩, ?_⟩
      rw [hk]
      exact map_ok.mpr ⟨e, he, rfl⟩

theorem moreArguments_sound (hsub : Reads sub Q) {ts rest : List Token} {es : List Expr}
    (h : Collects (nextArgument sub) ts es rest) :
    ∃ us r, ts = us ++ r :: rest ∧ MoreArguments us es ∧ r.kind = .symbol .closeParen ∧
      ∀ e ∈ es, Q e := by
  induction h with
  | done h =>
    rcases nextArgument_ok.mp h with ⟨r, rfl, hr, -⟩ | ⟨_, _, _, _, _, _, ho⟩
    · exact ⟨[], r, rfl, .nil, hr, by simp⟩
    · cases ho
  | more h _ ih =>
    rcases nextArgument_ok.mp h with ⟨_, _, _, ho⟩ | ⟨t, mid, e, rfl, ht, he, ho⟩
    · cases ho
    · cases ho
      obtain ⟨us, rfl, hus, hq⟩ := hsub.sound he
      obtain ⟨vs, r, rfl, hvs, hr, hqs⟩ := ih
      exact ⟨t :: us ++ vs, r, by simp, .cons ht hus hvs, hr, List.forall_mem_cons.mpr ⟨hq, hqs⟩⟩

theorem moreArguments_complete (hsub : Reads sub Q) {r : Token} {rest : List Token}
    (hr : r.kind = .symbol .closeParen) :
    ∀ {us : List Token} {es : List Expr}, MoreArguments us es → (∀ e ∈ es, Q e) →
      Collects (nextArgument sub) (us ++ r :: rest) es rest := by
  intro us es
  induction es generalizing us with
  | nil =>
    intro h _
    cases h
    exact .done (nextArgument_ok.mpr (Or.inl ⟨r, rfl, hr, rfl⟩))
  | cons e es ih =>
    intro h hq
    cases h with
    | @cons t us vs _ _ ht he hes =>
      have hs : Stops (vs ++ r :: rest) := by
        cases hes with
        | nil => exact stops_of_kind hr (by decide)
        | cons hc _ _ => exact stops_of_kind hc (by decide)
      have he' := hsub.complete [] _ he (hq e List.mem_cons_self) hs
      refine .more ?_ (ih hes fun f hf => hq f (List.mem_cons_of_mem e hf))
      exact nextArgument_ok.mpr (Or.inr ⟨t, _, e, by simp, ht, he', rfl⟩)

theorem nextArgument_takes (hsub : Reads sub Q) (ts : List Token) (e : Expr) (rest : List Token)
    (h : nextArgument sub ts = .ok (some e) rest) : rest.length < ts.length := by
  rcases nextArgument_ok.mp h with ⟨_, _, _, ho⟩ | ⟨t, mid, e', rfl, _, he, _⟩
  · cases ho
  · obtain ⟨us, rfl, -, -⟩ := hsub.sound he
    simp only [List.length_cons, List.length_append]
    omega

/-- The arguments of a call are read up to the parenthesis. -/
theorem arguments_ok (hsub : Reads sub Q) {ts rest : List Token} {es : List Expr} :
    arguments sub ts = .ok es rest ↔
      ∃ us r, ts = us ++ r :: rest ∧ Arguments us es ∧ r.kind = .symbol .closeParen ∧
        ∀ e ∈ es, Q e := by
  unfold arguments
  rw [bind_ok]
  constructor
  · rintro ⟨b, mid, hb, hm⟩
    rcases (skipIf_ok (by decide)).mp hb with ⟨rfl, r, rfl, hr⟩ | ⟨rfl, rfl, -⟩
    · obtain ⟨rfl, rfl⟩ := pure_ok.mp hm
      exact ⟨[], r, rfl, .nil, hr, by simp⟩
    · obtain ⟨e, mid, he, hes⟩ := bind_ok.mp hm
      obtain ⟨es', hes', rfl⟩ := map_ok.mp hes
      obtain ⟨us, rfl, hus, hq⟩ := hsub.sound he
      obtain ⟨vs, r, rfl, hvs, hr, hqs⟩ :=
        moreArguments_sound hsub ((collect_ok (nextArgument_takes hsub)).mp hes')
      exact ⟨us ++ vs, r, by simp, .cons hus hvs, hr, List.forall_mem_cons.mpr ⟨hq, hqs⟩⟩
  · rintro ⟨us, r, rfl, hus, hr, hq⟩
    cases hus with
    | nil =>
      exact ⟨true, rest, (skipIf_ok (by decide)).mpr (Or.inl ⟨rfl, r, rfl, hr⟩), rfl⟩
    | @cons us vs e es he hes =>
      have hs : Stops (vs ++ r :: rest) := by
        cases hes with
        | nil => exact stops_of_kind hr (by decide)
        | cons hc _ _ => exact stops_of_kind hc (by decide)
      rw [List.append_assoc]
      refine ⟨false, _, skipIf_expression he (by decide) (by decide), ?_⟩
      have he' := hsub.complete [.symbol .closeParen] _ he (hq e List.mem_cons_self) hs
      have hes' : Collects (nextArgument sub) (vs ++ r :: rest) es rest :=
        moreArguments_complete hsub hr hes fun f hf => hq f (List.mem_cons_of_mem e hf)
      exact bind_ok.mpr ⟨e, _, he', map_ok.mpr
        ⟨es, (collect_ok (nextArgument_takes hsub)).mpr hes', rfl⟩⟩

/-- A call is a name and the arguments in parentheses. -/
theorem call_ok (hsub : Reads sub Q) {ts rest : List Token} {a : Expr} :
    call sub ts = .ok a rest ↔
      ∃ t l us r name es, ts = t :: l :: us ++ r :: rest ∧ t.content = .ident name ∧
        l.kind = .symbol .openParen ∧ Arguments us es ∧ r.kind = .symbol .closeParen ∧
        (∀ e ∈ es, Q e) ∧ a = .call t.place name es := by
  unfold call
  constructor
  · intro h
    obtain ⟨⟨t, name⟩, _, h₁, h⟩ := bind_ok.mp h
    obtain ⟨l, _, h₂, h⟩ := bind_ok.mp h
    obtain ⟨es, h₃, rfl⟩ := map_ok.mp h
    obtain ⟨rfl, ht⟩ := ident_ok.mp h₁
    obtain ⟨rfl, hl⟩ := (token_one_ok (by decide)).mp h₂
    obtain ⟨us, r, rfl, hus, hr, hq⟩ := (arguments_ok hsub).mp h₃
    exact ⟨t, l, us, r, name, es, rfl, ht, hl, hus, hr, hq, rfl⟩
  · rintro ⟨t, l, us, r, name, es, rfl, ht, hl, hus, hr, hq, rfl⟩
    refine bind_ok.mpr ⟨(t, name), _, ident_ok.mpr ⟨rfl, ht⟩, ?_⟩
    refine bind_ok.mpr ⟨l, _, (token_one_ok (by decide)).mpr ⟨rfl, hl⟩, ?_⟩
    exact map_ok.mpr ⟨es, (arguments_ok hsub).mpr ⟨us, r, rfl, hus, hr, hq⟩, rfl⟩

theorem index_ok (hsub : Reads sub Q) {ts rest : List Token} {a : Expr} :
    index sub ts = .ok a rest ↔
      ∃ t l us r name e, ts = t :: l :: us ++ r :: rest ∧ t.content = .ident name ∧
        l.kind = .symbol .openBracket ∧ Expression us e ∧ r.kind = .symbol .closeBracket ∧
        Q e ∧ a = .index t.place name e := by
  unfold index
  constructor
  · intro h
    obtain ⟨⟨t, name⟩, _, h₁, h⟩ := bind_ok.mp h
    obtain ⟨l, _, h₂, h⟩ := bind_ok.mp h
    obtain ⟨e, _, h₃, h⟩ := bind_ok.mp h
    obtain ⟨r, h₄, rfl⟩ := map_ok.mp h
    obtain ⟨rfl, ht⟩ := ident_ok.mp h₁
    obtain ⟨rfl, hl⟩ := (token_one_ok (by decide)).mp h₂
    obtain ⟨us, rfl, hus, hq⟩ := hsub.sound h₃
    obtain ⟨rfl, hr⟩ := (token_one_ok (by decide)).mp h₄
    exact ⟨t, l, us, r, name, e, rfl, ht, hl, hus, hr, hq, rfl⟩
  · rintro ⟨t, l, us, r, name, e, rfl, ht, hl, hus, hr, hq, rfl⟩
    refine bind_ok.mpr ⟨(t, name), _, ident_ok.mpr ⟨rfl, ht⟩, ?_⟩
    refine bind_ok.mpr ⟨l, _, (token_one_ok (by decide)).mpr ⟨rfl, hl⟩, ?_⟩
    refine bind_ok.mpr ⟨e, _, hsub.complete [] _ hus hq (stops_of_kind hr (by decide)), ?_⟩
    exact map_ok.mpr ⟨r, (token_one_ok (by decide)).mpr ⟨rfl, hr⟩, rfl⟩

theorem stepExpr_ok {ts rest : List Token} {a : Expr} :
    stepExpr ts = .ok a rest ↔
      ∃ t u o name, ts = t :: u :: rest ∧ t.step? = some o ∧ u.content = .ident name ∧
        a = .step t.place name o (.int t.place 1) := by
  unfold stepExpr
  constructor
  · intro h
    obtain ⟨⟨t, o⟩, _, h₁, h⟩ := bind_ok.mp h
    obtain ⟨⟨u, name⟩, h₂, rfl⟩ := map_ok.mp h
    obtain ⟨t', rfl, ht⟩ := (accept_ok (by rfl)).mp h₁
    obtain ⟨o', ho, he⟩ := Option.map_eq_some_iff.mp ht
    cases he
    obtain ⟨rfl, hu⟩ := ident_ok.mp h₂
    exact ⟨t, u, o, name, rfl, ho, hu, rfl⟩
  · rintro ⟨t, u, o, name, rfl, ho, hu, rfl⟩
    refine bind_ok.mpr ⟨(t, o), _, (accept_ok (by rfl)).mpr ⟨t, rfl, by simp [ho]⟩, ?_⟩
    exact map_ok.mpr ⟨(u, name), ident_ok.mpr ⟨rfl, hu⟩, rfl⟩

/-! ## Lists -/

theorem dots_sound {ts rest : List Token} {b : Bool}
    (h : skipIf (.symbol .dots) ts = .ok b rest) : ∃ us, ts = us ++ rest ∧ Dots us b := by
  rcases (skipIf_ok (by decide)).mp h with ⟨rfl, t, rfl, ht⟩ | ⟨rfl, rfl, -⟩
  · exact ⟨[t], rfl, .present ht⟩
  · exact ⟨[], rfl, .absent⟩

theorem dots_complete {us rest : List Token} {b : Bool} (h : Dots us b)
    (hr : (firstToken rest).kind ≠ .symbol .dots) :
    skipIf (.symbol .dots) (us ++ rest) = .ok b rest := by
  refine (skipIf_ok (by decide)).mpr ?_
  cases h with
  | absent => exact Or.inr ⟨rfl, rfl, hr⟩
  | @present t ht => exact Or.inl ⟨rfl, t, rfl, ht⟩

theorem Dots.stops {us rest : List Token} {b : Bool} (h : Dots us b) (hr : Stops rest) :
    Stops (us ++ rest) := by
  cases h with
  | absent => exact hr
  | present ht => exact stops_of_kind ht (by decide)

/-- Whether the tokens ahead carry on a list behind an item. -/
def EndsItem (ts : List Token) : Prop :=
  (firstToken ts).kind = .symbol .comma ∨ (firstToken ts).kind = .symbol .closeBracket

theorem EndsItem.stops {ts : List Token} (h : EndsItem ts) : Stops ts := by
  cases ts with
  | nil => rcases h with h | h <;> cases h
  | cons t ts =>
    rcases h with h | h
    · exact stops_of_kind (show t.kind = _ from h) (by decide)
    · exact stops_of_kind (show t.kind = _ from h) (by decide)

theorem EndsItem.no_dots {ts : List Token} (h : EndsItem ts) :
    (firstToken ts).kind ≠ .symbol .dots := by
  rcases h with h | h <;> rw [h] <;> decide

theorem itemBody_sound (hsub : Reads sub Q) {isPack : Bool} {ts rest : List Token} {i : Item}
    {isSpread : Bool} (h : itemBody sub isPack ts = .ok (i, isSpread) rest) :
    ∃ us vs e, ts = us ++ vs ++ rest ∧ Expression us e ∧ Dots vs isSpread ∧ Q e ∧
      i = .mk e.place e isSpread isPack := by
  obtain ⟨t, _, h₁, h⟩ := bind_ok.mp h
  obtain ⟨e, _, h₂, h⟩ := bind_ok.mp h
  obtain ⟨s, h₃, hi⟩ := map_ok.mp h
  obtain ⟨rfl, rfl⟩ := here_ok.mp h₁
  obtain ⟨us, rfl, he, hq⟩ := hsub.sound h₂
  obtain ⟨vs, rfl, hv⟩ := dots_sound h₃
  cases hi
  rw [place_firstToken he]
  exact ⟨us, vs, e, by simp, he, hv, hq, rfl⟩

theorem itemBody_complete (hsub : Reads sub Q) {isPack isSpread : Bool}
    {us vs rest : List Token} {e : Expr} (he : Expression us e) (hv : Dots vs isSpread) (hq : Q e)
    (hr : EndsItem rest) :
    itemBody sub isPack (us ++ vs ++ rest) =
      .ok (.mk e.place e isSpread isPack, isSpread) rest := by
  rw [List.append_assoc]
  refine bind_ok.mpr ⟨_, _, here_ok.mpr ⟨rfl, rfl⟩, ?_⟩
  refine bind_ok.mpr ⟨e, _, hsub.complete _ _ he hq (Dots.stops hv hr.stops), ?_⟩
  refine map_ok.mpr ⟨isSpread, dots_complete hv hr.no_dots, ?_⟩
  rw [place_firstToken he]

/-- Behind an item the list ends, perhaps with one more comma, or another item follows. -/
theorem nextItem_sound (hsub : Reads sub Q) {follow : List Kind} {ts rest : List Token}
    {o : Option (Item × List Kind)} (h : nextItem sub follow ts = .ok o rest) :
    (∃ us r, ts = us ++ r :: rest ∧ MoreItems us [] ∧ r.kind = .symbol .closeBracket ∧ o = none) ∨
      ∃ t us i follow', ts = t :: us ++ rest ∧ t.kind = .symbol .comma ∧ ListItem us i ∧
        Q i.expression ∧ o = some (i, follow') := by
  obtain ⟨t, mid, h₁, k₁⟩ := bind_ok.mp h
  obtain ⟨rfl, hk⟩ := (token_ok (by decide)).mp h₁
  split at k₁
  · next hc =>
    have hc : t.kind = .symbol .comma := by simpa using hc
    obtain ⟨b, _, h₂, k₂⟩ := bind_ok.mp k₁
    rcases (skipIf_ok (by decide)).mp h₂ with ⟨rfl, r, rfl, hr⟩ | ⟨rfl, rfl, -⟩
    · obtain ⟨rfl, rfl⟩ := pure_ok.mp k₂
      exact Or.inl ⟨[t], r, rfl, .comma hc, hr, rfl⟩
    · obtain ⟨isPack, _, h₃, k₃⟩ := bind_ok.mp k₂
      obtain ⟨⟨i, isSpread⟩, h₄, rfl⟩ := map_ok.mp k₃
      obtain ⟨ps, rfl, hp⟩ := dots_sound h₃
      obtain ⟨us, vs, e, rfl, he, hv, hq, rfl⟩ := itemBody_sound hsub h₄
      exact Or.inr ⟨t, ps ++ us ++ vs, _, _, by simp, hc, .mk hp he hv, hq, rfl⟩
  · next hc =>
    obtain ⟨rfl, rfl⟩ := pure_ok.mp k₁
    refine Or.inl ⟨[], t, rfl, .nil, ?_, rfl⟩
    simpa [show t.kind ≠ .symbol .comma by simpa using hc] using hk

theorem nextItem_takes (hsub : Reads sub Q) : Takes (nextItem sub) := by
  intro follow ts i follow' rest h
  rcases nextItem_sound hsub h with ⟨_, _, _, _, _, ho⟩ | ⟨t, us, i', _, rfl, _, _, _, _⟩
  · cases ho
  · simp only [List.length_cons, List.length_append]
    omega

theorem moreItems_sound (hsub : Reads sub Q) {follow : List Kind} {ts rest : List Token}
    {is : List Item} (h : Repeats (nextItem sub) follow ts is rest) :
    ∃ us r, ts = us ++ r :: rest ∧ MoreItems us is ∧ r.kind = .symbol .closeBracket ∧
      ∀ i ∈ is, Q i.expression := by
  induction h with
  | done h =>
    rcases nextItem_sound hsub h with ⟨us, r, rfl, hus, hr, -⟩ | ⟨_, _, _, _, _, _, _, _, ho⟩
    · exact ⟨us, r, rfl, hus, hr, by simp⟩
    · cases ho
  | more h _ ih =>
    rcases nextItem_sound hsub h with ⟨_, _, _, _, _, ho⟩ | ⟨t, us, i, _, rfl, ht, hi, hq, ho⟩
    · cases ho
    · cases ho
      obtain ⟨vs, r, rfl, hvs, hr, hqs⟩ := ih
      exact ⟨t :: us ++ vs, r, by simp, .cons ht hi hvs, hr, List.forall_mem_cons.mpr ⟨hq, hqs⟩⟩

/-- No item begins with the bracket that ends the list. -/
theorem skipIf_item {us : List Token} {i : Item} (h : ListItem us i) (rest : List Token) :
    skipIf (.symbol .closeBracket) (us ++ rest) = .ok false (us ++ rest) := by
  cases h with
  | @mk ps us ss e isPack isSpread hp he hs =>
    cases hp with
    | absent =>
      rw [List.nil_append, List.append_assoc]
      exact skipIf_expression he (by decide) (by decide)
    | @present d hd =>
      refine (skipIf_ok (by decide)).mpr (Or.inr ⟨rfl, rfl, ?_⟩)
      show d.kind ≠ _
      rw [hd]
      decide

theorem kind_ne_dots {us rest : List Token} {e : Expr} (h : Expression us e) :
    (firstToken (us ++ rest)).kind ≠ .symbol .dots := by
  intro hd
  have hk := kind_firstToken h rest
  rw [hd] at hk
  exact absurd hk (by decide)

/-- An item behind a comma is read up to what ends it. -/
theorem nextItem_complete (hsub : Reads sub Q) {t : Token} {us rest : List Token} {i : Item}
    (follow : List Kind) (ht : t.kind = .symbol .comma) (hi : ListItem us i)
    (hq : Q i.expression) (hr : EndsItem rest) :
    ∃ follow', nextItem sub follow (t :: us ++ rest) = .ok (some (i, follow')) rest := by
  have hopen := skipIf_item hi rest
  cases hi with
  | @mk ps us ss e isPack isSpread hp he hs =>
    refine ⟨itemFollow isSpread, bind_ok.mpr ⟨t, _, (token_ok (by decide)).mpr
      ⟨rfl, by simp [ht]⟩, ?_⟩⟩
    rw [ht]
    refine bind_ok.mpr ⟨false, _, hopen, ?_⟩
    have hps : skipIf (.symbol .dots) (ps ++ (us ++ ss ++ rest)) = .ok isPack (us ++ ss ++ rest) :=
      dots_complete hp (by rw [List.append_assoc]; exact kind_ne_dots he)
    rw [← List.append_assoc, ← List.append_assoc] at hps
    refine bind_ok.mpr ⟨isPack, _, hps, ?_⟩
    exact map_ok.mpr ⟨_, itemBody_complete hsub he hs hq hr, rfl⟩

theorem MoreItems.endsItem {us : List Token} {is : List Item} {r : Token} (h : MoreItems us is)
    (hr : r.kind = .symbol .closeBracket) (rest : List Token) : EndsItem (us ++ r :: rest) := by
  cases h with
  | nil => exact Or.inr hr
  | comma ht => exact Or.inl ht
  | cons ht _ _ => exact Or.inl ht

theorem moreItems_complete (hsub : Reads sub Q) {r : Token} {rest : List Token}
    (hr : r.kind = .symbol .closeBracket) :
    ∀ {us : List Token} {is : List Item} (follow : List Kind), MoreItems us is →
      (∀ i ∈ is, Q i.expression) → Repeats (nextItem sub) follow (us ++ r :: rest) is rest := by
  intro us is
  induction is generalizing us with
  | nil =>
    intro follow h _
    refine .done ?_
    cases h with
    | nil =>
      refine bind_ok.mpr ⟨r, rest, (token_ok (by decide)).mpr ⟨rfl, by simp [hr]⟩, ?_⟩
      rw [hr]
      rfl
    | @comma t ht =>
      refine bind_ok.mpr ⟨t, r :: rest, (token_ok (by decide)).mpr ⟨rfl, by simp [ht]⟩, ?_⟩
      rw [ht]
      exact bind_ok.mpr ⟨true, rest, (skipIf_ok (by decide)).mpr (Or.inl ⟨rfl, r, rfl, hr⟩), rfl⟩
  | cons i is ih =>
    intro follow h hq
    cases h with
    | @cons t us vs _ _ ht hi his =>
      obtain ⟨follow', hi'⟩ := nextItem_complete hsub follow ht hi (hq i List.mem_cons_self)
        (MoreItems.endsItem his hr rest)
      rw [List.append_assoc]
      exact .more hi' (ih follow' his fun j hj => hq j (List.mem_cons_of_mem i hj))

/-! ## Lists and comprehensions -/

theorem comprehension_ok (hsub : Reads sub Q) {p : Place} {body : Expr} {ts rest : List Token}
    {a : Expr} :
    comprehension sub p body ts = .ok a rest ↔
      ∃ f t i us r name source, ts = f :: t :: i :: us ++ r :: rest ∧
        f.kind = .keyword .forWord ∧ t.content = .ident name ∧ i.kind = .keyword .inWord ∧
        Expression us source ∧ r.kind = .symbol .closeBracket ∧ Q source ∧
        a = .comprehension p body name source := by
  unfold comprehension
  constructor
  · intro h
    obtain ⟨f, _, h₁, k₁⟩ := bind_ok.mp h
    obtain ⟨⟨t, name⟩, _, h₂, k₂⟩ := bind_ok.mp k₁
    obtain ⟨i, _, h₃, k₃⟩ := bind_ok.mp k₂
    obtain ⟨source, _, h₄, k₄⟩ := bind_ok.mp k₃
    obtain ⟨r, h₅, rfl⟩ := map_ok.mp k₄
    obtain ⟨rfl, hf⟩ := (token_one_ok (by decide)).mp h₁
    obtain ⟨rfl, ht⟩ := ident_ok.mp h₂
    obtain ⟨rfl, hi⟩ := (token_one_ok (by decide)).mp h₃
    obtain ⟨us, rfl, hs, hq⟩ := hsub.sound h₄
    obtain ⟨rfl, hr⟩ := (token_one_ok (by decide)).mp h₅
    exact ⟨f, t, i, us, r, name, source, rfl, hf, ht, hi, hs, hr, hq, rfl⟩
  · rintro ⟨f, t, i, us, r, name, source, rfl, hf, ht, hi, hs, hr, hq, rfl⟩
    refine bind_ok.mpr ⟨f, _, (token_one_ok (by decide)).mpr ⟨rfl, hf⟩, ?_⟩
    refine bind_ok.mpr ⟨(t, name), _, ident_ok.mpr ⟨rfl, ht⟩, ?_⟩
    refine bind_ok.mpr ⟨i, _, (token_one_ok (by decide)).mpr ⟨rfl, hi⟩, ?_⟩
    refine bind_ok.mpr ⟨source, _, hsub.complete [] _ hs hq (stops_of_kind hr (by decide)), ?_⟩
    exact map_ok.mpr ⟨r, (token_one_ok (by decide)).mpr ⟨rfl, hr⟩, rfl⟩

theorem listFrom_sound (hsub : Reads sub Q) {p q : Place} {head : Expr} {isPack : Bool}
    {ts rest : List Token} {a : Expr} (h : listFrom sub p q head isPack ts = .ok a rest) :
    ∃ ss us r is isSpread, ts = ss ++ us ++ r :: rest ∧ Dots ss isSpread ∧ MoreItems us is ∧
      r.kind = .symbol .closeBracket ∧ (∀ i ∈ is, Q i.expression) ∧
      a = .list p (.mk q head isSpread isPack :: is) := by
  obtain ⟨isSpread, _, h₁, k₁⟩ := bind_ok.mp h
  obtain ⟨is, h₂, rfl⟩ := map_ok.mp k₁
  obtain ⟨ss, rfl, hs⟩ := dots_sound h₁
  obtain ⟨us, r, rfl, hus, hr, hq⟩ := moreItems_sound hsub ((unfold_ok (nextItem_takes hsub)).mp h₂)
  exact ⟨ss, us, r, is, isSpread, by simp, hs, hus, hr, hq, rfl⟩

theorem listFrom_complete (hsub : Reads sub Q) {p q : Place} {head : Expr} {isPack isSpread : Bool}
    {ss us rest : List Token} {r : Token} {is : List Item} (hs : Dots ss isSpread)
    (hus : MoreItems us is) (hr : r.kind = .symbol .closeBracket)
    (hq : ∀ i ∈ is, Q i.expression) :
    listFrom sub p q head isPack (ss ++ (us ++ r :: rest)) =
      .ok (.list p (.mk q head isSpread isPack :: is)) rest := by
  have hno := (MoreItems.endsItem hus hr rest).no_dots
  refine bind_ok.mpr ⟨isSpread, _, dots_complete hs hno, ?_⟩
  exact map_ok.mpr ⟨is, (unfold_ok (nextItem_takes hsub)).mpr
    (moreItems_complete hsub hr _ hus hq), rfl⟩

/-- What is read between brackets is an atom whose parts are read. -/
theorem list_sound (hsub : Reads sub Q) {ts rest : List Token} {a : Expr}
    (h : list sub ts = .ok a rest) :
    ∃ us, ts = us ++ rest ∧ Atom us a ∧ ∀ c ∈ a.parts, Q c := by
  obtain ⟨l, _, h₁, k₁⟩ := bind_ok.mp h
  obtain ⟨b, _, h₂, k₂⟩ := bind_ok.mp k₁
  obtain ⟨rfl, hl⟩ := (token_one_ok (by decide)).mp h₁
  rcases (skipIf_ok (by decide)).mp h₂ with ⟨rfl, r, rfl, hr⟩ | ⟨rfl, rfl, -⟩
  · obtain ⟨rfl, rfl⟩ := pure_ok.mp k₂
    exact ⟨l :: [] ++ [r], rfl, .list hl .nil hr, by simp [Expr.parts]⟩
  · obtain ⟨isPack, _, h₃, k₃⟩ := bind_ok.mp k₂
    obtain ⟨first, _, h₄, k₄⟩ := bind_ok.mp k₃
    obtain ⟨head, _, h₅, k₅⟩ := bind_ok.mp k₄
    obtain ⟨isFor, _, h₆, k₆⟩ := bind_ok.mp k₅
    obtain ⟨ps, rfl, hp⟩ := dots_sound h₃
    obtain ⟨rfl, rfl⟩ := here_ok.mp h₄
    obtain ⟨us, rfl, he, hq⟩ := hsub.sound h₅
    obtain ⟨rfl, rfl⟩ := isHere_ok.mp h₆
    split at k₆
    · next hc =>
      obtain ⟨f, t, i, vs, r, name, source, rfl, hf, ht, hi, hs, hr, hq', rfl⟩ :=
        (comprehension_ok hsub).mp k₆
      cases hp with
      | present _ => simp at hc
      | absent =>
        refine ⟨l :: us ++ f :: t :: i :: vs ++ [r], by simp, ?_, ?_⟩
        · exact .comprehension hl he hf ht hi hs hr
        · simp [Expr.parts, hq, hq']
    · next hc =>
      obtain ⟨ss, vs, r, is, isSpread, rfl, hs, hvs, hr, hqs, rfl⟩ := listFrom_sound hsub k₆
      rw [place_firstToken he]
      refine ⟨l :: (ps ++ us ++ ss ++ vs) ++ [r], by simp, ?_, ?_⟩
      · exact .list hl (.cons (.mk hp he hs) hvs) hr
      · intro c hc
        rcases List.mem_cons.mp hc with rfl | hc
        · exact hq
        · obtain ⟨i, hi, rfl⟩ := List.mem_map.mp hc
          exact hqs i hi

theorem list_complete (hsub : Reads sub Q) (rest : List Token) {l r : Token} {us : List Token}
    {is : List Item}
    (hl : l.kind = .symbol .openBracket) (his : Items us is) (hr : r.kind = .symbol .closeBracket)
    (hq : ∀ i ∈ is, Q i.expression) :
    list sub (l :: us ++ r :: rest) = .ok (.list l.place is) rest := by
  refine bind_ok.mpr ⟨l, us ++ r :: rest, (token_one_ok (by decide)).mpr ⟨rfl, hl⟩, ?_⟩
  cases his with
  | nil =>
    exact bind_ok.mpr ⟨true, rest, (skipIf_ok (by decide)).mpr (Or.inl ⟨rfl, r, rfl, hr⟩), rfl⟩
  | @cons us vs i is hi his =>
    rw [List.append_assoc]
    refine bind_ok.mpr ⟨false, _, skipIf_item hi _, ?_⟩
    cases hi with
    | @mk ps us ss e isPack isSpread hp he hs =>
      have hend := MoreItems.endsItem his hr rest
      simp only [List.append_assoc]
      refine bind_ok.mpr ⟨isPack, _, dots_complete hp (kind_ne_dots he), ?_⟩
      refine bind_ok.mpr ⟨_, _, here_ok.mpr ⟨rfl, rfl⟩, ?_⟩
      refine bind_ok.mpr ⟨e, _, hsub.complete _ _ he (hq _ List.mem_cons_self)
        (Dots.stops hs hend.stops), ?_⟩
      refine bind_ok.mpr ⟨_, _, isHere_ok.mpr ⟨rfl, rfl⟩, ?_⟩
      have hfor : (firstToken (ss ++ (vs ++ r :: rest))).kind ≠ .keyword .forWord := by
        cases hs with
        | absent => rcases hend with h | h <;> rw [List.nil_append, h] <;> decide
        | @present d hd =>
          show d.kind ≠ _
          rw [hd]
          decide
      rw [if_neg (by simp [hfor]), place_firstToken he]
      exact listFrom_complete hsub hs his hr fun j hj => hq j (List.mem_cons_of_mem _ hj)

theorem list_complete_comprehension (hsub : Reads sub Q) (rest : List Token) {l f t i r : Token}
    {name : String} {us vs : List Token} {body source : Expr} (hl : l.kind = .symbol .openBracket)
    (hb : Expression us body) (hf : f.kind = .keyword .forWord) (ht : t.content = .ident name)
    (hi : i.kind = .keyword .inWord) (hs : Expression vs source)
    (hr : r.kind = .symbol .closeBracket) (hqb : Q body) (hqs : Q source) :
    list sub (l :: us ++ f :: t :: i :: vs ++ r :: rest) =
      .ok (.comprehension l.place body name source) rest := by
  rw [List.append_assoc]
  refine bind_ok.mpr ⟨l, _, (token_one_ok (by decide)).mpr ⟨rfl, hl⟩, ?_⟩
  refine bind_ok.mpr ⟨false, _, skipIf_expression hb (by decide) (by decide), ?_⟩
  refine bind_ok.mpr ⟨false, _, skipIf_expression hb (by decide) (by decide), ?_⟩
  refine bind_ok.mpr ⟨_, _, here_ok.mpr ⟨rfl, rfl⟩, ?_⟩
  refine bind_ok.mpr ⟨body, _, hsub.complete _ _ hb hqb (stops_of_kind hf (by decide)), ?_⟩
  refine bind_ok.mpr ⟨_, _, isHere_ok.mpr ⟨rfl, rfl⟩, ?_⟩
  rw [if_pos (by simp [firstToken, hf])]
  exact (comprehension_ok hsub).mpr
    ⟨f, t, i, vs, r, name, source, rfl, hf, ht, hi, hs, hr, hqs, rfl⟩

/-! ## Atoms -/

theorem leaf_ok {e a : Expr} {ts rest : List Token} :
    leaf e ts = .ok a rest ↔ e = a ∧ ts.tail = rest := by
  show EStateM.Result.ok e ts.tail = .ok a rest ↔ _
  rw [EStateM.Result.ok.injEq]

/-- A token that says something other than the end is the first of the list. -/
theorem exists_cons_of_content {ts : List Token} {c : Content} (h : (firstToken ts).content = c)
    (hc : c.kind ≠ .eof) : ∃ t, ts = t :: ts.tail ∧ t.content = c := by
  have hk : (firstToken ts).kind ≠ .eof := by
    rw [Token.kind_eq h]
    exact hc
  obtain ⟨t, rest, rfl, ht⟩ := exists_cons_of_firstToken hk
  exact ⟨t, rfl, h⟩

theorem leaf_sound (e : Place → Expr) {a : Expr} {c : Content} {ts rest : List Token}
    (h : leaf (e (firstToken ts).place) ts = .ok a rest) (hc : (firstToken ts).content = c)
    (hend : c.kind ≠ .eof) (he : ∀ t : Token, t.content = c → Atom [t] (e t.place))
    (hparts : ∀ p, (e p).parts = []) :
    ∃ us, ts = us ++ rest ∧ Atom us a ∧ ∀ d ∈ a.parts, Q d := by
  obtain ⟨rfl, rfl⟩ := leaf_ok.mp h
  obtain ⟨t, hts, ht⟩ := exists_cons_of_content hc hend
  rw [hts]
  exact ⟨[t], rfl, he t ht, by simp [hparts, firstToken]⟩

theorem named_sound (hsub : Reads sub Q) {t : Token} {name : String} {ts rest : List Token}
    {a : Expr} (ht : t.content = .ident name)
    (h : named sub t name (t :: ts) = .ok a rest) :
    ∃ us, t :: ts = us ++ rest ∧ Atom us a ∧ ∀ c ∈ a.parts, Q c := by
  obtain ⟨k, _, h₁, k₁⟩ := bind_ok.mp h
  obtain ⟨rfl, rfl⟩ := next_ok.mp h₁
  split at k₁
  · obtain ⟨t', l, us, r, name', es, he, ht', hl, hus, hr, hq, rfl⟩ := (call_ok hsub).mp k₁
    rw [he]
    exact ⟨t' :: l :: us ++ [r], by simp, .call ht' hl hus hr, hq⟩
  · split at k₁
    · obtain ⟨t', l, us, r, name', e, he, ht', hl, hus, hr, hq, rfl⟩ := (index_ok hsub).mp k₁
      rw [he]
      exact ⟨t' :: l :: us ++ [r], by simp, .index ht' hl hus hr, by simpa [Expr.parts] using hq⟩
    · obtain ⟨rfl, rfl⟩ := leaf_ok.mp k₁
      exact ⟨[t], rfl, .ident ht, by simp [Expr.parts]⟩

theorem stepExpr_sound {ts rest : List Token} {a : Expr} (h : stepExpr ts = .ok a rest) :
    ∃ us, ts = us ++ rest ∧ Atom us a ∧ ∀ c ∈ a.parts, Q c := by
  obtain ⟨t, u, o, name, rfl, ht, hu, rfl⟩ := stepExpr_ok.mp h
  exact ⟨[t, u], rfl, .step ht hu, by simp [Expr.parts]⟩

/-- What the rule for atoms reads is an atom whose parts are read. -/
theorem atom_sound (hsub : Reads sub Q) {alternatives : List Kind} {ts rest : List Token}
    {a : Expr} (h : atom sub alternatives ts = .ok a rest) :
    ∃ us, ts = us ++ rest ∧ Atom us a ∧ ∀ c ∈ a.parts, Q c := by
  obtain ⟨t, _, h₁, k₁⟩ := bind_ok.mp h
  obtain ⟨rfl, rfl⟩ := here_ok.mp h₁
  cases hc : (firstToken ts).content with
  | int n =>
    simp only [hc] at k₁
    exact leaf_sound (.int · n) k₁ hc nofun (fun _ => .int) fun _ => rfl
  | float x =>
    simp only [hc] at k₁
    exact leaf_sound (.float · x) k₁ hc nofun (fun _ => .float) fun _ => rfl
  | string s =>
    simp only [hc] at k₁
    exact leaf_sound (.string · s) k₁ hc nofun (fun _ => .string) fun _ => rfl
  | char s =>
    simp only [hc] at k₁
    exact leaf_sound (.char · s) k₁ hc nofun (fun _ => .char) fun _ => rfl
  | bool b =>
    simp only [hc] at k₁
    exact leaf_sound (.bool · b) k₁ hc nofun (fun _ => .bool) fun _ => rfl
  | ident name =>
    obtain ⟨t, hts, ht⟩ := exists_cons_of_content hc nofun
    simp only [hc] at k₁
    rw [hts] at k₁ ⊢
    exact named_sound hsub ht k₁
  | symbol s text =>
    simp only [hc] at k₁
    cases s with
    | openBracket => exact list_sound hsub k₁
    | increment => exact stepExpr_sound k₁
    | decrement => exact stepExpr_sound k₁
    | _ => cases k₁
  | keyword k text =>
    simp only [hc] at k₁
    cases k₁
  | eof text =>
    simp only [hc] at k₁
    cases k₁
  | other name text =>
    simp only [hc] at k₁
    cases k₁

/-- An atom whose parts are read is read, unless a bracket behind a name makes another one. -/
theorem atom_complete (hsub : Reads sub Q) (alternatives : List Kind) {us rest : List Token}
    {a : Expr} (h : Atom us a) (hq : ∀ c ∈ a.parts, Q c)
    (hrest : ∀ p name, a = .ident p name → Apart rest) :
    atom sub alternatives (us ++ rest) = .ok a rest := by
  refine bind_ok.mpr ⟨_, _, here_ok.mpr ⟨rfl, rfl⟩, ?_⟩
  cases h with
  | int h => simp only [List.cons_append, firstToken, h]; rfl
  | float h => simp only [List.cons_append, firstToken, h]; rfl
  | string h => simp only [List.cons_append, firstToken, h]; rfl
  | char h => simp only [List.cons_append, firstToken, h]; rfl
  | bool h => simp only [List.cons_append, firstToken, h]; rfl
  | @ident t name h =>
    simp only [List.cons_append, firstToken, h]
    refine bind_ok.mpr ⟨_, _, next_ok.mpr ⟨rfl, rfl⟩, ?_⟩
    have hapart := hrest _ _ rfl
    rw [if_neg (by simpa using hapart.1), if_neg (by simpa using hapart.2)]
    rfl
  | @step t u o name ht hu =>
    have hs := stepExpr_ok.mpr ⟨t, u, o, name, (rfl : t :: u :: rest = _), ht, hu, rfl⟩
    rcases Token.step?_eq_some.mp ht with ⟨hk, -⟩ | ⟨hk, -⟩
    · obtain ⟨text, hc⟩ := Token.exists_text hk
      simp only [List.cons_append, firstToken, hc]
      exact hs
    · obtain ⟨text, hc⟩ := Token.exists_text hk
      simp only [List.cons_append, firstToken, hc]
      exact hs
  | @call t l r name us es ht hl hes hr =>
    simp only [List.cons_append, firstToken, ht]
    refine bind_ok.mpr ⟨_, _, next_ok.mpr ⟨rfl, rfl⟩, ?_⟩
    rw [if_pos (by simp [firstToken, hl])]
    exact (call_ok hsub).mpr ⟨t, l, us, r, name, es, by simp, ht, hl, hes, hr, hq, rfl⟩
  | @index t l r name us e ht hl he hr =>
    simp only [List.cons_append, firstToken, ht]
    refine bind_ok.mpr ⟨_, _, next_ok.mpr ⟨rfl, rfl⟩, ?_⟩
    rw [if_neg (by simp [firstToken, hl]), if_pos (by simp [firstToken, hl])]
    exact (index_ok hsub).mpr
      ⟨t, l, us, r, name, e, by simp, ht, hl, he, hr, hq e List.mem_cons_self, rfl⟩
  | @list l r us is hl his hr =>
    obtain ⟨text, hc⟩ := Token.exists_text hl
    simp only [List.cons_append, firstToken, hc]
    have hq' : ∀ i ∈ is, Q i.expression := fun i hi => hq _ (List.mem_map_of_mem hi)
    simpa using list_complete hsub rest hl his hr hq'
  | @comprehension l f t i r name us vs body source hl hb hf ht hi hs hr =>
    obtain ⟨text, hc⟩ := Token.exists_text hl
    simp only [List.cons_append, firstToken, hc]
    have hqb : Q body := hq _ (by simp [Expr.parts])
    have hqs : Q source := hq _ (by simp [Expr.parts])
    simpa using list_complete_comprehension hsub rest hl hb hf ht hi hs hr hqb hqs

/-! ## Chains -/

/-- Behind an atom the chain goes on with an operator, or stops. -/
theorem Chain.apart {us rest : List Token} {a e : Expr} (h : Chain us a e) (hr : Stops rest) :
    Apart (us ++ rest) := by
  cases h with
  | nil => exact hr.2
  | @cons t o us vs _ b _ ht hb hc =>
    obtain ⟨s, hk, hs⟩ := Token.binary?_eq_some_iff.mp ht
    show t.kind ≠ _ ∧ t.kind ≠ _
    rw [hk]
    cases s <;> cases hs <;> exact ⟨by decide, by decide⟩

variable (limit : Int)

/-- What the rule for the rest of a chain reads, with some levels left: the chains behind
`lhs` that take no more levels than the operators of `lhs` and the levels left make up. -/
structure ReadsChain (levels : Nat) : Prop where
  /-- What is read is a chain. -/
  sound : ∀ {lhs e : Expr} {ts rest : List Token}, lhs.levels ≤ levels + lhs.operators + 1 →
    chain limit levels lhs ts = .ok e rest →
      ∃ us, ts = us ++ rest ∧ Chain us lhs e ∧ e.levels ≤ levels + lhs.operators + 1
  /-- A chain is read. -/
  complete : ∀ {lhs e : Expr} {us rest : List Token}, Chain us lhs e →
    e.levels ≤ levels + lhs.operators + 1 → Stops rest →
      chain limit levels lhs (us ++ rest) = .ok e rest

theorem chain_zero_ok {lhs e : Expr} {ts rest : List Token} :
    chain limit 0 lhs ts = .ok e rest ↔
      (firstToken ts).binary? = none ∧ lhs = e ∧ ts = rest := by
  rw [chain, bind_ok]
  constructor
  · rintro ⟨t, _, h₁, k₁⟩
    obtain ⟨rfl, rfl⟩ := here_ok.mp h₁
    cases hb : (firstToken ts).binary? with
    | none =>
      simp only [hb] at k₁
      exact ⟨rfl, pure_ok.mp k₁⟩
    | some o =>
      simp only [hb] at k₁
      cases k₁
  · rintro ⟨hb, rfl, rfl⟩
    refine ⟨_, _, here_ok.mpr ⟨rfl, rfl⟩, ?_⟩
    rw [hb]
    rfl

theorem chain_zero_error {lhs : Expr} {ts : List Token} {o : Operator}
    (ht : (firstToken ts).binary? = some o) :
    chain limit 0 lhs ts =
      .error (.located (firstToken ts).position (.tooDeep limit)) ts := by
  rw [chain, bind_of_ok (here_ok.mpr ⟨rfl, rfl⟩), ht]
  rfl

theorem chain_of_none {levels : Nat} {lhs : Expr} {ts : List Token}
    (ht : (firstToken ts).binary? = none) : chain limit levels lhs ts = .ok lhs ts := by
  cases levels with
  | zero =>
    rw [chain, bind_of_ok (here_ok.mpr ⟨rfl, rfl⟩), ht]
    rfl
  | succ levels =>
    rw [chain, bind_of_ok (here_ok.mpr ⟨rfl, rfl⟩), ht]
    rfl

/-- A chain goes on over an operator and an atom, and stops elsewhere. -/
theorem chain_succ_ok {levels : Nat} {lhs e : Expr} {ts rest : List Token} :
    chain limit (levels + 1) lhs ts = .ok e rest ↔
      (firstToken ts).binary? = none ∧ lhs = e ∧ ts = rest ∨
        ∃ t ts' o b mid, ts = t :: ts' ∧ t.binary? = some o ∧
          atom (expression limit levels) [] ts' = .ok b mid ∧
          chain limit levels (.operation lhs.place lhs o b) mid = .ok e rest := by
  rw [chain, bind_ok]
  constructor
  · rintro ⟨t, _, h₁, k₁⟩
    obtain ⟨rfl, rfl⟩ := here_ok.mp h₁
    cases hb : (firstToken ts).binary? with
    | none =>
      simp only [hb] at k₁
      exact Or.inl ⟨rfl, pure_ok.mp k₁⟩
    | some o =>
      simp only [hb] at k₁
      obtain ⟨_, mid, h₂, k₂⟩ := bind_ok.mp k₁
      obtain ⟨b, mid', h₃, k₃⟩ := bind_ok.mp k₂
      obtain ⟨t, ts', rfl, ht⟩ := exists_cons_of_firstToken (kind_ne_eof_of_binary? hb)
      cases h₂
      exact Or.inr ⟨t, ts', o, b, mid', rfl, hb, h₃, k₃⟩
  · rintro (⟨hb, rfl, rfl⟩ | ⟨t, ts', o, b, mid, rfl, ht, hb, hc⟩)
    · refine ⟨_, _, here_ok.mpr ⟨rfl, rfl⟩, ?_⟩
      rw [hb]
      rfl
    · refine ⟨_, _, here_ok.mpr ⟨rfl, rfl⟩, ?_⟩
      simp only [firstToken, ht]
      exact bind_ok.mpr ⟨(), ts', rfl, bind_ok.mpr ⟨b, mid, hb, hc⟩⟩

theorem readsChain_zero : ReadsChain limit 0 where
  sound := by
    intro lhs e ts rest hl h
    obtain ⟨-, rfl, rfl⟩ := (chain_zero_ok limit).mp h
    exact ⟨[], rfl, .nil, hl⟩
  complete := by
    intro lhs e us rest h he hr
    refine (chain_zero_ok limit).mpr ?_
    cases h with
    | nil => exact ⟨hr.1, rfl, rfl⟩
    | @cons t o us vs _ b _ ht hb hc =>
      -- an operator needs a level
      have hle := Chain.levels_le hc
      have hb' := Expr.levels_pos b
      rw [Expr.levels_operation] at hle
      omega

theorem readsChain_succ {levels : Nat}
    (hexpr : Reads (expression limit levels) (·.levels ≤ levels))
    (hchain : ReadsChain limit levels) : ReadsChain limit (levels + 1) where
  sound := by
    intro lhs e ts rest hl h
    rcases (chain_succ_ok limit).mp h with
      ⟨-, rfl, rfl⟩ | ⟨t, ts', o, b, mid, rfl, ht, hb, hc⟩
    · exact ⟨[], rfl, .nil, hl⟩
    · obtain ⟨us, rfl, hus, hq⟩ := atom_sound hexpr hb
      have hbl := hus.levels_le_iff.mpr hq
      have hol : (Expr.operation lhs.place lhs o b).levels ≤
          levels + (Expr.operation lhs.place lhs o b).operators + 1 := by
        rw [Expr.levels_operation, Expr.operators]
        omega
      obtain ⟨vs, rfl, hvs, he⟩ := hchain.sound hol hc
      rw [Expr.operators] at he
      exact ⟨t :: us ++ vs, by simp, .cons ht hus hvs, by omega⟩
  complete := by
    intro lhs e us rest h he hr
    refine (chain_succ_ok limit).mpr ?_
    cases h with
    | nil => exact Or.inl ⟨hr.1, rfl, rfl⟩
    | @cons t o us vs _ b _ ht hb hc =>
      have hle := Chain.levels_le hc
      rw [Expr.levels_operation] at hle
      have hq := (Atom.levels_le_iff hb).mp (show b.levels ≤ levels + 1 by omega)
      have hbs := atom_complete hexpr [] hb hq fun _ _ _ => Chain.apart hc hr
      have hcs := hchain.complete hc (by rw [Expr.operators]; omega) hr
      exact Or.inr ⟨t, us ++ (vs ++ rest), o, b, vs ++ rest, by simp, ht, hbs, hcs⟩

theorem reads_expression_zero : Reads (expression limit 0) (·.levels ≤ 0) where
  sound := by
    intro alternatives ts rest e h
    rw [expression] at h
    cases h
  complete := by
    intro alternatives rest us e _ he _
    have := Expr.levels_pos e
    omega

theorem reads_expression_succ {levels : Nat}
    (hexpr : Reads (expression limit levels) (·.levels ≤ levels))
    (hchain : ReadsChain limit levels) :
    Reads (expression limit (levels + 1)) (·.levels ≤ levels + 1) where
  sound := by
    intro alternatives ts rest e h
    rw [expression] at h
    obtain ⟨a, mid, ha, hc⟩ := bind_ok.mp h
    obtain ⟨us, rfl, hus, hq⟩ := atom_sound hexpr ha
    have hal := hus.levels_le_iff.mpr hq
    have hao := Expr.operators_eq_zero (Atom.not_isOperation hus)
    obtain ⟨vs, rfl, hvs, he⟩ := hchain.sound (by rw [hao]; exact hal) hc
    rw [hao] at he
    exact ⟨us ++ vs, by simp, .chain hus hvs, he⟩
  complete := by
    intro alternatives rest us e h he hr
    rw [expression]
    cases h with
    | @chain us vs a _ ha hc =>
      have hao := Expr.operators_eq_zero (Atom.not_isOperation ha)
      have hq := (Atom.levels_le_iff ha).mp (Nat.le_trans (Chain.levels_le hc) he)
      rw [List.append_assoc]
      have hatom := atom_complete hexpr alternatives ha hq fun _ _ _ => Chain.apart hc hr
      exact bind_ok.mpr ⟨a, vs ++ rest, hatom, hchain.complete hc (by rw [hao]; exact he) hr⟩

theorem reads_expression_and_chain (levels : Nat) :
    Reads (expression limit levels) (·.levels ≤ levels) ∧ ReadsChain limit levels := by
  induction levels with
  | zero => exact ⟨reads_expression_zero limit, readsChain_zero limit⟩
  | succ levels ih =>
    exact ⟨reads_expression_succ limit ih.1 ih.2, readsChain_succ limit ih.1 ih.2⟩

/-- The rule for expressions, with some levels left, reads the phrases of the expressions that
take no more levels. -/
theorem reads_expression (levels : Nat) :
    Reads (expression limit levels) (·.levels ≤ levels) :=
  (reads_expression_and_chain limit levels).1

end ScriptReader.Grammar
