import ScriptReader.Proofs.ExactGrammar
import ScriptReader.Proofs.MoreLevels
import ScriptReader.Proofs.ProgramFailures
import ScriptReader.Proofs.TokensAhead

/-!
# What a syntax error says

A session that fails complains of one token.  The tokens in front of it begin a program that
can be read, and those up to it begin none: it is the first token at which no continuation is
possible, and nothing behind it changes the complaint.  A complaint names kinds of tokens.
Each of them could stand in the place of that token, and each that could is named, except for
what is overlooked: behind a name the ways in which the name goes on, and behind a block the
`elif` and the `else`.

A lack of levels depends on one token more than a complaint does, since a name is told from a
change of a variable by the token behind it.

Main statements:

* `Session.expected_acceptable`: each kind that is asked for is acceptable;
* `Session.acceptable_expected`: each acceptable kind is asked for or overlooked;
* `Session.failure_local`: a failure does not depend on what follows.
-/

namespace ScriptReader

open Phrase Grammar Rule

/-! ## Tokens that begin a program -/

/-- Some tokens that begin with `us`, and whose last one is their only end mark, are read as a
program with some limit. -/
def Viable (us : List Token) : Prop :=
  ∃ ts e limit s p, us <+: ts ++ [e] ∧ Open ts ∧ e.isEnd = true ∧
    Session.ofTokens (ts ++ [e]) limit = .ok s ∧ (s.run s.program).1 = .ok p

theorem viable_iff {us : List Token} : Viable us ↔ ∃ vs, Closed (us ++ vs) := by
  constructor
  · rintro ⟨ts, e, limit, s, p, ⟨vs, hvs⟩, hts, he, hs, hp⟩
    obtain ⟨-, hplace, hread⟩ := (Session.run_program_ok hts he).mp ⟨s, hs, hp⟩
    exact ⟨vs, ts, e, p, hvs, he, script_of_fits hplace hread⟩
  · rintro ⟨vs, ts, e, p, hvs, he, hp⟩
    obtain ⟨s, hs, hread⟩ := (Session.run_program_iff_script hp.isOpen he (Int.le_refl _)).mpr hp
    exact ⟨ts, e, _, s, p, ⟨vs, hvs⟩, hp.isOpen, he, hs, hread⟩

theorem Rule.Admits.viable {us : List Token} {k : Kind}
    (h : Admits (fun vs => Closed (us ++ vs)) k) : ∃ u, u.kind = k ∧ Viable (us ++ [u]) := by
  obtain ⟨u, vs, hu, hvs⟩ := h
  exact ⟨u, hu, viable_iff.mpr ⟨vs, by simpa using hvs⟩⟩

theorem Token.expected?_refuse (t : Token) (ks : List Kind) :
    (t.refuse ks).expected? = some ks := by
  unfold Token.refuse
  cases t.isEnd <;> rfl

theorem Viable.of_append {us vs : List Token} (h : Viable (us ++ vs)) : Viable us := by
  obtain ⟨ts, e, limit, s, p, hpre, h⟩ := h
  exact ⟨ts, e, limit, s, p, (List.prefix_append us vs).trans hpre, h⟩

theorem Rule.Admits.isOpen {us : List Token} {k : Kind}
    (h : Admits (fun vs => Closed (us ++ vs)) k) : Open us := by
  obtain ⟨u, vs, -, ts, e, p, hts, -, hp⟩ := h
  rcases List.append_eq_append_iff.mp hts with ⟨ws, rfl, -⟩ | ⟨ws, rfl, hws⟩
  · exact (open_append.mp hp.isOpen).1
  · cases ws with
    | nil => simpa using hp.isOpen
    | cons w ws => simp at hws

theorem Grammar.Closed.program_ok {ts : List Token} (h : Closed ts) (limit : Int) {levels : Nat}
    (hl : ts.length ≤ levels) : ∃ p rest, Grammar.program limit levels ts = .ok p rest := by
  obtain ⟨us, e, p, rfl, he, hp⟩ := h
  have hle : us.length ≤ levels := by
    rw [List.length_append] at hl
    omega
  obtain ⟨hplace, hread⟩ := (script_iff hle).mp hp
  have hend : (firstToken [e]).kind = .eof := by simpa [firstToken, Token.isEnd] using he
  exact ⟨p, [e], (Grammar.program_ok limit).mpr ⟨us, rfl, hplace, hread, hend⟩⟩

theorem Grammar.Closed.hasEnd {ts : List Token} (h : Closed ts) : HasEnd ts := by
  obtain ⟨us, e, p, rfl, he, -⟩ := h
  exact hasEnd_concat he us

namespace Session

/-! ## The failures of a session -/

theorem run_error {α : Type} {s s' : Session} {rule : Rule α} {err : Error}
    (h : s.run rule = (.error err, s')) : ∃ rest, rule s.ahead = .error err rest ∧
      s' = { s with position := s.position + (s.ahead.length - rest.length) } := by
  unfold run at h
  cases hr : rule s.ahead with
  | ok a rest =>
    rw [hr] at h
    cases h
  | error e rest =>
    rw [hr] at h
    cases h
    exact ⟨rest, rfl, rfl⟩

/-- A session at the first of some tokens fails at one of them, in a complaint or for lack of
levels, and something could have followed the tokens before. -/
theorem run_program_error {tokens : List Token} {limit : Int} {s s' : Session} {err : Error}
    (hs : ofTokens tokens limit = .ok s) (h : s.run s.program = (.error err, s')) :
    ∃ us rest, s.ahead = us ++ rest ∧ s'.position = us.length ∧
      (∃ k, Admits (fun vs => Closed (us ++ vs)) k) ∧ ((∃ ks, err = (firstToken rest).refuse ks ∧
        Asks s.program Closed (Kind.statementStarts ++ [.eof]) us rest ks) ∨
      err = .located (firstToken rest).position (.tooDeep limit) ∧
        Overflows s.program limit Closed limit.toNat us rest) := by
  obtain ⟨-, rfl⟩ := ofTokens_ok.mp hs
  obtain ⟨rest, hrest, rfl⟩ := run_error h
  have hfails : Fails limit (program ⟨tokens, 0, 0, limit⟩) Closed (Kind.statementStarts ++ [.eof])
      (levels ⟨tokens, 0, 0, limit⟩) (ahead ⟨tokens, 0, 0, limit⟩) err rest :=
    program_fails limit hrest
  rw [levels_start] at hfails
  generalize ahead ⟨tokens, 0, 0, limit⟩ = ts at hfails
  cases hfails with
  | @asks us _ ks hasks =>
    obtain ⟨k, hk⟩ := List.exists_mem_of_ne_nil ks hasks.nonempty
    exact ⟨us, rest, rfl, by simp, ⟨k, hasks.admits k hk⟩, Or.inl ⟨ks, rfl, hasks⟩⟩
  | @overflows us _ hover => exact ⟨us, rest, rfl, by simp, hover.admits, Or.inr ⟨rfl, hover⟩⟩

theorem run_program_error_of_end {ts : List Token} {e : Token} {limit : Int} {s s' : Session}
    {err : Error} (he : e.isEnd = true) (hs : ofTokens (ts ++ [e]) limit = .ok s)
    (h : s.run s.program = (.error err, s')) :
    ∃ us t rest, ts ++ [e] = us ++ t :: rest ∧ s'.position = us.length ∧
      ((∃ ks, err = t.refuse ks ∧
        Asks s.program Closed (Kind.statementStarts ++ [.eof]) us (t :: rest) ks) ∨
      err = .located t.position (.tooDeep limit) ∧
        Overflows s.program limit Closed limit.toNat us (t :: rest)) := by
  obtain ⟨us, rest, hahead, hpos, ⟨k, hk⟩, hfail⟩ := run_program_error hs h
  obtain ⟨-, rfl⟩ := ofTokens_ok.mp hs
  rw [ahead_of_end he] at hahead
  cases rest with
  | nil =>
    rw [List.append_nil] at hahead
    have hev := hk.isOpen e (by simp [← hahead])
    rw [he] at hev
    cases hev
  | cons t rest => exact ⟨us, t, rest, hahead, hpos, hfail⟩

theorem run_program_asks {ts : List Token} {e : Token} {limit : Int} {s s' : Session} {err : Error}
    (he : e.isEnd = true) (hl : ((ts ++ [e]).length : Int) ≤ limit)
    (hs : ofTokens (ts ++ [e]) limit = .ok s) (h : s.run s.program = (.error err, s')) :
    ∃ us t rest ks, ts ++ [e] = us ++ t :: rest ∧ s'.position = us.length ∧ err = t.refuse ks ∧
      Asks s.program Closed (Kind.statementStarts ++ [.eof]) us (t :: rest) ks := by
  obtain ⟨us, t, rest, hahead, hpos, hfail⟩ := run_program_error_of_end he hs h
  rcases hfail with ⟨ks, herr, hasks⟩ | ⟨-, hover⟩
  · exact ⟨us, t, rest, ks, hahead, hpos, herr, hasks⟩
  · have hlevels := hover.levels
    have hlength := congrArg List.length hahead
    simp only [List.length_append, List.length_cons] at hlength hl
    omega

/-! ## The kinds that are asked for -/

/-- Let some tokens be closed by an end mark, and let the limit of nesting be at least their
number.  If they are not read as a program, a token is complained of and some kinds are asked
for.  The tokens in front of it begin a program, and so they do together with a token of each
of the kinds. -/
theorem expected_acceptable {ts : List Token} {e : Token} {limit : Int} {s s' : Session}
    {err : Error} (he : e.isEnd = true) (hl : ((ts ++ [e]).length : Int) ≤ limit)
    (hs : ofTokens (ts ++ [e]) limit = .ok s) (h : s.run s.program = (.error err, s')) :
    ∃ t ks, (ts ++ [e])[s'.position]? = some t ∧ err = t.refuse ks ∧ ks ≠ [] ∧
      Viable ((ts ++ [e]).take s'.position) ∧
      ∀ k ∈ ks, ∃ u, u.kind = k ∧ Viable ((ts ++ [e]).take s'.position ++ [u]) := by
  obtain ⟨us, t, rest, ks, hahead, hpos, herr, hasks⟩ := run_program_asks he hl hs h
  have htake : (ts ++ [e]).take s'.position = us := by
    rw [hahead, hpos, List.take_left]
  have hviable : ∀ k ∈ ks, ∃ u, u.kind = k ∧ Viable (us ++ [u]) :=
    fun k hk => (hasks.admits k hk).viable
  rw [htake]
  refine ⟨t, ks, ?_, herr, hasks.nonempty, ?_, hviable⟩
  · rw [hahead, hpos, List.getElem?_append_right (Nat.le_refl _), Nat.sub_self,
      List.getElem?_cons_zero]
  · obtain ⟨k, hk⟩ := List.exists_mem_of_ne_nil ks hasks.nonempty
    obtain ⟨u, -, hu⟩ := hviable k hk
    exact hu.of_append

/-- A name, a parenthesis that closes nothing and an end mark: the parenthesis is complained of,
and the name alone is no program but begins one. -/
theorem expected_acceptable_name :
    let ts : List Token := [⟨.ident "x", .start, "x"⟩, ⟨.symbol .closeParen ")", .start, ")"⟩]
    (Token.endAt .start).isEnd = true ∧ ((ts ++ [Token.endAt .start]).length : Int) ≤ 3 ∧
      (∃ s s' err, ofTokens (ts ++ [Token.endAt .start]) 3 = .ok s ∧
        s.run s.program = (.error err, s') ∧ s'.position = 1 ∧ err.expected?.isSome = true) ∧
      Viable (ts.take 1) := by
  intro ts
  have hl : ((ts ++ [Token.endAt .start]).length : Int) ≤ 3 := by decide
  let s : Session := ⟨ts ++ [Token.endAt .start], 0, 0, 3⟩
  obtain ⟨t, ks, -, -, -, hviable, -⟩ := expected_acceptable (s := s) rfl hl rfl rfl
  exact ⟨rfl, hl, ⟨s, _, _, rfl, rfl, rfl, rfl⟩, hviable⟩

/-- Where a token is complained of, a token of another kind is complained of too, unless the
kind is overlooked there: then no script goes on with it. -/
theorem not_viable_of_asks {us rest : List Token} {t u : Token} {s : Session}
    {opens ks : List Kind} (h : Asks s.program Closed opens us (t :: rest) ks) (hu : u.kind ∉ ks)
    (hover : u.kind = t.kind ∨ u.kind ∉ overlooked us) : ¬ Viable (us ++ [u]) := by
  intro hviable
  obtain ⟨vs, hvs⟩ := viable_iff.mp hviable
  rw [List.append_assoc, List.singleton_append] at hvs
  have hresembles : Resembles (· ∈ ks) us (t :: rest) (u :: vs) :=
    hover.imp id fun ho => ⟨hu, ho⟩
  have hrefuse := h.refuses (u :: vs) hresembles
  have hrefuse' : Grammar.program s.limit s.levels (us ++ u :: vs) =
      .error (u.refuse ks) (u :: vs) := hrefuse
  -- with more levels the complaint is the same, but then the script is read
  have hmore : s.levels ≤ max s.levels (us ++ u :: vs).length := Nat.le_max_left _ _
  obtain ⟨p, rest', hread⟩ := hvs.program_ok s.limit (Nat.le_max_right s.levels _)
  rcases program_cuts hmore hvs.hasEnd with hcut | ⟨q, rest'', hdeep, -⟩
  · rw [hcut, hread] at hrefuse'
    cases hrefuse'
  · rw [hdeep] at hrefuse'
    unfold Token.refuse at hrefuse'
    split at hrefuse' <;> cases hrefuse'

/-- Let some tokens be closed by an end mark, and let the limit of nesting be at least their
number.  If they are not read as a program, each kind of token that could stand where they fail
is asked for, unless it is overlooked behind the token in front. -/
theorem acceptable_expected {ts : List Token} {e : Token} {limit : Int} {s s' : Session}
    {err : Error} (he : e.isEnd = true) (hl : ((ts ++ [e]).length : Int) ≤ limit)
    (hs : ofTokens (ts ++ [e]) limit = .ok s) (h : s.run s.program = (.error err, s')) :
    ∃ ks, err.expected? = some ks ∧ ∀ u, Viable ((ts ++ [e]).take s'.position ++ [u]) →
      u.kind ∈ ks ∨ u.kind ∈ overlooked ((ts ++ [e]).take s'.position) := by
  obtain ⟨us, t, rest, ks, hahead, hpos, rfl, hasks⟩ := run_program_asks he hl hs h
  rw [hahead, hpos, List.take_left]
  refine ⟨ks, t.expected?_refuse ks, fun u hu => ?_⟩
  by_cases hks : u.kind ∈ ks
  · exact Or.inl hks
  · by_cases hover : u.kind ∈ overlooked us
    · exact Or.inr hover
    · exact absurd hu (not_viable_of_asks hasks hks (Or.inr hover))

/-- Of the tokens `x + )` and an end mark the parenthesis is complained of, and nothing is
overlooked in its place. -/
theorem acceptable_expected_operand :
    let ts : List Token := [⟨.ident "x", .start, "x"⟩, ⟨.symbol .plus "+", .start, "+"⟩,
      ⟨.symbol .closeParen ")", .start, ")"⟩]
    (Token.endAt .start).isEnd = true ∧ ((ts ++ [Token.endAt .start]).length : Int) ≤ 4 ∧
      ∃ s s' err ks, ofTokens (ts ++ [Token.endAt .start]) 4 = .ok s ∧
        s.run s.program = (.error err, s') ∧ s'.position = 2 ∧ err.expected? = some ks ∧
        ∀ u, Viable (ts.take 2 ++ [u]) → u.kind ∈ ks := by
  intro ts
  have hl : ((ts ++ [Token.endAt .start]).length : Int) ≤ 4 := by decide
  let s : Session := ⟨ts ++ [Token.endAt .start], 0, 0, 4⟩
  obtain ⟨ks, hks, hviable⟩ := acceptable_expected (s := s) rfl hl rfl rfl
  exact ⟨rfl, hl, s, _, _, ks, rfl, rfl, rfl, hks, fun u hu => (hviable u hu).resolve_right nofun⟩

/-- Of the tokens `x )` the parenthesis is complained of, but no parenthesis that opens a call
is asked for in its place.  Of the tokens `if (x) {} )` the last parenthesis is, but no `elif` is
asked for. -/
theorem expected_leaves_out :
    (let x : Token := ⟨.ident "x", .start, "x"⟩
      let l : Token := ⟨.symbol .openParen "(", .start, "("⟩
      let r : Token := ⟨.symbol .closeParen ")", .start, ")"⟩
      ∃ s s' err ks, ofTokens [x, r, Token.endAt .start] 3 = .ok s ∧
        s.run s.program = (.error err, s') ∧ s'.position = 1 ∧ err.expected? = some ks ∧
        Viable [x, l] ∧ l.kind ∉ ks) ∧
    (let us : List Token := [⟨.keyword .ifWord "if", .start, "if"⟩,
        ⟨.symbol .openParen "(", .start, "("⟩, ⟨.ident "x", .start, "x"⟩,
        ⟨.symbol .closeParen ")", .start, ")"⟩, ⟨.symbol .openBrace "\x7b", .start, "\x7b"⟩,
        ⟨.symbol .closeBrace "\x7d", .start, "\x7d"⟩]
      let r : Token := ⟨.symbol .closeParen ")", .start, ")"⟩
      let c : Token := ⟨.keyword .elifWord "elif", .start, "elif"⟩
      ∃ s s' err ks, ofTokens (us ++ [r, Token.endAt .start]) 8 = .ok s ∧
        s.run s.program = (.error err, s') ∧ s'.position = 6 ∧ err.expected? = some ks ∧
        Viable (us ++ [c]) ∧ c.kind ∉ ks) := by
  constructor
  · intro x l r
    have hviable : Viable [x, l] :=
      ⟨[x, l, r, ⟨.symbol .semicolon ";", .start, ";"⟩], .endAt .start, 5, _, _, ⟨_, rfl⟩,
        by unfold Open; decide, rfl, rfl, rfl⟩
    exact ⟨_, _, _, _, rfl, rfl, rfl, rfl, hviable, by decide⟩
  · intro us r c
    have hviable : Viable (us ++ [c]) :=
      ⟨us ++ c :: us.tail, .endAt .start, 13, _, _, ⟨_, rfl⟩, by unfold Open; decide, rfl, rfl, rfl⟩
    exact ⟨_, _, _, _, rfl, rfl, rfl, rfl, hviable, by decide⟩

/-! ## What a failure depends on -/

theorem exists_ahead (ts : List Token) (limit : Int) :
    ∃ tail, ahead ⟨ts, 0, 0, limit⟩ = ts ++ tail := by
  rcases ahead_eq ts limit with h | ⟨p, h⟩
  · exact ⟨[], by rw [h, List.append_nil]⟩
  · exact ⟨_, h⟩

/-- Where other tokens agree with those of a session up to the `j` tokens behind some of them,
the same tokens are read and the same `j` are ahead. -/
theorem ahead_of_agree {ts us ws rest : List Token} {limit : Int} {j : Nat}
    (hagree : us.take (ws.length + j) = ts.take (ws.length + j))
    (hj : ws.length + j ≤ us.length) (ha : ahead ⟨ts, 0, 0, limit⟩ = ws ++ rest) :
    ∃ rest', ahead ⟨us, 0, 0, limit⟩ = ws ++ rest' ∧ rest'.take j = rest.take j := by
  obtain ⟨tail, htail⟩ := exists_ahead ts limit
  obtain ⟨tail', htail'⟩ := exists_ahead us limit
  have hlength := congrArg List.length hagree
  simp only [List.length_take] at hlength
  rw [htail] at ha
  have hwhole : us.take (ws.length + j) = (ws ++ rest).take (ws.length + j) := by
    rw [hagree, ← ha, List.take_append_of_le_length (by omega)]
  have hws : us.take ws.length = ws := by
    have htake := congrArg (List.take ws.length) hwhole
    rwa [List.take_take, List.take_take, Nat.min_eq_left (Nat.le_add_right _ _),
      List.take_left] at htake
  have hrest : (us.drop ws.length).take j = rest.take j := by
    have hdrop := congrArg (List.drop ws.length) hwhole
    rwa [List.drop_take, List.drop_take, Nat.add_sub_cancel_left, List.drop_left] at hdrop
  have hus : ws ++ us.drop ws.length = us := by
    have hsplit := List.take_append_drop ws.length us
    rwa [hws] at hsplit
  refine ⟨us.drop ws.length ++ tail', ?_, ?_⟩
  · rw [htail', ← List.append_assoc, hus]
  · rw [List.take_append_of_le_length (by rw [List.length_drop]; omega), hrest]

theorem take_of_ahead {ts ws rest : List Token} {limit : Int}
    (ha : ahead ⟨ts, 0, 0, limit⟩ = ws ++ rest) (hi : ws.length < ts.length) :
    ∃ t rest', rest = t :: rest' ∧ ts.take ws.length = ws ∧
      ts.take (ws.length + 1) = ws ++ [t] := by
  obtain ⟨tail, htail⟩ := exists_ahead ts limit
  rw [htail] at ha
  have htake : ∀ {m : Nat}, m ≤ ts.length → ts.take m = (ws ++ rest).take m := by
    intro m hm
    rw [← ha, List.take_append_of_le_length hm]
  have hws : ts.take ws.length = ws := by rw [htake (Nat.le_of_lt hi), List.take_left]
  cases rest with
  | nil =>
    have hlength := congrArg List.length ha
    simp only [List.length_append, List.length_nil] at hlength
    omega
  | cons t rest =>
    refine ⟨t, rest, rfl, hws, ?_⟩
    rw [htake (m := ws.length + 1) hi, List.take_length_add_append, List.take_succ_cons,
      List.take_zero]

/-- Let a session fail at the token with the index `i`, in a complaint, and let other tokens
agree with its own up to that one; or let it fail for lack of levels, and let them agree up to
the next one.  Then they fail with the same error at the same index.  The tokens before a failure
begin a program, and together with a token that is complained of they begin none. -/
theorem failure_local {ts us : List Token} {limit : Int} {s s' t : Session} {err : Error}
    (hs : ofTokens ts limit = .ok s) (ht : ofTokens us limit = .ok t)
    (h : s.run s.program = (.error err, s')) (hi : s'.position < ts.length)
    (hagree : err.expected?.isSome = true ∧ us.take (s'.position + 1) = ts.take (s'.position + 1) ∨
      (∃ p l, err = .located p (.tooDeep l)) ∧ s'.position + 1 < us.length ∧
        us.take (s'.position + 2) = ts.take (s'.position + 2)) :
    t.run t.program = (.error err, { t with position := s'.position }) ∧
      Viable (ts.take s'.position) ∧
      (err.expected?.isSome = true → ¬ Viable (ts.take (s'.position + 1))) := by
  obtain ⟨ws, rest, hahead, hpos, ⟨k, hk⟩, hfail⟩ := run_program_error hs h
  obtain ⟨-, rfl⟩ := ofTokens_ok.mp hs
  obtain ⟨-, rfl⟩ := ofTokens_ok.mp ht
  rw [hpos] at hi hagree ⊢
  obtain ⟨u, rest₁, rfl, htake, htake'⟩ := take_of_ahead hahead hi
  have hviable : Viable ws := by
    obtain ⟨v, -, hv⟩ := hk.viable
    exact hv.of_append
  rw [htake, htake']
  rcases hfail with ⟨ks, rfl, hasks⟩ | ⟨rfl, hover⟩
  · rcases hagree with ⟨-, hagree⟩ | ⟨⟨p, l, hdeep⟩, -⟩
    · have hj : ws.length + 1 ≤ us.length := by
        have hlength := congrArg List.length hagree
        simp only [List.length_take] at hlength
        omega
      obtain ⟨rest', ha, hnext⟩ := ahead_of_agree hagree hj hahead
      have hfirst : firstToken rest' = u := firstToken_eq_of_take hnext
      have hrefuse := hasks.refuses rest' (Or.inl (congrArg Token.kind hfirst))
      rw [hfirst] at hrefuse
      have hrun := run_of_error ha hrefuse
      rw [Nat.zero_add] at hrun
      exact ⟨hrun, hviable, fun _ => not_viable_of_asks hasks hasks.stops (Or.inl rfl)⟩
    · unfold Token.refuse at hdeep
      split at hdeep <;> cases hdeep
  · rcases hagree with ⟨hnone, -⟩ | ⟨-, hj, hagree⟩
    · cases hnone
    · obtain ⟨rest', ha, hnext⟩ := ahead_of_agree hagree hj hahead
      have hfirst : firstToken rest' = u := firstToken_eq_of_take hnext
      have hexceeds := hover.exceeds rest' hnext
      rw [hfirst] at hexceeds
      have hrun := run_of_error ha hexceeds
      rw [Nat.zero_add] at hrun
      exact ⟨hrun, hviable, nofun⟩

/-- The tokens `x )` fail at the parenthesis, and so they do in front of anything else. -/
theorem failure_local_name :
    let x : Token := ⟨.ident "x", .start, "x"⟩
    let r : Token := ⟨.symbol .closeParen ")", .start, ")"⟩
    ∃ s s' t err, ofTokens [x, r] 1 = .ok s ∧ ofTokens [x, r, r, x] 1 = .ok t ∧
      s.run s.program = (.error err, s') ∧ s'.position < [x, r].length ∧
      err.expected?.isSome = true ∧ [x, r, r, x].take 2 = [x, r].take 2 ∧
      t.run t.program = (.error err, { t with position := 1 }) ∧ ¬ Viable [x, r] := by
  intro x r
  have hs : ofTokens [x, r] 1 = .ok ⟨[x, r], 0, 0, 1⟩ := rfl
  have ht : ofTokens [x, r, r, x] 1 = .ok ⟨[x, r, r, x], 0, 0, 1⟩ := rfl
  have hi : 1 < [x, r].length := by decide
  obtain ⟨hrun, -, hnot⟩ := failure_local hs ht rfl hi (Or.inl ⟨rfl, rfl⟩)
  exact ⟨_, _, _, _, hs, ht, rfl, hi, rfl, rfl, hrun, hnot rfl⟩

end Session

end ScriptReader
