import ScriptReader.Parse
import ScriptReader.Proofs.ExactGrammar
import ScriptReader.Proofs.MaximalMunch

/-!
# Scripts that are parsed

A script is parsed if it is cut up into tokens, the tokens in front of the end mark are a
program, and the expressions and blocks of the program fit in the limit of nesting.

Main statements:

* `parse_ok_iff`: the programs that are parsed, for any limit;
* `parse_unique`: the limit does not change the program;
* `spelled_of_tokenize`: each token of a script is spelled by a rule of the lexicon.
-/

namespace ScriptReader

open Phrase Grammar

/-- A token says what some text says. -/
def Token.Spelled (t : Token) : Prop :=
  ∃ cs, Spells cs (.ok t.content)

theorem Token.Spelled.isEnd_eq_false {t : Token} (h : t.Spelled) : t.isEnd = false := by
  obtain ⟨cs, hcs⟩ := h
  simpa [Token.isEnd, Token.kind] using hcs.kind_ne_eof

theorem tokenize_ok_iff {source : String} {tokens : List Token} :
    tokenize source = .ok tokens ↔ Tokenizes .start source.toList tokens none := by
  constructor
  · intro h
    have htokens := tokenizes_streamFrom .start source.toList
    unfold tokenize at h
    split at h
    · cases h
    · next hf =>
      cases h
      exact hf ▸ htokens
  · intro h
    unfold tokenize tokenStream
    rw [h.streamFrom_eq]

theorem tokenize_error_iff {source : String} {err : Error} :
    tokenize source = .error err ↔ ∃ ts, Tokenizes .start source.toList ts (some err) := by
  constructor
  · intro h
    have htokens := tokenizes_streamFrom .start source.toList
    unfold tokenize at h
    split at h
    · next e he =>
      cases h
      exact ⟨_, he ▸ htokens⟩
    · cases h
  · rintro ⟨ts, hts⟩
    unfold tokenize tokenStream
    rw [hts.streamFrom_eq]

/-- Tokens that are read to the end are closed by the one end mark, and all others are spelled
by a rule. -/
theorem Tokenizes.exists_append_end {p : Position} {cs : List Char} {tokens : List Token}
    {failure : Option Error} (h : Tokenizes p cs tokens failure) (hf : failure = none) :
    ∃ ts e, tokens = ts ++ [e] ∧ e.isEnd = true ∧ ∀ t ∈ ts, t.Spelled := by
  induction h with
  | finish _ => exact ⟨[], _, rfl, rfl, by simp⟩
  | token _ hm _ ih =>
    obtain ⟨ts, e, rfl, he, hts⟩ := ih hf
    exact ⟨_ :: ts, e, rfl, he, List.forall_mem_cons.mpr ⟨⟨_, hm.spells⟩, hts⟩⟩
  | malformed _ _ => cases hf
  | unrecognized _ _ => cases hf

theorem spelled_of_tokenize {source : String} {tokens : List Token}
    (h : tokenize source = .ok tokens) :
    ∃ ts e, tokens = ts ++ [e] ∧ e.isEnd = true ∧ ∀ t ∈ ts, t.Spelled :=
  (tokenize_ok_iff.mp h).exists_append_end rfl

theorem open_of_spelled {ts : List Token} (h : ∀ t ∈ ts, t.Spelled) : Open ts :=
  fun t ht => (h t ht).isEnd_eq_false

theorem ofSource_ok_iff {source : String} {limit : Int} {s : Session} :
    Session.ofSource source limit = .ok s ↔
      ∃ tokens, tokenize source = .ok tokens ∧ Session.ofTokens tokens limit = .ok s := by
  unfold Session.ofSource
  constructor
  · intro h
    split at h
    · cases h
    · split at h
      · cases h
      · next tokens htok => exact ⟨tokens, htok, h⟩
  · rintro ⟨tokens, htok, hs⟩
    obtain ⟨hl, -⟩ := Session.ofTokens_ok.mp hs
    rw [if_neg (by omega), htok]
    exact hs

/-- A script is parsed by a session at the first of its tokens. -/
theorem parse_eq_run {source : String} {limit : Int} {s : Session}
    (h : Session.ofSource source limit = .ok s) : parse source limit = (s.run s.program).1 := by
  unfold parse readScript
  rw [h]
  show Except.map _ (Except.bind (s.run s.program).1 _) = _
  cases (s.run s.program).1 <;> rfl

theorem parse_of_ofSource_error {source : String} {limit : Int} {e : Error}
    (h : Session.ofSource source limit = .error e) : parse source limit = .error e := by
  unfold parse readScript
  rw [h]
  rfl

theorem parse_eq_program {source : String} {limit : Int} {tokens : List Token} (hl : 1 ≤ limit)
    (h : tokenize source = .ok tokens) :
    parse source limit = Rule.answer (Grammar.program limit limit.toNat tokens) := by
  have hsource : Session.ofSource source limit = .ok ⟨tokens, 0, 0, limit⟩ :=
    ofSource_ok_iff.mpr ⟨tokens, h, Session.ofTokens_ok.mpr ⟨hl, rfl⟩⟩
  obtain ⟨ts, e, rfl, he, -⟩ := spelled_of_tokenize h
  rw [parse_eq_run hsource, Session.outcome_run, Session.ahead_of_end he, Session.program,
    Session.levels_start]

theorem parse_of_tokenize_error {source : String} {limit : Int} {e : Error} (hl : 1 ≤ limit)
    (h : tokenize source = .error e) : parse source limit = .error e := by
  refine parse_of_ofSource_error ?_
  unfold Session.ofSource
  rw [if_neg (by omega), h]

theorem parse_ok_iff_run {source : String} {limit : Int} {p : Program} :
    parse source limit = .ok p ↔
      ∃ s, Session.ofSource source limit = .ok s ∧ (s.run s.program).1 = .ok p := by
  cases hs : Session.ofSource source limit with
  | error e =>
    rw [parse_of_ofSource_error hs]
    constructor
    · intro h
      cases h
    · rintro ⟨s, h, -⟩
      cases h
  | ok s =>
    rw [parse_eq_run hs]
    constructor
    · intro h
      exact ⟨s, rfl, h⟩
    · rintro ⟨t, ht, hp⟩
      cases ht
      exact hp

/-- A script is parsed as the program `p` if its tokens are the phrase of `p` and all
expressions and blocks fit in the limit. -/
theorem parse_ok_iff {source : String} {limit : Int} {p : Program} :
    parse source limit = .ok p ↔
      1 ≤ limit ∧ ∃ ts e, tokenize source = .ok (ts ++ [e]) ∧ p.place = ⟨1, 1⟩ ∧
        Statements (Having (Fits limit.toNat)) (· < limit.toNat) 0 ts p.statements := by
  rw [parse_ok_iff_run]
  constructor
  · rintro ⟨s, hs, hrun⟩
    obtain ⟨tokens, htok, hs⟩ := ofSource_ok_iff.mp hs
    obtain ⟨ts, e, rfl, he, hts⟩ := spelled_of_tokenize htok
    obtain ⟨hl, hp⟩ := (Session.run_program_ok (open_of_spelled hts) he).mp ⟨s, hs, hrun⟩
    exact ⟨hl, ts, e, htok, hp⟩
  · rintro ⟨hl, ts, e, htok, hp⟩
    obtain ⟨ts', e', heq, he, hts⟩ := spelled_of_tokenize htok
    obtain ⟨rfl, h⟩ := List.append_inj' heq rfl
    cases h
    obtain ⟨s, hs, hrun⟩ := (Session.run_program_ok (open_of_spelled hts) he).mpr ⟨hl, hp⟩
    exact ⟨s, ofSource_ok_iff.mpr ⟨_, htok, hs⟩, hrun⟩

theorem script_of_parse {source : String} {limit : Int} {p : Program}
    (h : parse source limit = .ok p) :
    ∃ ts e, tokenize source = .ok (ts ++ [e]) ∧ Script ts p := by
  obtain ⟨-, ts, e, htok, hplace, hp⟩ := parse_ok_iff.mp h
  exact ⟨ts, e, htok, script_of_fits hplace hp⟩

/-- A script is parsed as one program, whatever the limit. -/
theorem parse_unique {source : String} {c d : Int} {p q : Program} (hp : parse source c = .ok p)
    (hq : parse source d = .ok q) : p = q := by
  obtain ⟨ts, e, htok, hts⟩ := script_of_parse hp
  obtain ⟨us, f, htok', hus⟩ := script_of_parse hq
  rw [htok] at htok'
  obtain ⟨rfl, -⟩ := List.append_inj' (Except.ok.inj htok') rfl
  exact hts.unique hus

end ScriptReader
