import ScriptReader.Session
import ScriptReader.Proofs.StatementPhrases

/-!
# The grammar that is read

A session reads the scripts whose expressions and blocks fit in its limit of nesting, and
reads each as its tree.  If the limit is at least the number of tokens, all scripts fit, and
the session reads exactly the grammar.

Main statements:

* `Session.run_program_ok`: what a session reads, for any limit;
* `Session.reads_exactly_scripts`: with as many levels as tokens, a session reads a script
  as its tree and reads nothing else.
-/

namespace ScriptReader

open Phrase Grammar

/-- What a run answers, without the tokens that it leaves. -/
def Rule.answer {α : Type} : EStateM.Result Error (List Token) α → Except Error α
  | .ok a _ => .ok a
  | .error e _ => .error e

namespace Session

theorem ofTokens_ok {tokens : List Token} {limit : Int} {s : Session} :
    ofTokens tokens limit = .ok s ↔ 1 ≤ limit ∧ s = ⟨tokens, 0, 0, limit⟩ := by
  unfold ofTokens
  split
  · next h =>
    constructor
    · intro h'
      cases h'
    · rintro ⟨h', -⟩
      omega
  · next h =>
    rw [Except.ok.injEq]
    constructor
    · rintro rfl
      exact ⟨by omega, rfl⟩
    · rintro ⟨-, rfl⟩
      rfl

theorem levels_start (tokens : List Token) (limit : Int) :
    levels ⟨tokens, 0, 0, limit⟩ = limit.toNat := by
  simp [levels]

theorem ahead_of_end {ts : List Token} {e : Token} {limit : Int} (he : e.isEnd = true) :
    ahead ⟨ts ++ [e], 0, 0, limit⟩ = ts ++ [e] := by
  show (if (ts ++ [e]).any Token.isEnd then ts ++ [e] else _) = _
  rw [if_pos (by simp [he])]

theorem ahead_eq (ts : List Token) (limit : Int) :
    ahead ⟨ts, 0, 0, limit⟩ = ts ∨ ∃ p, ahead ⟨ts, 0, 0, limit⟩ = ts ++ [.endAt p] := by
  unfold ahead
  split
  · exact Or.inl rfl
  · refine Or.inr ?_
    unfold endMark
    split
    · exact ⟨_, rfl⟩
    · exact ⟨_, rfl⟩

theorem outcome_run {α : Type} (s : Session) (rule : Rule α) :
    (s.run rule).1 = Rule.answer (rule s.ahead) := by
  unfold run
  cases rule s.ahead <;> rfl

theorem run_ok {α : Type} {s : Session} {rule : Rule α} {a : α} :
    (s.run rule).1 = .ok a ↔ ∃ rest, rule s.ahead = .ok a rest := by
  unfold run
  cases h : rule s.ahead with
  | ok a' rest =>
    constructor
    · intro hp
      cases hp
      exact ⟨rest, rfl⟩
    · rintro ⟨rest', hr⟩
      cases hr
      rfl
  | error e rest =>
    constructor
    · intro hp
      cases hp
    · rintro ⟨rest', hr⟩
      cases hr

/-- Up to the end mark nothing but the whole of the tokens in front of it is open. -/
theorem eq_of_open {us rest ts : List Token} {e : Token} (h : ts ++ [e] = us ++ rest)
    (hts : Open ts) (hus : Open us) (he : e.isEnd = true) (hr : (firstToken rest).kind = .eof) :
    us = ts := by
  rcases List.append_eq_append_iff.mp h with ⟨vs, rfl, hv⟩ | ⟨vs, rfl, hv⟩
  · cases vs with
    | nil => simp
    | cons v vs =>
      obtain ⟨rfl, -⟩ := List.cons.inj hv
      have hev := hus e (by simp)
      rw [he] at hev
      cases hev
  · cases vs with
    | nil => simp
    | cons v vs =>
      subst hv
      have hev := hts v (by simp)
      have hk : v.kind = .eof := hr
      simp [Token.isEnd, hk] at hev

/-- Tokens up to an end mark are read as a program if they are the phrase of a program whose
expressions and blocks fit in the limit. -/
theorem run_program_ok {ts : List Token} {e : Token} {limit : Int} {p : Program}
    (hts : Open ts) (he : e.isEnd = true) :
    (∃ s, ofTokens (ts ++ [e]) limit = .ok s ∧ (s.run s.program).1 = .ok p) ↔
      1 ≤ limit ∧ p.place = ⟨1, 1⟩ ∧
        Statements (Having (Fits limit.toNat)) (· < limit.toNat) 0 ts p.statements := by
  constructor
  · rintro ⟨s, hs, hr⟩
    obtain ⟨hl, rfl⟩ := ofTokens_ok.mp hs
    obtain ⟨rest, hp⟩ := run_ok.mp hr
    rw [ahead_of_end he] at hp
    obtain ⟨us, hts', hplace, hus, hk⟩ := (program_ok limit).mp hp
    obtain rfl := eq_of_open hts' hts (hus.isOpen Having.isOpen) he hk
    exact ⟨hl, hplace, by simpa [levels] using hus⟩
  · rintro ⟨hl, hplace, hus⟩
    have hp : Grammar.program limit (levels ⟨ts ++ [e], 0, 0, limit⟩) (ts ++ [e]) = .ok p [e] := by
      refine (program_ok limit).mpr ⟨ts, rfl, hplace, by simpa [levels] using hus, ?_⟩
      simpa [firstToken, Token.isEnd] using he
    refine ⟨⟨ts ++ [e], 0, 0, limit⟩, ofTokens_ok.mpr ⟨hl, rfl⟩, ?_⟩
    exact run_ok.mpr ⟨[e], by rw [ahead_of_end he]; exact hp⟩

end Session

namespace Phrase

theorem allows_fits (d : Nat) :
    Allows d (fun _ => Expression) (Having (Fits d)) (fun _ => True) (· < d) where
  expression := by
    intro b us e he hd
    have hle := he.levels_le_length
    exact ⟨he, by unfold Fits; omega⟩
  block _ hb := hb

theorem script_of_fits {us : List Token} {p : Program} {d : Nat} (hp : p.place = ⟨1, 1⟩)
    (h : Statements (Having (Fits d)) (· < d) 0 us p.statements) : Script us p := by
  obtain ⟨place, ss⟩ := p
  obtain rfl : place = ⟨1, 1⟩ := hp
  exact .mk (h.mono (allows_all us.length) (by omega))

theorem script_iff {us : List Token} {p : Program} {d : Nat} (hd : us.length ≤ d) :
    Script us p ↔
      p.place = ⟨1, 1⟩ ∧ Statements (Having (Fits d)) (· < d) 0 us p.statements := by
  constructor
  · intro h
    cases h with
    | mk h => exact ⟨rfl, h.mono (allows_fits d) (by omega)⟩
  · rintro ⟨hp, h⟩
    exact script_of_fits hp h

theorem Script.isOpen {us : List Token} {p : Program} (h : Script us p) : Open us := by
  cases h with
  | mk h => exact h.isOpen fun _ _ _ he => he.isOpen

end Phrase

namespace Session

theorem run_program_iff_script {ts : List Token} {e : Token} {limit : Int} {p : Program}
    (hts : Open ts) (he : e.isEnd = true) (hl : (ts.length : Int) + 1 ≤ limit) :
    (∃ s, ofTokens (ts ++ [e]) limit = .ok s ∧ (s.run s.program).1 = .ok p) ↔
      Script ts p := by
  rw [run_program_ok hts he, script_iff (d := limit.toNat) (by omega)]
  constructor
  · exact And.right
  · intro h
    exact ⟨by omega, h⟩

end Session

/-- A token list is the phrase of one program at most: it is the one that is read. -/
theorem Phrase.Script.unique {us : List Token} {p q : Program} (hp : Script us p)
    (hq : Script us q) : p = q := by
  have hread := fun {r : Program} => Session.run_program_iff_script (p := r) hp.isOpen
    (Token.isEnd_endAt .start) (Int.le_refl _)
  obtain ⟨s, hs, hr⟩ := hread.mpr hp
  obtain ⟨t, ht, hr'⟩ := hread.mpr hq
  rw [hs] at ht
  cases ht
  rw [hr] at hr'
  cases hr'
  rfl

/-- Let the last of some tokens be their only end mark, and let the limit of nesting be at
least their number.  Then they are read as the program `p` exactly if the tokens in front of
the end mark are a script with the tree `p`; and no tokens are a script with two trees. -/
theorem Session.reads_exactly_scripts {ts : List Token} {e : Token} {limit : Int}
    (hts : Open ts) (he : e.isEnd = true) (hl : ((ts ++ [e]).length : Int) ≤ limit) :
    (∀ p, (∃ s, ofTokens (ts ++ [e]) limit = .ok s ∧ (s.run s.program).1 = .ok p) ↔
      Script ts p) ∧
    ∀ us p q, Script us p → Script us q → p = q := by
  constructor
  · intro p
    exact run_program_iff_script hts he (by simpa using hl)
  · intro us p q hp hq
    exact hp.unique hq

/-- The tokens of `x++;` and an end mark are read, with four levels, as the change of `x` by
one, so they are a script with this tree. -/
theorem Session.reads_exactly_scripts_increment :
    let ts : List Token := [⟨.ident "x", .start, "x"⟩, ⟨.symbol .increment "++", .start, "++"⟩,
      ⟨.symbol .semicolon ";", .start, ";"⟩]
    Open ts ∧ (Token.endAt .start).isEnd = true ∧
      ((ts ++ [Token.endAt .start]).length : Int) ≤ 4 ∧
      Script ts ⟨⟨1, 1⟩, [.update ⟨1, 1⟩ "x" .plus (.int ⟨1, 1⟩ 1)]⟩ := by
  intro ts
  have hts : Open ts := by unfold Open; decide
  have hl : ((ts ++ [Token.endAt .start]).length : Int) ≤ 4 := by decide
  refine ⟨hts, rfl, hl, ((reads_exactly_scripts hts rfl hl).1 _).mp ?_⟩
  exact ⟨⟨ts ++ [Token.endAt .start], 0, 0, 4⟩, rfl, rfl⟩

end ScriptReader
