import ScriptReader.Proofs.SyntaxErrors
import ScriptReader.Proofs.TokensAhead

/-!
# What the limit of nesting changes

A limit of nesting cuts a reading off, and does nothing else.  Under two limits the same tokens
are read alike, with one program or one error at one token, unless the smaller limit is used up;
then the greater one was not used up before.  A limit that is greater than the number of tokens is
never used up, since each level that is open took a token.

Main statement: `Session.limit_cuts_off`.
-/

namespace ScriptReader.Session

open Phrase Grammar Rule

/-! ## The tokens that are ahead -/

theorem length_le_of_ahead {ts us rest : List Token} {limit : Int}
    (h : ahead ⟨ts, 0, 0, limit⟩ = us ++ rest) (hus : Open us) : us.length ≤ ts.length := by
  rcases ahead_eq ts limit with ha | ⟨p, ha⟩
  · rw [← ha, h, List.length_append]
    exact Nat.le_add_right _ _
  · rw [h] at ha
    cases rest with
    | nil =>
      rw [List.append_nil] at ha
      have hend := hus (.endAt p) (by simp [ha])
      cases hend
    | cons t rest =>
      have hlength := congrArg List.length ha
      simp only [List.length_append, List.length_cons, List.length_nil] at hlength
      omega

/-! ## The outcomes of a session -/

theorem position_run {α : Type} (s : Session) (rule : Rule α) :
    (s.run rule).2.position = s.position + (s.ahead.length - (left (rule s.ahead)).length) := by
  unfold run
  cases rule s.ahead <;> rfl

theorem run_program_cuts {ts : List Token} {d d' : Int} {s s' : Session}
    (hs : ofTokens ts d = .ok s) (hs' : ofTokens ts d' = .ok s') (h : d ≤ d') :
    (s.run s.program).1 = (s'.run s'.program).1 ∧
        (s.run s.program).2.position = (s'.run s'.program).2.position ∨
      (∃ p, (s.run s.program).1 = .error (.located p (.tooDeep d))) ∧
        (s.run s.program).2.position ≤ (s'.run s'.program).2.position := by
  obtain ⟨-, rfl⟩ := ofTokens_ok.mp hs
  obtain ⟨-, rfl⟩ := ofTokens_ok.mp hs'
  have hlevels : levels ⟨ts, 0, 0, d⟩ ≤ levels ⟨ts, 0, 0, d'⟩ :=
    Int.toNat_le_toNat (Int.sub_le_sub_right h _)
  have hahead : ahead ⟨ts, 0, 0, d⟩ = ahead ⟨ts, 0, 0, d'⟩ := rfl
  rw [position_run, position_run, outcome_run, outcome_run, hahead]
  rcases program_cuts hlevels (ahead_hasEnd ⟨ts, 0, 0, d'⟩) with hsame | ⟨p, rest, hrun, hle⟩
  · left
    unfold program
    rw [hsame]
    exact ⟨rfl, rfl⟩
  · right
    unfold program
    rw [hrun]
    exact ⟨⟨p, rfl⟩, Nat.add_le_add_left (Nat.sub_le_sub_left hle _) _⟩

theorem tooDeep_of_run {ts : List Token} {limit : Int} {s : Session} {p : Position} {l : Int}
    (hs : ofTokens ts limit = .ok s) (h : (s.run s.program).1 = .error (.located p (.tooDeep l))) :
    l = limit ∧ limit ≤ ts.length := by
  obtain ⟨t, ht⟩ : ∃ t, s.run s.program = (.error (.located p (.tooDeep l)), t) := ⟨_, by rw [← h]⟩
  obtain ⟨us, rest, hahead, -, ⟨k, hk⟩, hfail⟩ := run_program_error hs ht
  obtain ⟨-, rfl⟩ := ofTokens_ok.mp hs
  rcases hfail with ⟨ks, hrefuse, -⟩ | ⟨hdeep, hover⟩
  · unfold Token.refuse at hrefuse
    split at hrefuse <;> cases hrefuse
  · cases hdeep
    have hlevels := hover.levels
    have hle := length_le_of_ahead hahead hk.isOpen
    exact ⟨rfl, by omega⟩

/-- Let the same tokens be read under two limits.  The smaller limit is used up, or the outcomes
are the same and the reading ends at the same token.  If the greater one is used up, the smaller
one is too, at a token that does not stand behind.  A limit greater than the number of tokens is
not used up. -/
theorem limit_cuts_off {ts : List Token} {d d' : Int} {s s' : Session}
    (hs : ofTokens ts d = .ok s) (hs' : ofTokens ts d' = .ok s') (h : d ≤ d') :
    ((∃ p, (s.run s.program).1 = .error (.located p (.tooDeep d))) ∨
      (s.run s.program).1 = (s'.run s'.program).1 ∧
        (s.run s.program).2.position = (s'.run s'.program).2.position) ∧
    ((∃ p l, (s'.run s'.program).1 = .error (.located p (.tooDeep l))) →
      (∃ p, (s.run s.program).1 = .error (.located p (.tooDeep d))) ∧
        (s.run s.program).2.position ≤ (s'.run s'.program).2.position) ∧
    ((ts.length : Int) < d → ∀ p l, (s.run s.program).1 ≠ .error (.located p (.tooDeep l))) := by
  have hcuts := run_program_cuts hs hs' h
  refine ⟨hcuts.symm.imp And.left id, ?_, ?_⟩
  · rintro ⟨p, l, hdeep⟩
    rcases hcuts with ⟨hsame, hposition⟩ | hcut
    · -- an error that is shared names both limits
      rw [← hsame] at hdeep
      obtain ⟨rfl, -⟩ := tooDeep_of_run hs hdeep
      exact ⟨⟨p, hdeep⟩, Nat.le_of_eq hposition⟩
    · exact hcut
  · intro hlength p l hdeep
    obtain ⟨-, hle⟩ := tooDeep_of_run hs hdeep
    omega

/-- Three brackets that open are too many for a limit of two, so they are for a limit of one,
which is used up before. -/
theorem limit_cuts_off_brackets :
    let l : Token := ⟨.symbol .openBracket "[", .start, "["⟩
    ∃ s s', ofTokens [l, l, l] 1 = .ok s ∧ ofTokens [l, l, l] 2 = .ok s' ∧ (1 : Int) ≤ 2 ∧
      (s'.run s'.program).1 = .error (.located .start (.tooDeep 2)) ∧
      (∃ p, (s.run s.program).1 = .error (.located p (.tooDeep 1))) ∧
      (s.run s.program).2.position ≤ (s'.run s'.program).2.position := by
  intro l
  have hs : ofTokens [l, l, l] 1 = .ok ⟨[l, l, l], 0, 0, 1⟩ := rfl
  have hs' : ofTokens [l, l, l] 2 = .ok ⟨[l, l, l], 0, 0, 2⟩ := rfl
  have hdeep : (run ⟨[l, l, l], 0, 0, 2⟩ (program ⟨[l, l, l], 0, 0, 2⟩)).1 =
      .error (.located .start (.tooDeep 2)) := rfl
  obtain ⟨-, hcut, -⟩ := limit_cuts_off hs hs' (by decide)
  exact ⟨_, _, hs, hs', by decide, hdeep, hcut ⟨_, _, hdeep⟩⟩

end ScriptReader.Session
