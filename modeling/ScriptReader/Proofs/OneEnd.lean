import ScriptReader.Proofs.Progress

/-!
# One end

The tokens of a session may hold end marks or none.  Without one, a mark that is not among the
tokens stands for the end; with several, all but the first are of no account.  Both come to the
same: a session reads its tokens as if they were cut off behind the first mark, or closed by one
where there is none.

The rules stop in front of the first mark, so they tell no tokens apart that agree up to it.

Main statement: `reads_up_to_end`.
-/

namespace ScriptReader.Session

open Rule Phrase

/-- The mark that closes tokens among which there is none: it stands where the last of them does,
or where a script starts. -/
def closingMark (ts : List Token) : Token :=
  match ts.getLast? with
  | some t => .endAt t.position
  | none => .endAt .start

/-- The tokens up to the first end mark, and that mark, or one that closes them. -/
def upToEnd (ts : List Token) : List Token :=
  ts.takeWhile (!·.isEnd) ++ [(ts.find? Token.isEnd).getD (closingMark ts)]

theorem exists_upToEnd_eq (ts : List Token) (limit : Int) :
    ∃ us e more, ahead ⟨ts, 0, 0, limit⟩ = us ++ e :: more ∧ upToEnd ts = us ++ [e] ∧ Open us ∧
      e.isEnd = true := by
  have hmark : (closingMark ts).isEnd = true := isEnd_endMark ⟨ts, 0, 0, limit⟩
  obtain ⟨us, e, more, hahead, hus, he, -, hfront, hmore⟩ := exists_split_at_end hmark ts
  exact ⟨us, e, more, hahead, by rw [upToEnd, ← hfront, ← hmore], hus, he⟩

theorem run_upToEnd {α : Type} {limit : Int} {r : Rule α} (h : Stays limit r) (ts : List Token) :
    (run ⟨ts, 0, 0, limit⟩ r).1 = (run ⟨upToEnd ts, 0, 0, limit⟩ r).1 ∧
      (run ⟨ts, 0, 0, limit⟩ r).2.position = (run ⟨upToEnd ts, 0, 0, limit⟩ r).2.position := by
  obtain ⟨us, e, more, hahead, hcut, hus, he⟩ := exists_upToEnd_eq ts limit
  have hahead' : ahead ⟨upToEnd ts, 0, 0, limit⟩ = us ++ e :: [] := by
    rw [hcut, ahead_of_end he]
  obtain ⟨a, vs, ws, rfl, -, run⟩ | ⟨err, vs, ws, rfl, -, run⟩ := h.outcome hus he
  · rw [List.append_assoc] at hahead hahead'
    rw [run_of_ok hahead (run more), run_of_ok hahead' (run [])]
    exact ⟨rfl, rfl⟩
  · rw [List.append_assoc] at hahead hahead'
    rw [run_of_error hahead (run more), run_of_error hahead' (run [])]
    exact ⟨rfl, rfl⟩

/-- A session reads any construct from the first of its tokens with the outcome that it has on the
tokens up to the end, and is left at the same index.  The same is true of a session at work, which
looks for the end by the indices of its tokens. -/
theorem reads_up_to_end {limit : Int} (h : 1 ≤ limit) (ts : List Token) (what : Construct) :
    ∃ s t, ofTokens ts limit = .ok s ∧ ofTokens (upToEnd ts) limit = .ok t ∧
      (s.run (s.rule what)).1 = (t.run (t.rule what)).1 ∧
      (s.run (s.rule what)).2.position = (t.run (t.rule what)).2.position ∧
      ∀ steps : Nat, limit ≤ steps → ∃ c d,
        Work.ended (Work.construct steps what ⟨s, []⟩) = ((s.run (s.rule what)).1, c) ∧
        Work.ended (Work.construct steps what ⟨t, []⟩) = ((s.run (s.rule what)).1, d) ∧
        c.now.position = (s.run (s.rule what)).2.position ∧
        d.now.position = (s.run (s.rule what)).2.position := by
  refine ⟨_, _, ofTokens_ok.mpr ⟨h, rfl⟩, ofTokens_ok.mpr ⟨h, rfl⟩, ?_⟩
  have hstays := rule_stays ⟨ts, 0, 0, limit⟩ what
  obtain ⟨houtcome, hposition⟩ := run_upToEnd hstays ts
  refine ⟨houtcome, hposition, fun steps hsteps => ?_⟩
  have hle : ((0 : Nat) : Int) ≤ limit := Int.le_trans (by decide) h
  have hsteps' : limit ≤ ((0 : Nat) : Int) + steps := by omega
  obtain ⟨c, -, hc, hcnow, -⟩ :=
    construct_ended (s := ⟨ts, 0, 0, limit⟩) hle hsteps' [] what
  obtain ⟨d, -, hd, hdnow, -⟩ :=
    construct_ended (s := ⟨upToEnd ts, 0, 0, limit⟩) hle hsteps' [] what
  refine ⟨c, d, hc, ?_, ?_, ?_⟩
  · rw [hd, houtcome]
    rfl
  · rw [hcnow]
  · rw [hdnow, hposition]
    rfl

/-- A name is no statement, with no end mark behind it as with one at its own place. -/
theorem reads_up_to_end_name :
    let t : Token := ⟨.ident "x", ⟨2, 3, 7⟩, "x"⟩
    (1 : Int) ≤ 1 ∧ upToEnd [t] = [t, .endAt ⟨2, 3, 7⟩] ∧
      ∃ s s', ofTokens [t] 1 = .ok s ∧ ofTokens [t, .endAt ⟨2, 3, 7⟩] 1 = .ok s' ∧
        (s'.run (s'.rule (.statement []))).1 = .error (.located ⟨2, 3, 7⟩
          (.unfinished ([.symbol .semicolon] ++ (Kind.binaries ++ [.symbol .assign])))) ∧
        (s.run (s.rule (.statement []))).1 = (s'.run (s'.rule (.statement []))).1 ∧
        (s.run (s.rule (.statement []))).2.position = 1 := by
  intro t
  have hcut : upToEnd [t] = [t, .endAt ⟨2, 3, 7⟩] := rfl
  obtain ⟨s, s', hs, hs', houtcome, hposition, -⟩ :=
    reads_up_to_end (Int.le_refl 1) [t] (.statement [])
  rw [hcut] at hs'
  refine ⟨Int.le_refl 1, hcut, s, s', hs, hs', ?_, houtcome, ?_⟩
  · cases hs'
    rfl
  · rw [hposition]
    cases hs'
    rfl

end ScriptReader.Session
