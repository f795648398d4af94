import ScriptReader.Session
import ScriptReader.Proofs.ComparedRuns

/-!
# The tokens that are ahead

A session holds all its tokens and an index.  The rules of the grammar are run on the tokens ahead,
those from the index on, closed by an end mark.  What the session finds by its index is what the
rules find at the front of these tokens.

Main statements:

* `Session.current_eq`, `Session.peek_one`: the next token and the one behind it;
* `Session.ahead_of_position`: moving the index on.
-/

namespace ScriptReader.Session

open Rule

theorem remaining_eq_nil_or (s : Session) :
    s.remaining = [] ∧ s.tokens[s.position]? = none ∨
      ∃ t ts, s.remaining = t :: ts ∧ s.tokens[s.position]? = some t := by
  have hhead : s.remaining.head? = s.tokens[s.position]? := List.head?_drop
  cases hr : s.remaining with
  | nil =>
    rw [hr] at hhead
    exact Or.inl ⟨rfl, hhead.symm⟩
  | cons t ts =>
    rw [hr] at hhead
    exact Or.inr ⟨t, ts, rfl, hhead.symm⟩

theorem isEnd_endMark (s : Session) : s.endMark.isEnd = true := by
  unfold endMark
  split <;> rfl

theorem ahead_hasEnd (s : Session) : HasEnd s.ahead := by
  unfold ahead
  split
  · next h => exact List.any_eq_true.mp h
  · exact hasEnd_concat s.isEnd_endMark _

/-- The next token is the first one ahead. -/
theorem current_eq (s : Session) : s.current = firstToken s.ahead := by
  unfold current ahead
  rcases s.remaining_eq_nil_or with ⟨hr, ht⟩ | ⟨t, ts, hr, ht⟩
  · rw [hr, ht]
    rfl
  · rw [hr, ht]
    split <;> rfl

/-- There is a token behind the next one.  It is the second one ahead, unless the next one is an
end mark. -/
theorem peek_one (s : Session) :
    ∃ u, s.peek 1 = .ok u ∧
      ((firstToken s.ahead).isEnd = false → u = firstToken s.ahead.tail) := by
  refine ⟨s.tokens[s.position + 1]?.getD s.endMark, ?_, ?_⟩
  · have hindex : (s.position : Int) + 1 = ((s.position + 1 : Nat) : Int) := rfl
    unfold peek
    rw [hindex, if_pos (Int.natCast_nonneg _), Int.toNat_natCast]
  · intro hend
    have htail : s.remaining.tail.head? = s.tokens[s.position + 1]? := by
      rw [remaining, List.tail_drop, List.head?_drop]
    unfold ahead at hend ⊢
    rcases s.remaining_eq_nil_or with ⟨hr, -⟩ | ⟨t, ts, hr, -⟩
    · rw [hr] at hend
      simp [firstToken, isEnd_endMark] at hend
    · rw [hr] at hend htail ⊢
      rw [← htail]
      split
      · next hany =>
        -- the end mark is among the tokens behind the next one
        have ht : t.isEnd = false := by rwa [if_pos hany] at hend
        rw [List.any_cons, ht, Bool.false_or, List.any_eq_true] at hany
        obtain ⟨u, us, rfl⟩ := HasEnd.exists_cons hany
        rfl
      · cases ts <;> rfl

/-- Behind some tokens that were ahead, the others are ahead, if there is an end mark among
them. -/
theorem ahead_of_position {s : Session} {us rest : List Token} (h : s.ahead = us ++ rest)
    (hend : HasEnd rest) (depth : Nat) :
    ahead { s with position := s.position + us.length, depth := depth } = rest := by
  have hremaining : remaining { s with position := s.position + us.length, depth := depth } =
      s.remaining.drop us.length := by
    rw [remaining, remaining, List.drop_drop]
  have hmark : endMark { s with position := s.position + us.length, depth := depth } =
      s.endMark := rfl
  unfold ahead at h ⊢
  rw [hremaining, hmark]
  split at h
  · next hany =>
    rw [h, List.drop_left, if_pos (List.any_eq_true.mpr hend)]
  · next hany =>
    -- the end mark that closes the tokens ahead is the last of the rest
    obtain ⟨vs, hvs, rfl⟩ : ∃ vs, s.remaining = us ++ vs ∧ rest = vs ++ [s.endMark] := by
      rcases List.append_eq_append_iff.mp h with ⟨ws, hus, hws⟩ | ⟨ws, hrem, hrest⟩
      · cases ws with
        | nil => exact ⟨[], by simpa using hus.symm, by simpa using hws.symm⟩
        | cons w ws =>
          obtain ⟨-, hnil⟩ := List.cons.inj hws
          obtain ⟨-, rfl⟩ := List.append_eq_nil_iff.mp hnil.symm
          obtain ⟨t, ht, -⟩ := hend
          cases ht
      · exact ⟨ws, hrem, hrest⟩
    have hnone : vs.any Token.isEnd = false := by
      rw [hvs, List.any_append] at hany
      simpa using (by simpa using hany : ¬ (us.any Token.isEnd = true) ∧ _).2
    rw [hvs, List.drop_left, hnone]
    rfl

/-! ## Runs of rules -/

theorem run_of_ok {α : Type} {s : Session} {rule : Rule α} {a : α} {us rest : List Token}
    (ha : s.ahead = us ++ rest) (h : rule (us ++ rest) = .ok a rest) :
    s.run rule = (.ok a, { s with position := s.position + us.length }) := by
  have hlength : (us ++ rest).length - rest.length = us.length := by
    rw [List.length_append, Nat.add_sub_cancel]
  unfold run
  rw [ha, h, ← hlength]

theorem run_of_error {α : Type} {s : Session} {rule : Rule α} {err : Error} {us rest : List Token}
    (ha : s.ahead = us ++ rest) (h : rule (us ++ rest) = .error err rest) :
    s.run rule = (.error err, { s with position := s.position + us.length }) := by
  have hlength : (us ++ rest).length - rest.length = us.length := by
    rw [List.length_append, Nat.add_sub_cancel]
  unfold run
  rw [ha, h, ← hlength]

end ScriptReader.Session
