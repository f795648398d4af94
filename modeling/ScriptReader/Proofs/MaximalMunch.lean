import ScriptReader.TokenStream
import ScriptReader.Proofs.SpelledContents

/-!
# Longest matches

The tokens of a script, said without a program: skip the longest run of blanks and comments,
then take the longest text that a rule of the lexicon matches, and go on behind it.  `Skips`
and `Spells` tell what can be skipped and matched, and `Tokenizes` is the whole of it, with the
ways in which it ends: at the end of the text, at a lexeme without a value, or where no rule
matches.

Main statements:

* `longestGap_iff`: `splitGap` cuts behind the longest gap;
* `tokenStream_eq_iff`: the tokens of a script and the error behind them are those of the
  longest matches.
-/

namespace ScriptReader

/-! ## Gaps -/

/-- In front of `rest` the text `gap` can be skipped: it is made of blanks and of comments,
each running up to the next newline or to the end. -/
inductive Skips : (gap rest : List Char) → Prop
  | nil {rest : List Char} : Skips [] rest
  | blank {c : Char} {gap rest : List Char} (hc : isBlank c = true) (h : Skips gap rest) :
      Skips (c :: gap) rest
  | comment {body gap rest : List Char} (hb : '\n' ∉ body)
      (hend : Ends (· != '\n') (gap ++ rest)) (h : Skips gap rest) :
      Skips ('/' :: '/' :: body ++ gap) rest

/-- The longest text that can be skipped in front of `rest` is `gap`. -/
structure LongestGap (gap rest : List Char) : Prop where
  /-- It can be skipped. -/
  skips : Skips gap rest
  /-- No more can be skipped. -/
  longest : ∀ {gap' rest' : List Char}, Skips gap' rest' → gap' ++ rest' = gap ++ rest →
    gap'.length ≤ gap.length

theorem splitGap_blank {c : Char} {cs : List Char} (hc : isBlank c = true) :
    splitGap false (c :: cs) = (c :: (splitGap false cs).1, (splitGap false cs).2) := by
  rw [splitGap, if_pos hc]
  rintro _ rfl
  cases hc

/-- A text that begins with no blank and with no comment has no gap in front of it. -/
theorem splitGap_nil {c : Char} {cs : List Char} (hb : isBlank c = false)
    (hs : c = '/' → ∀ more, cs ≠ '/' :: more) : splitGap false (c :: cs) = ([], c :: cs) := by
  rw [splitGap, if_neg (by simp [hb])]
  rintro more rfl rfl
  exact hs rfl more rfl

theorem splitGap_comment {body rest : List Char} (hb : '\n' ∉ body)
    (hend : Ends (· != '\n') rest) :
    (splitGap true (body ++ rest)).2 = (splitGap false rest).2 := by
  induction body with
  | nil =>
    cases rest with
    | nil => rfl
    | cons c more =>
      obtain rfl : c = '\n' := by simpa using hend c more rfl
      rw [splitGap_blank rfl]
      rfl
  | cons c body ih =>
    obtain ⟨hc, hb'⟩ := not_or.mp (List.mem_cons.not.mp hb)
    have hne : (c != '\n') = true := by simpa using Ne.symm hc
    rw [List.cons_append, splitGap, hne]
    exact ih hb'

theorem Skips.splitGap_append {gap rest : List Char} (h : Skips gap rest) :
    (splitGap false (gap ++ rest)).2 = (splitGap false rest).2 := by
  induction h with
  | nil => rfl
  | blank hc _ ih =>
    rw [List.cons_append, splitGap_blank hc]
    exact ih
  | @comment body gap rest hb hend _ ih =>
    rw [List.append_assoc]
    exact (splitGap_comment hb hend).trans ih

/-- What is skipped belongs to the gap, and the rest of the gap follows. -/
theorem Skips.splitGap_eq {gap rest : List Char} (h : Skips gap rest) :
    splitGap false (gap ++ rest) = (gap ++ (splitGap false rest).1, (splitGap false rest).2) := by
  have hsnd := h.splitGap_append
  have happ := ScriptReader.splitGap_append false (gap ++ rest)
  have hrest := ScriptReader.splitGap_append false rest
  rw [hsnd] at happ
  have hfst : (splitGap false (gap ++ rest)).1 = gap ++ (splitGap false rest).1 := by
    refine List.append_cancel_right (happ.trans ?_)
    rw [List.append_assoc, hrest]
  exact Prod.ext hfst hsnd

/-- In front of `rest` the text `gap` can be skipped once a comment is open. -/
def SkipsInComment (gap rest : List Char) : Prop :=
  ∃ body gap', gap = body ++ gap' ∧ '\n' ∉ body ∧ Ends (· != '\n') (gap' ++ rest) ∧
    Skips gap' rest

theorem skips_splitGap (inComment : Bool) (cs : List Char) :
    (inComment = true → SkipsInComment (splitGap inComment cs).1 (splitGap inComment cs).2) ∧
      (inComment = false → Skips (splitGap inComment cs).1 (splitGap inComment cs).2) := by
  fun_induction splitGap inComment cs with
  | case1 inComment =>
    refine ⟨fun _ => ⟨[], [], rfl, by simp, ?_, .nil⟩, fun _ => .nil⟩
    rintro c more he
    cases he
  | case2 c cs gap rest heq ih =>
    rw [heq] at ih
    refine ⟨fun _ => ?_, fun h => Bool.noConfusion h⟩
    by_cases hc : c = '\n'
    · -- the newline ends the comment and is a blank behind it
      subst hc
      refine ⟨[], '\n' :: gap, rfl, by simp, ?_, .blank rfl (ih.2 rfl)⟩
      rintro c more he
      cases he
      rfl
    · obtain ⟨body, gap', rfl, hb, hend, hg⟩ := ih.1 (by simpa using hc)
      exact ⟨c :: body, gap', rfl, by simpa [Ne.symm hc] using hb, hend, hg⟩
  | case3 cs gap rest heq ih =>
    rw [heq] at ih
    refine ⟨fun h => Bool.noConfusion h, fun _ => ?_⟩
    obtain ⟨body, gap', rfl, hb, hend, hg⟩ := ih.1 rfl
    exact .comment hb hend hg
  | case4 c cs _ hc gap rest heq ih =>
    rw [heq] at ih
    exact ⟨fun h => Bool.noConfusion h, fun _ => .blank hc (ih.2 rfl)⟩
  | case5 c cs _ hc => exact ⟨fun h => Bool.noConfusion h, fun _ => .nil⟩

/-- `splitGap` cuts a text behind its longest gap. -/
theorem longestGap_iff {gap rest : List Char} :
    LongestGap gap rest ↔ splitGap false (gap ++ rest) = (gap, rest) := by
  have happ := splitGap_append false (gap ++ rest)
  constructor
  · intro h
    have hrest := h.skips.splitGap_append
    have hle := h.longest ((skips_splitGap false (gap ++ rest)).2 rfl) happ
    have hle' := length_splitGap_le false rest
    have hlen := congrArg List.length happ
    rw [List.length_append, List.length_append, hrest] at hlen
    obtain ⟨h₁, h₂⟩ := List.append_inj happ (by omega)
    exact Prod.ext h₁ h₂
  · intro h
    refine ⟨?_, ?_⟩
    · have hs := (skips_splitGap false (gap ++ rest)).2 rfl
      rwa [h] at hs
    · intro gap' rest' hs heq
      have hrest := hs.splitGap_append
      rw [heq, h] at hrest
      have hle := length_splitGap_le false rest'
      have hlen := congrArg List.length heq
      rw [List.length_append, List.length_append] at hlen
      rw [← hrest] at hle
      dsimp only at hle
      omega

/-! ## Tokens -/

/-- The tokens of the text behind `p`, taken by longest matches, and the error at which they
end if one does. -/
inductive Tokenizes : Position → List Char → List Token → Option Error → Prop
  | finish {p : Position} {gap : List Char} (hg : LongestGap gap []) :
      Tokenizes p gap [.endAt (p.after gap)] none
  | token {p : Position} {gap t rest : List Char} {content : Content} {ts : List Token}
      {failure : Option Error} (hg : LongestGap gap (t ++ rest))
      (hm : LongestMatch t (.ok content) rest)
      (later : Tokenizes ((p.after gap).after t) rest ts failure) :
      Tokenizes p (gap ++ (t ++ rest)) (⟨content, p.after gap, String.ofList t⟩ :: ts) failure
  | malformed {p : Position} {gap t rest : List Char} {fault : Fault}
      (hg : LongestGap gap (t ++ rest)) (hm : LongestMatch t (.error fault) rest) :
      Tokenizes p (gap ++ (t ++ rest)) [] (some (.located (p.after gap) fault))
  | unrecognized {p : Position} {gap cs : List Char} {c : Char} (hg : LongestGap gap (c :: cs))
      (hm : ∀ u o, Spells u o → ¬ u <+: c :: cs) :
      Tokenizes p (gap ++ c :: cs) []
        (some (.located (p.after gap) (.unrecognized (String.singleton c))))

theorem LongestGap.readToken_eq {gap body : List Char} (h : LongestGap gap body) (p : Position) :
    readToken p (gap ++ body) = ⟨gap, (scan body).taken, (scan body).rest, p.after gap,
      (scan body).tokenAt (p.after gap)⟩ := by
  unfold readToken
  rw [longestGap_iff.mp h]

theorem Spells.ne_nil {t : List Char} {o : Except Fault Content} (h : Spells t o) : t ≠ [] := by
  cases h with
  | word _ _ => exact List.cons_ne_nil _ _
  | integer _ hds => exact List.append_ne_nil_of_right_ne_nil _ hds.1
  | decimal _ _ => exact List.append_ne_nil_of_right_ne_nil _ (List.cons_ne_nil _ _)
  | string _ => exact List.append_ne_nil_of_right_ne_nil _ (List.cons_ne_nil _ _)
  | char _ => exact List.cons_ne_nil _ _
  | symbol s => exact s.chars_ne_nil

theorem Spells.kind_ne_eof {t : List Char} {content : Content} (h : Spells t (.ok content)) :
    content.kind ≠ .eof := by
  have hs : content.Spellable := Content.spellable_of_spelled ⟨t, h⟩
  intro hk
  cases content with
  | eof text => exact hs
  | _ => cases hk

theorem streamFrom_finish {gap : List Char} (hg : LongestGap gap []) (p : Position) :
    streamFrom p gap = ⟨[.endAt (p.after gap)], none⟩ := by
  have hr := hg.readToken_eq p
  rw [List.append_nil] at hr
  rw [streamFrom_eq, hr]
  rfl

theorem streamFrom_token {gap t rest : List Char} {content : Content}
    (hg : LongestGap gap (t ++ rest)) (hm : LongestMatch t (.ok content) rest) (p : Position) :
    streamFrom p (gap ++ (t ++ rest)) =
      ⟨⟨content, p.after gap, String.ofList t⟩ ::
          (streamFrom ((p.after gap).after t) rest).tokens,
        (streamFrom ((p.after gap).after t) rest).failure⟩ := by
  have hend : Token.isEnd ⟨content, p.after gap, String.ofList t⟩ = false := by
    simpa [Token.isEnd, Token.kind] using hm.spells.kind_ne_eof
  rw [streamFrom_eq, hg.readToken_eq p, hm.scan_eq]
  show (if Token.isEnd ⟨content, p.after gap, String.ofList t⟩ = true then _ else _) = _
  rw [hend]
  rfl

theorem streamFrom_malformed {gap t rest : List Char} {fault : Fault}
    (hg : LongestGap gap (t ++ rest)) (hm : LongestMatch t (.error fault) rest) (p : Position) :
    streamFrom p (gap ++ (t ++ rest)) = ⟨[], some (.located (p.after gap) fault)⟩ := by
  rw [streamFrom_eq, hg.readToken_eq p, hm.scan_eq]
  rfl

theorem streamFrom_unrecognized {gap cs : List Char} {c : Char} (hg : LongestGap gap (c :: cs))
    (hm : ∀ u o, Spells u o → ¬ u <+: c :: cs) (p : Position) :
    streamFrom p (gap ++ c :: cs) =
      ⟨[], some (.located (p.after gap) (.unrecognized (String.singleton c)))⟩ := by
  rw [streamFrom_eq, hg.readToken_eq p]
  dsimp only
  rw [Scan.tokenAt, scan_of_no_match hm]

theorem Tokenizes.streamFrom_eq {p : Position} {cs : List Char} {ts : List Token}
    {failure : Option Error} (h : Tokenizes p cs ts failure) :
    streamFrom p cs = ⟨ts, failure⟩ := by
  induction h with
  | finish hg => exact streamFrom_finish hg _
  | token hg hm _ ih => rw [streamFrom_token hg hm, ih]
  | malformed hg hm => exact streamFrom_malformed hg hm _
  | unrecognized hg hm => exact streamFrom_unrecognized hg hm _

/-- Every text is cut up into longest matches, as far as there are any. -/
theorem tokenizes_streamFrom (p : Position) (cs : List Char) :
    Tokenizes p cs (streamFrom p cs).tokens (streamFrom p cs).failure := by
  induction hn : cs.length using Nat.strongRecOn generalizing p cs with
  | ind n ih =>
    obtain ⟨gap, body, hgap⟩ : ∃ gap body, splitGap false cs = (gap, body) := ⟨_, _, rfl⟩
    have happ := splitGap_append false cs
    rw [hgap] at happ
    subst happ
    have hg := longestGap_iff.mpr hgap
    cases body with
    | nil =>
      rw [List.append_nil, streamFrom_finish hg]
      exact .finish hg
    | cons c body =>
      by_cases hm : ∃ u r, Spells u r ∧ u <+: c :: body
      · -- a rule matches: go on behind the longest match
        obtain ⟨u, r, hu, hpre⟩ := hm
        obtain ⟨t, o, rest, heq, hm⟩ := exists_longestMatch hu hpre
        have hlt := List.length_pos_iff.mpr hm.spells.ne_nil
        dsimp only at hn
        rw [heq] at hg hn ⊢
        simp only [List.length_append] at hn
        cases o with
        | ok content =>
          rw [streamFrom_token hg hm]
          exact .token hg hm (ih rest.length (by omega) _ rest rfl)
        | error fault =>
          rw [streamFrom_malformed hg hm]
          exact .malformed hg hm
      · have hnone : ∀ u r, Spells u r → ¬ u <+: c :: body :=
          fun u r hu hpre => hm ⟨u, r, hu, hpre⟩
        rw [streamFrom_unrecognized hg hnone]
        exact .unrecognized hg hnone

/-- The tokens of a script and the error behind them are those of the longest matches. -/
theorem tokenStream_eq_iff {source : String} {ts : List Token} {failure : Option Error} :
    tokenStream source = ⟨ts, failure⟩ ↔ Tokenizes .start source.toList ts failure := by
  constructor
  · intro h
    have ht := tokenizes_streamFrom .start source.toList
    rw [show streamFrom .start source.toList = ⟨ts, failure⟩ from h] at ht
    exact ht
  · intro h
    exact h.streamFrom_eq

/-- A point belongs to a number only with a digit behind it, a minus sign to the digits behind
it, and no fraction to a number with a sign. -/
example :
    (tokenStream "1..2 --1 -1.5").tokens.map Token.content =
      [.int 1, .symbol .dots "..", .int 2, .symbol .decrement "--", .int 1, .int (-1)] := by
  decide +kernel

end ScriptReader
