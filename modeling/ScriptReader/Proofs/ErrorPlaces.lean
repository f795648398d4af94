import Mathlib
import ScriptReader.Proofs.ParsedScripts
import ScriptReader.Proofs.SyntaxErrors

/-!
# Where errors stand

The position behind some text counts its newlines and the characters behind the last of them.
A token stands behind the text that was read before it, so its position counts that text, and
its lexeme is what follows there.  An error stands at a token or at a lexeme that cannot be
read, and what it quotes is found in the script at its offset.

Main statements:

* `Position.marks_after`: lines, columns and offsets of the position behind a text;
* `Tokenizes.standsIn`: where the tokens of a script stand;
* `parse_error_places`: where the errors of a script stand, and what they show there.
-/

namespace ScriptReader

open Phrase Grammar Rule

/-! ## Positions -/

namespace Position

theorem column_after {cs : List Char} (h : '\n' ∉ cs) (p : Position) :
    (p.after cs).column = p.column + cs.length := by
  induction cs generalizing p with
  | nil => simp
  | cons c cs ih =>
    obtain ⟨hc, hcs⟩ := not_or.mp (List.mem_cons.not.mp h)
    rw [after_cons, ih hcs, List.length_cons]
    unfold advance
    rw [if_neg (Ne.symm hc)]
    dsimp only
    omega

/-- The position is the place of a character of the text, or of its end: the line counts the
newlines before it, and the column the characters from the last of them on. -/
structure Marks (p : Position) (cs : List Char) : Prop where
  /-- The offset counts characters. -/
  nonneg : 0 ≤ p.offset
  /-- It is no more than all of them. -/
  le_length : p.offset ≤ cs.length
  /-- Each newline before the position has begun a line. -/
  line : p.line = 1 + (cs.take p.offset.toNat).count '\n'
  /-- In the first line the column counts all characters. -/
  first_line : '\n' ∉ cs.take p.offset.toNat → p.column = p.offset + 1
  /-- In a later one it is the distance to the last newline. -/
  later_line : ∀ i : Nat, i < p.offset → cs[i]? = some '\n' →
    (∀ j : Nat, i < j → j < p.offset → cs[j]? ≠ some '\n') → p.column = p.offset - i

/-- The position behind a text is the place of what follows it. -/
theorem marks_after (before rest : List Char) : (start.after before).Marks (before ++ rest) := by
  have hoffset : (start.after before).offset = before.length := by
    rw [offset_after]
    exact Int.zero_add _
  have htoNat : (start.after before).offset.toNat = before.length := by rw [hoffset]; rfl
  have htake : (before ++ rest).take (start.after before).offset.toNat = before := by
    rw [htoNat, List.take_left]
  refine ⟨by omega, ?_, ?_, ?_, ?_⟩
  · rw [hoffset, List.length_append]
    omega
  · rw [htake, line_after]
    rfl
  · rw [htake, hoffset]
    intro h
    rw [column_after h]
    show (1 : Int) + before.length = before.length + 1
    omega
  · intro i hi hnewline hlast
    rw [hoffset] at hi hlast ⊢
    have hi' : i < before.length := by omega
    rw [List.getElem?_append_left hi'] at hnewline
    -- the text before is cut at the newline, and behind it stands no other one
    have hsplit : before = before.take i ++ '\n' :: before.drop (i + 1) := by
      have hget : before[i] = '\n' := by
        rw [List.getElem?_eq_getElem hi'] at hnewline
        exact Option.some.inj hnewline
      rw [← hget, ← List.drop_eq_getElem_cons hi', List.take_append_drop]
    have hline : '\n' ∉ before.drop (i + 1) := by
      intro hm
      obtain ⟨k, hk, hget⟩ := List.getElem_of_mem hm
      rw [List.length_drop] at hk
      rw [List.getElem_drop] at hget
      refine hlast (i + 1 + k) (by omega) (by omega) ?_
      rw [List.getElem?_append_left (by omega), List.getElem?_eq_getElem (by omega), hget]
    have hcolumn : (start.after before).column = 1 + (before.drop (i + 1)).length := by
      conv_lhs => rw [hsplit]
      rw [after_append, after_cons, column_after hline]
      rfl
    rw [hcolumn, List.length_drop]
    omega

end Position

/-! ## Tokens -/

/-- In the text `cs` behind `p` the token stands where it says, and there its lexeme is found.
Only the end mark has none, and it stands at the end. -/
def Token.StandsIn (t : Token) (p : Position) (cs : List Char) : Prop :=
  ∃ before rest, cs = before ++ (t.lexeme.toList ++ rest) ∧ t.position = p.after before ∧
    (t.isEnd = true → t.lexeme.toList ++ rest = []) ∧ (t.isEnd = false → t.lexeme ≠ "")

theorem Token.StandsIn.append {t : Token} {p : Position} {us cs : List Char}
    (h : t.StandsIn (p.after us) cs) : t.StandsIn p (us ++ cs) := by
  obtain ⟨before, rest, rfl, hp, h⟩ := h
  exact ⟨us ++ before, rest, by rw [List.append_assoc], by rw [hp, Position.after_append], h⟩

/-- The tokens of a text stand in it. -/
theorem Tokenizes.standsIn {p : Position} {cs : List Char} {ts : List Token}
    {failure : Option Error} (h : Tokenizes p cs ts failure) : ∀ t ∈ ts, t.StandsIn p cs := by
  induction h with
  | @finish p gap hg =>
    intro t ht
    obtain rfl := List.mem_singleton.mp ht
    exact ⟨gap, [], by simp [Token.endAt], rfl, fun _ => rfl, fun h => Bool.noConfusion h⟩
  | @token p gap text rest content ts failure hg hm later ih =>
    intro t ht
    rcases List.mem_cons.mp ht with rfl | ht
    · have hend : Token.isEnd ⟨content, p.after gap, String.ofList text⟩ = false := by
        simpa [Token.isEnd, Token.kind] using hm.spells.kind_ne_eof
      refine ⟨gap, rest, by rw [String.toList_ofList], rfl, ?_, fun _ hempty => ?_⟩
      · intro he
        rw [hend] at he
        cases he
      · exact hm.spells.ne_nil (String.ofList_eq_empty_iff.mp hempty)
    · exact (ih t ht).append.append
  | malformed _ _ =>
    intro t ht
    cases ht
  | unrecognized _ _ =>
    intro t ht
    cases ht

/-! ## Faults -/

/-- What a fault at the position `p` says of the script: what it quotes stands there.  The other
faults do not occur while a script is parsed. -/
def Fault.Shows (source : String) (p : Position) : Fault → Prop
  | .unrecognized found =>
    ∃ c, found = String.singleton c ∧ source.toList[p.offset.toNat]? = some c
  | .malformed literal _ => literal.toList <+: source.toList.drop p.offset.toNat
  | .tooManyDigits count =>
    ∃ negative ds, Digits ds ∧ ds.length = count ∧
      signChars negative ++ ds <+: source.toList.drop p.offset.toNat
  | .unexpected found _ =>
    found ≠ "" ∧ found.toList <+: source.toList.drop p.offset.toNat ∧
      ∃ tokens, tokenize source = .ok tokens ∧ ∃ t ∈ tokens, t.position = p ∧ t.lexeme = found
  | .unfinished _ => p.offset = source.length
  | .tooDeep _ => ∃ tokens, tokenize source = .ok tokens ∧ ∃ t ∈ tokens, t.position = p
  | .noDigits _ => False
  | .cutShort _ => False
  | .custom _ => False

theorem Spells.fault_cases {t : List Char} {fault : Fault} (h : Spells t (.error fault)) :
    (∃ type, fault = .malformed (String.ofList t) type) ∨
      ∃ negative ds, Digits ds ∧ t = signChars negative ++ ds ∧
        fault = .tooManyDigits ds.length := by
  generalize ho : (.error fault : Except Fault Content) = o at h
  cases h with
  | @integer negative ds hds =>
    unfold decodeInteger at ho
    dsimp only at ho
    split at ho
    · cases ho
      exact Or.inr ⟨negative, ds, hds, rfl, rfl⟩
    · split at ho
      · cases ho
      · cases ho
        exact Or.inl ⟨_, rfl⟩
  | decimal _ _ =>
    unfold decodeDecimal at ho
    split at ho
    · cases ho
    · cases ho
      exact Or.inl ⟨_, rfl⟩
  | _ => cases ho

theorem drop_offset_after (before rest : List Char) :
    (before ++ rest).drop (Position.start.after before).offset.toNat = rest := by
  have hoffset : (Position.start.after before).offset.toNat = before.length := by
    rw [Position.offset_after]
    show ((0 : Int) + before.length).toNat = before.length
    omega
  rw [hoffset, List.drop_left]

theorem Tokenizes.exists_failure {p : Position} {cs : List Char} {ts : List Token}
    {failure : Option Error} {err : Error} (h : Tokenizes p cs ts failure)
    (hf : failure = some err) :
    ∃ before rest fault, cs = before ++ rest ∧ err = .located (p.after before) fault ∧
      ((∃ c more, rest = c :: more ∧ fault = .unrecognized (String.singleton c)) ∨
        ∃ t more, rest = t ++ more ∧ Spells t (.error fault)) := by
  induction h with
  | finish _ => cases hf
  | @token p gap text rest _ _ _ _ _ _ ih =>
    obtain ⟨before, rest', fault, rfl, rfl, hcases⟩ := ih hf
    refine ⟨gap ++ (text ++ before), rest', fault, by simp, ?_, hcases⟩
    rw [Position.after_append, Position.after_append]
  | @malformed p gap text rest fault _ hm =>
    cases hf
    exact ⟨gap, text ++ rest, fault, rfl, rfl, Or.inr ⟨text, rest, rfl, hm.spells⟩⟩
  | @unrecognized p gap cs c _ _ =>
    cases hf
    exact ⟨gap, c :: cs, _, rfl, rfl, Or.inl ⟨c, cs, rfl, rfl⟩⟩

theorem tokenize_error_places {source : String} {p : Position} {fault : Fault}
    (h : tokenize source = .error (.located p fault)) :
    p.Marks source.toList ∧ fault.Shows source p := by
  obtain ⟨ts, hts⟩ := tokenize_error_iff.mp h
  obtain ⟨before, rest, fault', hsource, herr, hcases⟩ := hts.exists_failure rfl
  cases herr
  have hdrop := drop_offset_after before rest
  rw [← hsource] at hdrop
  refine ⟨hsource ▸ Position.marks_after before rest, ?_⟩
  rcases hcases with ⟨c, more, rfl, rfl⟩ | ⟨t, more, rfl, ht⟩
  · refine ⟨c, rfl, ?_⟩
    rw [← List.head?_drop, hdrop]
    rfl
  · rcases ht.fault_cases with ⟨type, rfl⟩ | ⟨negative, ds, hds, rfl, rfl⟩
    · show (String.ofList t).toList <+: _
      rw [hdrop, String.toList_ofList]
      exact List.prefix_append t more
    · refine ⟨negative, ds, hds, rfl, ?_⟩
      rw [hdrop]
      exact List.prefix_append _ more

/-! ## Errors of the grammar -/

theorem run_error_places {source : String} {tokens : List Token} {limit : Int} {s s' : Session}
    {p : Position} {fault : Fault} (htok : tokenize source = .ok tokens)
    (hs : Session.ofTokens tokens limit = .ok s)
    (h : s.run s.program = (.error (.located p fault), s')) :
    p.Marks source.toList ∧ fault.Shows source p := by
  obtain ⟨ts, e, rfl, he, -⟩ := spelled_of_tokenize htok
  obtain ⟨us, t, rest, htokens, -, hfail⟩ := Session.run_program_error_of_end he hs h
  have hmem : t ∈ ts ++ [e] := by simp [htokens]
  obtain ⟨before, behind, hsource, hpos, hend, hlexeme⟩ :=
    (tokenize_ok_iff.mp htok).standsIn t hmem
  have hmarks : t.position.Marks source.toList := by
    rw [hsource, hpos]
    exact Position.marks_after _ _
  rcases hfail with ⟨ks, herr, -⟩ | ⟨herr, -⟩
  · unfold Token.refuse at herr
    cases hisEnd : t.isEnd with
    | true =>
      rw [hisEnd] at herr
      cases herr
      refine ⟨hmarks, ?_⟩
      have hlength := congrArg List.length hsource
      rw [hend hisEnd, List.append_nil, String.length_toList] at hlength
      show t.position.offset = source.length
      rw [hpos, Position.offset_after, hlength]
      exact Int.zero_add _
    | false =>
      rw [hisEnd] at herr
      cases herr
      refine ⟨hmarks, hlexeme hisEnd, ?_, _, htok, t, hmem, rfl, rfl⟩
      rw [hpos, hsource, drop_offset_after]
      exact List.prefix_append _ behind
  · cases herr
    exact ⟨hmarks, _, htok, t, hmem, rfl⟩

theorem parse_error {source : String} {limit : Int} {err : Error}
    (h : parse source limit = .error err) :
    err = .limitNotPositive limit ∨ tokenize source = .error err ∨
      ∃ tokens s s', tokenize source = .ok tokens ∧ Session.ofTokens tokens limit = .ok s ∧
        s.run s.program = (.error err, s') := by
  cases hs : Session.ofSource source limit with
  | error e =>
    rw [parse_of_ofSource_error hs] at h
    cases h
    unfold Session.ofSource at hs
    split at hs
    · cases hs
      exact Or.inl rfl
    · next hl =>
      split at hs
      · next e' htok =>
        cases hs
        exact Or.inr (Or.inl htok)
      · next tokens htok =>
        have hs' : Session.ofTokens tokens limit = .ok ⟨tokens, 0, 0, limit⟩ :=
          Session.ofTokens_ok.mpr ⟨by omega, rfl⟩
        rw [hs'] at hs
        cases hs
  | ok s =>
    obtain ⟨tokens, htok, hs'⟩ := ofSource_ok_iff.mp hs
    rw [parse_eq_run hs] at h
    exact Or.inr (Or.inr ⟨tokens, s, (s.run s.program).2, htok, hs', Prod.ext h rfl⟩)

/-- An error of a script stands at a place of the text: its line, its column and its offset
agree.  What it says is found there: the character that no rule begins with, the literal
without a value, the token that is complained of, the token that nests too deep, or the end of
the script. -/
theorem parse_error_places {source : String} {limit : Int} {p : Position} {fault : Fault}
    (h : parse source limit = .error (.located p fault)) :
    p.Marks source.toList ∧ fault.Shows source p := by
  rcases parse_error h with hl | htok | ⟨tokens, s, s', htok, hs, hr⟩
  · cases hl
  · exact tokenize_error_places htok
  · exact run_error_places htok hs hr

/-- The parenthesis on the second line of a script is complained of in its second column. -/
theorem parse_error_places_second_line :
    parse "x\n+)" 128 = .error (.located ⟨2, 2, 3⟩ (.unexpected ")" Kind.atomStarts)) ∧
      (⟨2, 2, 3⟩ : Position).Marks "x\n+)".toList := by
  have h : parse "x\n+)" 128 = .error (.located ⟨2, 2, 3⟩ (.unexpected ")" Kind.atomStarts)) := by
    cbv
  exact ⟨h, (parse_error_places h).1⟩

end ScriptReader
