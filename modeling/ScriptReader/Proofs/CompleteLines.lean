import ScriptReader.Proofs.ParsedScripts
import ScriptReader.Proofs.Relocation
import ScriptReader.Proofs.SpacedLexemes

/-!
# Complete lines

A newline ends what stands before it.  No lexeme goes on behind it but a text in quotes, and that
one would not have been closed; and a comment is over.  So a script that can be read to its end,
with a newline and another text behind it, is cut up into its own tokens and then into those of
the other text, which stand as many lines and characters further down as the script has.

Main statements:

* `Tokenizes.move`: a text further down is cut up alike;
* `Tokenizes.append_line`: the tokens of a script with another text behind it;
* `tokenize_append_line`: what comes of a script with another text behind it.
-/

namespace ScriptReader

/-! ## Gaps -/

theorem splitGap_append_line (inComment : Bool) (cs bs : List Char) :
    splitGap inComment (cs ++ '\n' :: bs) =
      if (splitGap inComment cs).2 = [] then
        (cs ++ '\n' :: (splitGap false bs).1, (splitGap false bs).2)
      else ((splitGap inComment cs).1, (splitGap inComment cs).2 ++ '\n' :: bs) := by
  fun_induction splitGap inComment cs with
  | case1 inComment =>
    cases inComment with
    | true => rfl
    | false => exact splitGap_blank rfl
  | case2 c cs gap rest heq ih =>
    rw [heq] at ih
    rw [List.cons_append, splitGap, ih]
    cases rest <;> rfl
  | case3 cs gap rest heq ih =>
    rw [heq] at ih
    rw [List.cons_append, List.cons_append, splitGap, ih]
    cases rest <;> rfl
  | case4 c cs _ hc gap rest heq ih =>
    rw [heq] at ih
    rw [List.cons_append, splitGap_blank hc, ih]
    split <;> rfl
  | case5 c cs hslash hc =>
    rw [if_neg (List.cons_ne_nil c cs), List.cons_append]
    refine splitGap_nil (by simpa using hc) ?_
    intro hc' more hmore
    cases cs with
    | nil => cases hmore
    | cons d cs =>
      obtain ⟨rfl, -⟩ := List.cons.inj hmore
      exact hslash cs hc' rfl

/-- Where more than a gap stands in front of a newline, the gap is the same. -/
theorem LongestGap.append_line {gap body : List Char} (h : LongestGap gap body) (hne : body ≠ [])
    (bs : List Char) : LongestGap gap (body ++ '\n' :: bs) := by
  refine longestGap_iff.mpr ?_
  rw [← List.append_assoc, splitGap_append_line, longestGap_iff.mp h, if_neg hne]

theorem LongestGap.line {cs gap rest : List Char} (h : LongestGap cs [])
    (hg : LongestGap gap rest) : LongestGap (cs ++ '\n' :: gap) rest := by
  have hcs := longestGap_iff.mp h
  rw [List.append_nil] at hcs
  refine longestGap_iff.mpr ?_
  rw [List.append_assoc, List.cons_append, splitGap_append_line, hcs, if_pos rfl,
    longestGap_iff.mp hg]

/-! ## Lexemes -/

/-- A newline behind some text does not make a match longer. -/
theorem LongestMatch.append_line {t rest : List Char} {o : Except Fault Content}
    (h : LongestMatch t o rest) (bs : List Char) : LongestMatch t o (rest ++ '\n' :: bs) := by
  refine ⟨h.spells, ?_⟩
  intro u r hu hpre
  rw [← List.append_assoc] at hpre
  have hline : t ++ rest <+: (t ++ rest) ++ '\n' :: bs := List.prefix_append _ _
  by_cases hle : u.length ≤ (t ++ rest).length
  · exact h.longest hu (List.prefix_of_prefix_length_le hpre hline hle)
  · -- a longer match would hold the newline
    obtain ⟨v, rfl⟩ := List.prefix_of_prefix_length_le hline hpre (by omega)
    cases v with
    | nil => simp at hle
    | cons c v =>
      obtain ⟨w, hw⟩ := (List.prefix_append_right_inj (t ++ rest)).mp hpre
      obtain ⟨rfl, -⟩ := List.cons.inj hw
      rw [List.append_assoc] at hu
      have hnewline : isBlank '\n' = true := rfl
      exact absurd hu (h.spells.not_append_of_blank hnewline (by simp))

/-! ## Tokens -/

/-- A text further down is cut up alike. -/
theorem Tokenizes.move {p : Position} {cs : List Char} {ts : List Token} {failure : Option Error}
    (h : Tokenizes p cs ts failure) (m : Shift) :
    Tokenizes (m.position p) cs (ts.map m.token) (failure.map m.error) := by
  induction h with
  | @finish p gap hg =>
    have hend := Tokenizes.finish (p := m.position p) hg
    rw [m.after_position] at hend
    exact hend
  | @token p gap t rest content ts failure hg hm _ ih =>
    rw [← m.after_position, ← m.after_position] at ih
    have htoken := Tokenizes.token hg hm ih
    rw [m.after_position] at htoken
    exact htoken
  | @malformed p gap t rest fault hg hm =>
    have hfail := Tokenizes.malformed (p := m.position p) hg hm
    rw [m.after_position] at hfail
    exact hfail
  | @unrecognized p gap cs c hg hm =>
    have hfail := Tokenizes.unrecognized (p := m.position p) hg hm
    rw [m.after_position] at hfail
    exact hfail

theorem Tokenizes.behind_gap {p : Position} {cs bs : List Char} {ts : List Token}
    {failure : Option Error} (hg : LongestGap cs [])
    (h : Tokenizes (p.after (cs ++ ['\n'])) bs ts failure) :
    Tokenizes p (cs ++ '\n' :: bs) ts failure := by
  have hafter : ∀ gap, (p.after (cs ++ ['\n'])).after gap = p.after (cs ++ '\n' :: gap) := by
    intro gap
    rw [← Position.after_append, List.append_assoc, List.singleton_append]
  have happ : ∀ gap rest : List Char,
      cs ++ '\n' :: (gap ++ rest) = cs ++ '\n' :: gap ++ rest := by simp
  cases h with
  | finish hgap =>
    rw [hafter]
    exact .finish (hg.line hgap)
  | token hgap hm later =>
    rw [hafter] at later
    rw [hafter, happ]
    exact .token (hg.line hgap) hm later
  | malformed hgap hm =>
    rw [hafter, happ]
    exact .malformed (hg.line hgap) hm
  | unrecognized hgap hm =>
    rw [hafter, happ]
    exact .unrecognized (hg.line hgap) hm

/-- Behind a script that is read to its end and a newline, another text is cut up alike.  The end
mark of the script is left out. -/
theorem Tokenizes.append_line {p : Position} {cs bs : List Char} {ts us : List Token}
    {failure : Option Error} (h : Tokenizes p cs ts none)
    (hbs : Tokenizes (p.after (cs ++ ['\n'])) bs us failure) :
    Tokenizes p (cs ++ '\n' :: bs) (ts.dropLast ++ us) failure := by
  generalize hnone : (none : Option Error) = ending at h
  induction h with
  | finish hg => exact .behind_gap hg hbs
  | @token p gap t rest content ts ending hg hm hlater ih =>
    have hbody : t ++ rest ≠ [] := List.append_ne_nil_of_left_ne_nil hm.spells.ne_nil rest
    have hgap := hg.append_line hbody bs
    have hmatch := hm.append_line bs
    have hposition : p.after (gap ++ (t ++ rest) ++ ['\n']) =
        ((p.after gap).after t).after (rest ++ ['\n']) := by
      simp only [Position.after_append]
    rw [hposition] at hbs
    rw [List.append_assoc] at hgap
    have htoken := Tokenizes.token hgap hmatch (ih hbs hnone)
    obtain ⟨us, e, rfl, -⟩ := hlater.exists_append_end hnone.symm
    rw [List.dropLast_cons_of_ne_nil (by simp)]
    simpa using htoken
  | malformed => cases hnone
  | unrecognized => cases hnone

/-! ## Scripts -/

/-- How much further down a text stands behind a script and a newline. -/
def Shift.behind (a : String) : Shift :=
  ⟨a.toList.count '\n' + 1, a.length + 1⟩

theorem Shift.position_behind (a : String) :
    (behind a).position .start = Position.start.after (a.toList ++ ['\n']) := by
  rw [Position.after_append]
  show _ = (Position.start.after a.toList).advance '\n'
  unfold Position.advance
  rw [if_pos rfl, Position.line_after, Position.offset_after, String.length_toList]
  simp only [behind, position, Position.start, Position.mk.injEq, true_and]
  omega

theorem tokenStream_append_line {a : String} {ts : List Token} (h : tokenize a = .ok ts)
    (b : String) : tokenStream (a ++ "\n" ++ b) =
      ⟨ts.dropLast ++ (tokenStream b).tokens.map (Shift.behind a).token,
        (tokenStream b).failure.map (Shift.behind a).error⟩ := by
  have hb := (tokenizes_streamFrom .start b.toList).move (Shift.behind a)
  rw [Shift.position_behind] at hb
  have happ : (a ++ "\n" ++ b).toList = a.toList ++ '\n' :: b.toList := by simp
  rw [tokenStream, happ]
  exact ((tokenize_ok_iff.mp h).append_line hb).streamFrom_eq

theorem Tokenizes.exists_located {p : Position} {cs : List Char} {ts : List Token}
    {failure : Option Error} {err : Error} (h : Tokenizes p cs ts failure)
    (hf : failure = some err) : ∃ q fault, err = .located q fault := by
  induction h with
  | finish _ => cases hf
  | token _ _ _ ih => exact ih hf
  | malformed _ _ =>
    cases hf
    exact ⟨_, _, rfl⟩
  | unrecognized _ _ =>
    cases hf
    exact ⟨_, _, rfl⟩

/-- Let a script be read to its end, and let a newline and another text stand behind it.  Then the
tokens of the script come first, without its end mark, and then all tokens that are read of the
other text, with their contents and lexemes.  They stand in their columns, but further down by the
lines and the characters of the script and the newline.  The whole is read to its end if the other
text is; otherwise it has the error of the other text, at a place as much further down. -/
theorem tokenize_append_line {a : String} {ts : List Token} {e : Token}
    (h : tokenize a = .ok (ts ++ [e])) (b : String) :
    let below : Position → Position := fun p =>
      ⟨p.line + (a.toList.count '\n' + 1), p.column, p.offset + (a.length + 1)⟩
    let moved : List Token → List Token := List.map fun t => { t with position := below t.position }
    (tokenStream (a ++ "\n" ++ b)).tokens = ts ++ moved (tokenStream b).tokens ∧
      (∀ us, tokenize b = .ok us → tokenize (a ++ "\n" ++ b) = .ok (ts ++ moved us)) ∧
      ∀ err, tokenize b = .error err → ∃ p fault, err = .located p fault ∧
        tokenize (a ++ "\n" ++ b) = .error (.located (below p) fault) := by
  intro below moved
  have hstream := tokenStream_append_line h b
  rw [List.dropLast_concat] at hstream
  refine ⟨congrArg TokenStream.tokens hstream, ?_, ?_⟩
  · intro us hus
    have hb : tokenStream b = ⟨us, none⟩ := (tokenize_ok_iff.mp hus).streamFrom_eq
    rw [hb] at hstream
    rw [tokenize, hstream]
    rfl
  · intro err herr
    obtain ⟨us, hus⟩ := tokenize_error_iff.mp herr
    obtain ⟨p, fault, rfl⟩ := hus.exists_located rfl
    have hb : tokenStream b = ⟨us, some (.located p fault)⟩ := hus.streamFrom_eq
    rw [hb] at hstream
    refine ⟨p, fault, rfl, ?_⟩
    rw [tokenize, hstream]
    rfl

/-- The minus sign at the end of a script does not belong to the number on the next line, and the
character behind that is complained of there. -/
theorem tokenize_append_line_minus :
    let ts : List Token := [⟨.ident "x", ⟨1, 1, 0⟩, "x"⟩, ⟨.symbol .minus "-", ⟨1, 2, 1⟩, "-"⟩]
    tokenize "x-" = .ok (ts ++ [.endAt ⟨1, 3, 2⟩]) ∧
      (tokenStream "1 $").tokens = [⟨.int 1, ⟨1, 1, 0⟩, "1"⟩] ∧
      (tokenStream ("x-" ++ "\n" ++ "1 $")).tokens = ts ++ [⟨.int 1, ⟨2, 1, 3⟩, "1"⟩] ∧
      tokenize "1 $" = .error (.located ⟨1, 3, 2⟩ (.unrecognized "$")) ∧
      tokenize ("x-" ++ "\n" ++ "1 $") = .error (.located ⟨2, 3, 5⟩ (.unrecognized "$")) := by
  intro ts
  have hread : tokenize "x-" = .ok (ts ++ [.endAt ⟨1, 3, 2⟩]) := by decide +kernel
  have htokens : (tokenStream "1 $").tokens = [⟨.int 1, ⟨1, 1, 0⟩, "1"⟩] := by decide +kernel
  have hunread : tokenize "1 $" = .error (.located ⟨1, 3, 2⟩ (.unrecognized "$")) := by
    decide +kernel
  obtain ⟨hboth, -, herror⟩ := tokenize_append_line hread "1 $"
  rw [htokens] at hboth
  obtain ⟨p, fault, hp, herr⟩ := herror _ hunread
  cases hp
  exact ⟨hread, htokens, hboth, hunread, herr⟩

end ScriptReader
