import Mathlib
import ScriptReader.Proofs.CompleteLines
import ScriptReader.Proofs.ComparedGrammar
import ScriptReader.Proofs.Failures

/-!
# Scripts one behind the other

Statements are read one after the other, and none of them looks behind its end but for an `elif`
or `else`.  So a script that is parsed, with a newline and another text behind it, is parsed as
its own statements and those of the other text, unless that one begins with an `elif` or `else`;
and where the other text is not parsed, the error is the same.  What is made of the other text
stands further down, on the lines behind those of the script.

Main statements:

* `Grammar.program_append`: statements in front of a program;
* `Grammar.program_move`: a program further down;
* `parse_append_line`: a script in front of another text.
-/

namespace ScriptReader

open Phrase Grammar Rule

/-! ## Statements in front of others -/

theorem Rule.bind_congr_at {α β : Type} {r r' : Rule α} {ts ts' : List Token}
    (h : r ts = r' ts') (k : α → Rule β) : (r >>= k) ts = (r' >>= k) ts' := by
  show EStateM.bind r k ts = EStateM.bind r' k ts'
  unfold EStateM.bind
  rw [h]

namespace Grammar

variable {expr : (alternatives : List Kind) → Rule Expr} {body : (returns : Bool) → Rule Body}
variable {Q : Nat → Expr → Prop} {B : Nat → Prop} {b : Nat}

theorem collect_append (hexpr : Reads expr (Q b)) (hbody : ReadsBody body Q B b)
    {follow : List Kind} (hf : EndStatements follow) {us rest : List Token} {ss : List Stmt}
    (h : Statements (Having Q) B b us ss) (hr : Settled rest) :
    collect (nextStatement expr body follow) (us ++ rest) =
      (do return ss ++ (← collect (nextStatement expr body follow)) : Rule (List Stmt)) rest := by
  induction ss generalizing us with
  | nil =>
    cases h
    exact (congrFun (bind_pure (collect (nextStatement expr body follow))) rest).symm
  | cons s ss ih =>
    cases h with
    | @cons _ us vs _ _ hs hss =>
      have hnext := Statements.settled_append hss hr
      have hread : statement expr body follow (us ++ (vs ++ rest)) = .ok s (vs ++ rest) :=
        statement_complete hexpr hbody hs (hnext.behind s)
      obtain ⟨t, us', rfl, ht⟩ := hs.opens
      have hnot : t.kind ∉ follow := fun hm => (hf _ hm).1 ht
      have hstep : nextStatement expr body follow (t :: us' ++ (vs ++ rest)) =
          .ok (some s) (vs ++ rest) := nextStatement_ok.mpr (Or.inr ⟨hnot, s, hread, rfl⟩)
      have htakes : Takes fun _ : Unit => (do
          return (← nextStatement expr body follow).map (·, ()) : Rule (Option (Stmt × Unit))) :=
        fun _ ts a _ rest h => nextStatement_takes hexpr hbody ts a rest (stateless_ok.mp h)
      have hrest := bind_congr_at (ih hss) fun ss => pure (s :: ss)
      rw [bind_assoc] at hrest
      rw [List.append_assoc, collect, unfold_of_some htakes (stateless_ok.mpr hstep)]
      exact hrest

/-- Statements in front of a program belong to it. -/
theorem program_append (limit : Int) {levels : Nat} {us rest : List Token} {ss : List Stmt}
    (h : Statements (Having (Fits levels)) (· < levels) 0 us ss) (hr : Settled rest) :
    program limit levels (us ++ rest) =
      (do let p ← program limit levels
          return ⟨⟨1, 1⟩, ss ++ p.statements⟩ : Rule Program) rest := by
  have hlevels : 0 + levels = levels := Nat.zero_add levels
  have hend : EndStatements [.eof] := by
    unfold EndStatements
    decide
  have hcollect := collect_append (reads_expression_fits limit hlevels) (reads_body limit hlevels)
    hend h hr
  have hprogram := bind_congr_at hcollect fun ss => pure (⟨⟨1, 1⟩, ss⟩ : Program)
  rw [bind_assoc] at hprogram
  unfold program
  rw [bind_assoc]
  exact hprogram

/-- What is made of tokens further down is made of them above, and stands further down. -/
theorem program_move (limit : Int) (levels : Nat) (m : Shift) {us : List Token}
    (h : HasEnd us) :
    program limit levels (us.map m.token) = match program limit levels us with
      | .ok p rest => .ok ⟨p.place, p.statements.map (Stmt.relocate m.place)⟩ (rest.map m.token)
      | .error e rest => .error (m.error e) (rest.map m.token) := by
  have halike := (program_follows (c := ⟨m, fun _ => False⟩) limit levels).alike h
  generalize program limit levels us = o at halike ⊢
  generalize program limit levels (us.map m.token) = o' at halike ⊢
  cases halike with
  | ok _ => rfl
  | error _ _ => rfl
  | cut hcut _ => cases hcut

end Grammar

/-! ## Scripts in front of others -/

/-- Let a script be parsed, and let a text follow that does not begin with an `elif` or `else`.
Behind the script and a newline the text is parsed as it is alone, with the same limit, or fails
as it does alone.  The statements of the script come first, and all that is made of the text
stands as many lines and characters further down as there are before it. -/
theorem parse_append_line {a b : String} {d : Int} {p : Program} (ha : parse a d = .ok p)
    (hb : (firstToken (tokenStream b).tokens).kind ∉ [.keyword .elifWord, .keyword .elseWord]) :
    parse (a ++ "\n" ++ b) d = match parse b d with
      | .ok q =>
        .ok ⟨p.place, p.statements ++ q.statements.map (Stmt.relocate (Shift.behind a).place)⟩
      | .error e => .error ((Shift.behind a).error e) := by
  obtain ⟨hl, ts, e, htok, hplace, hts⟩ := parse_ok_iff.mp ha
  have hstream := tokenStream_append_line htok b
  rw [List.dropLast_concat] at hstream
  cases hfailure : (tokenStream b).failure with
  | some err =>
    have htokb : tokenize b = .error err := by rw [tokenize, hfailure]
    rw [hfailure] at hstream
    have htoks : tokenize (a ++ "\n" ++ b) = .error ((Shift.behind a).error err) := by
      rw [tokenize, hstream]
      rfl
    rw [parse_of_tokenize_error hl htoks, parse_of_tokenize_error hl htokb]
  | none =>
    have htokb : tokenize b = .ok (tokenStream b).tokens := by rw [tokenize, hfailure]
    rw [hfailure] at hstream
    have htoks : tokenize (a ++ "\n" ++ b) =
        .ok (ts ++ (tokenStream b).tokens.map (Shift.behind a).token) := by
      rw [tokenize, hstream]
      rfl
    rw [parse_eq_program hl htoks, parse_eq_program hl htokb, hplace]
    generalize (tokenStream b).tokens = us at hb htokb ⊢
    obtain ⟨us', e', rfl, he', -⟩ := spelled_of_tokenize htokb
    have hend : HasEnd (us' ++ [e']) := hasEnd_concat he' us'
    have hsettled : Settled ((us' ++ [e']).map (Shift.behind a).token) := by
      obtain ⟨t, vs, hvs⟩ := hend.exists_cons
      rw [hvs] at hb ⊢
      simpa [Settled, firstToken] using hb
    rw [program_append d hts hsettled]
    show answer (EStateM.bind (program d d.toNat) _ _) = _
    unfold EStateM.bind
    rw [program_move d d.toNat (Shift.behind a) hend]
    cases program d d.toNat (us' ++ [e']) <;> rfl

/-- The comment of a script ends with its line: behind it another text is complained of where it
is alone, a line further down. -/
theorem parse_append_line_comment :
    let p : Program := ⟨⟨1, 1⟩, [.expression ⟨1, 1⟩ (.ident ⟨1, 1⟩ "x")]⟩
    let e : Position → Error := fun q => .located q (.unexpected ")" Kind.atomStarts)
    parse "x; // y" 2 = .ok p ∧
      (firstToken (tokenStream "y + )").tokens).kind ∉ [.keyword .elifWord, .keyword .elseWord] ∧
      parse "y + )" 2 = .error (e ⟨1, 5, 4⟩) ∧
      parse ("x; // y" ++ "\n" ++ "y + )") 2 = .error (e ⟨2, 5, 12⟩) := by
  intro p e
  have ha : parse "x; // y" 2 = .ok p := by cbv
  have hkind : (firstToken (tokenStream "y + )").tokens).kind = .ident := by cbv
  have hb : (firstToken (tokenStream "y + )").tokens).kind ∉
      [.keyword .elifWord, .keyword .elseWord] := by
    rw [hkind]
    decide
  have hfail : parse "y + )" 2 = .error (e ⟨1, 5, 4⟩) := by cbv
  have happend := parse_append_line ha hb
  rw [hfail] at happend
  exact ⟨ha, hb, hfail, happend⟩

end ScriptReader
