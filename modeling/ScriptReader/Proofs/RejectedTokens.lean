import ScriptReader.Proofs.EscapingErrors
import ScriptReader.Proofs.Tiling

/-!
# What is rejected is not asked for

An error that asks for kinds of tokens is about one token of the script.  It stands where that
token does, and it says that the script is unfinished exactly if the token is the end mark.

The kind of that token is not among those that are asked for.  A rule asks for a kind only where it
has looked for it, and the rules around it add only what they have looked for themselves.  There is
one exception: the first statement of a script without any is asked for together with the end mark,
although the end mark is what is there.

Main statement: `rejected_kind_asked_iff`.
-/

namespace ScriptReader

open Phrase Grammar Rule

/-! ## Failures in front of the end mark -/

/-- No end mark stands in front of a token. -/
def EndsOnce (ts : List Token) : Prop :=
  Open ts.dropLast

theorem EndsOnce.of_open {ts : List Token} (h : Open ts) : EndsOnce ts :=
  fun t ht => h t (List.dropLast_subset ts ht)

theorem EndsOnce.isOpen {us vs : List Token} {t : Token} (h : EndsOnce (us ++ t :: vs)) :
    Open us := by
  unfold EndsOnce at h
  rw [List.dropLast_append_of_ne_nil (List.cons_ne_nil t vs)] at h
  exact (open_append.mp h).1

section

variable {α : Type} {limit : Int} {r : Rule α} {whole : List Token → Prop} {opens : List Kind}
  {n : Nat} {ts rest : List Token} {e : Token} {err : Error}

/-- On tokens up to an end mark a rule fails at one of them, if nothing can follow an end mark.  It
asks for other kinds than that of the token. -/
theorem Rule.Fails.exists_token (h : Fails limit r whole opens n (ts ++ [e]) err rest)
    (he : e.isEnd = true)
    (hopen : ∀ us k, Admits (fun vs => whole (us ++ vs)) k → Open us) :
    ∃ t ∈ ts ++ [e], (∃ ks, err = t.refuse ks ∧ t.kind ∉ ks) ∨
      err = .located t.position (.tooDeep limit) := by
  -- the tokens that were read do not reach the end mark
  have hrest : ∀ us rest', ts ++ [e] = us ++ rest' → Open us →
      ∃ t vs, rest' = t :: vs ∧ t ∈ ts ++ [e] := by
    intro us rest' hts hus
    cases rest' with
    | nil =>
      have hmem : e ∈ us := by rw [← List.append_nil us, ← hts]; simp
      rw [hus e hmem] at he
      cases he
    | cons t vs => exact ⟨t, vs, rfl, by rw [hts]; simp⟩
  generalize hts : ts ++ [e] = ts' at h
  cases h with
  | @asks us _ ks hasks =>
    obtain ⟨k, hk⟩ := List.exists_mem_of_ne_nil ks hasks.nonempty
    obtain ⟨t, vs, rfl, ht⟩ := hrest us rest hts (hopen us k (hasks.admits k hk))
    exact ⟨t, hts ▸ ht, Or.inl ⟨ks, rfl, hasks.stops⟩⟩
  | @overflows us _ hover =>
    obtain ⟨k, hk⟩ := hover.admits
    obtain ⟨t, vs, rfl, ht⟩ := hrest us rest hts (hopen us k hk)
    exact ⟨t, hts ▸ ht, Or.inr rfl⟩

end

/-! ## The rules -/

/-- An error of the rule that asks for kinds of tokens is about one of the tokens `ts`, and the
kinds are related to that token by `R`. -/
def Rule.RejectsIn {α : Type} (r : Rule α) (ts : List Token) (R : Token → List Kind → Prop) :
    Prop :=
  ∀ err rest ks, r ts = .error err rest → err.expected? = some ks →
    ∃ t ∈ ts, err = t.refuse ks ∧ R t ks

theorem Rule.RejectsIn.of_fails {α : Type} {r : Rule α} {limit : Int} {whole : List Token → Prop}
    {opens : List Kind} {n : Nat} {ts : List Token} {e : Token} (he : e.isEnd = true)
    (hopen : ∀ us k, Admits (fun vs => whole (us ++ vs)) k → Open us)
    (h : ∀ err rest, r (ts ++ [e]) = .error err rest →
      Fails limit r whole opens n (ts ++ [e]) err rest) :
    RejectsIn r (ts ++ [e]) fun t ks => t.kind ∉ ks := by
  intro err rest ks herr hks
  obtain ⟨t, ht, ⟨ks', rfl, hkind⟩ | rfl⟩ := (h err rest herr).exists_token he hopen
  · rw [t.expected?_refuse ks'] at hks
    obtain rfl := Option.some.inj hks
    exact ⟨t, ht, rfl, hkind⟩
  · cases hks

theorem admits_endsOnce {us : List Token} {k : Kind}
    (h : Admits (fun vs => EndsOnce (us ++ vs)) k) : Open us := by
  obtain ⟨t, vs, -, hvs⟩ := h
  exact hvs.isOpen

theorem program_rejects (limit : Int) (levels : Nat) {ts : List Token} {e : Token}
    (he : e.isEnd = true) :
    RejectsIn (Grammar.program limit levels) (ts ++ [e]) fun t ks => t.kind ∉ ks :=
  .of_fails he (fun _ _ => Admits.isOpen) fun _ _ => program_fails limit

theorem expression_rejects (limit : Int) (levels : Nat) {ts : List Token} {e : Token}
    (he : e.isEnd = true) :
    RejectsIn (Grammar.expression limit levels []) (ts ++ [e]) fun t ks => t.kind ∉ ks := by
  have hwhole : ∀ us a, Expression us a → ∃ vs, EndsOnce (us ++ vs) :=
    fun us a ha => ⟨[], .of_open (by rw [List.append_nil]; exact ha.isOpen)⟩
  exact .of_fails he (fun _ _ => admits_endsOnce) fun _ _ h =>
    (reports_expression limit levels).fails hwhole (List.forall_mem_nil _) List.not_mem_nil h

/-- Where there is a statement to read, a rule for statements does not ask for what it rejects.
Where there is none, it asks for the end mark that is there. -/
theorem statement_rejects (limit : Int) (levels : Nat) {ts : List Token} {e : Token}
    (he : e.isEnd = true) :
    RejectsIn (Grammar.statement (Grammar.expression limit levels) (Grammar.body limit levels)
      [.eof]) (ts ++ [e]) fun t ks => t.kind ∈ ks ↔ (firstToken (ts ++ [e])).isEnd = true := by
  intro err rest ks herr hks
  have hlevels : 0 + levels = levels := Nat.zero_add levels
  cases hend : (firstToken (ts ++ [e])).isEnd with
  | true =>
    have hkind : (firstToken (ts ++ [e])).kind = .eof := eq_of_beq hend
    have hother : (firstToken (ts ++ [e])).kind ∉ Kind.statementStarts := by
      rw [hkind]
      decide
    rw [statement_of_other hother] at herr
    cases herr
    rw [Token.expected?_refuse] at hks
    obtain rfl := Option.some.inj hks
    have hmem : firstToken (ts ++ [e]) ∈ ts ++ [e] := by cases ts <;> simp [firstToken]
    refine ⟨_, hmem, rfl, iff_of_true ?_ rfl⟩
    rw [hkind]
    decide
  | false =>
    have hfirst : (firstToken (ts ++ [e])).kind ∉ [Kind.eof] := by
      rw [List.mem_singleton]
      intro hkind
      rw [Token.isEnd, hkind] at hend
      cases hend
    have hwhole : ∀ us s, Statement AllExpressions AllBlocks 0 us s →
        ∃ vs, EndsOnce (us ++ vs) := by
      intro us s hs
      refine ⟨[], .of_open ?_⟩
      rw [List.append_nil]
      exact hs.isOpen fun _ _ _ ha => ha.isOpen
    have hadmits : ∀ k ∈ [Kind.eof], Admits EndsOnce k :=
      fun k _ => .of_sample ⟨[], open_nil⟩
    have hrejects : RejectsIn _ (ts ++ [e]) fun t ks => t.kind ∉ ks :=
      .of_fails he (fun _ _ => admits_endsOnce) fun err rest h =>
        statement_fails hwhole (reports_expression limit levels)
          (reads_expression_fits limit hlevels) (reads_body limit hlevels)
          (reports_body limit hlevels) hadmits hfirst h
    obtain ⟨t, ht, herr', hkind⟩ := hrejects err rest ks herr hks
    exact ⟨t, ht, herr', iff_of_false hkind Bool.false_ne_true⟩

/-! ## Scripts -/

/-- The error is about the token `t` of the script. -/
structure Blames (source : String) (err : Error) (t : Token) : Prop where
  /-- No other token of the script stands at the offset of `t`. -/
  token : ∃ tokens, tokenize source = .ok tokens ∧ t ∈ tokens ∧
    ∀ u ∈ tokens, u.position.offset = t.position.offset → u = t
  /-- The error stands where `t` does. -/
  position : err.position? = some t.position
  /-- The script is unfinished exactly where it ends. -/
  unfinished : (∃ p ks, err = .located p (.unfinished ks)) ↔ t.kind = .eof

/-- The errors in `o` that ask for kinds of tokens are about a token of the script, and the kinds
are related to that token by `R`. -/
def Rejections {α : Type} (source : String) (o : Except Error α)
    (R : Token → List Kind → Prop) : Prop :=
  ∀ err ks, o = .error err → err.expected? = some ks → ∃ t, Blames source err t ∧ R t ks

theorem eq_of_offset_eq {tokens : List Token}
    (h : tokens.Pairwise fun t u => t.position.offset < u.position.offset) {t u : Token}
    (ht : t ∈ tokens) (hu : u ∈ tokens) (heq : u.position.offset = t.position.offset) : u = t := by
  induction h with
  | nil => cases ht
  | cons hlt _ ih =>
    rcases List.mem_cons.mp ht with rfl | ht'
    · rcases List.mem_cons.mp hu with rfl | hu'
      · rfl
      · have := hlt u hu'
        omega
    · rcases List.mem_cons.mp hu with rfl | hu'
      · have := hlt t ht'
        omega
      · exact ih ht' hu'

theorem blames_refuse {source : String} {tokens : List Token} {t : Token}
    (htok : tokenize source = .ok tokens) (ht : t ∈ tokens) (ks : List Kind) :
    Blames source (t.refuse ks) t where
  token :=
    ⟨tokens, htok, ht, fun _ hu heq =>
      eq_of_offset_eq (offsets_increase_of_tokenize htok) ht hu heq⟩
  position := rfl
  unfinished := by
    unfold Token.refuse
    constructor
    · rintro ⟨p, ks', h⟩
      cases hend : t.isEnd with
      | true => exact eq_of_beq hend
      | false =>
        rw [hend] at h
        cases h
    · intro hkind
      have hend : t.isEnd = true := by rw [Token.isEnd, hkind]; rfl
      rw [hend]
      exact ⟨_, _, rfl⟩

theorem expected?_of_tokenize {source : String} {err : Error}
    (h : tokenize source = .error err) : err.expected? = none := by
  obtain ⟨ts, hts⟩ := tokenize_error_iff.mp h
  obtain ⟨before, rest, fault, -, rfl, hcases⟩ := hts.exists_failure rfl
  rcases hcases with ⟨c, more, -, rfl⟩ | ⟨t, more, -, ht⟩
  · rfl
  · rcases ht.fault_cases with ⟨type, rfl⟩ | ⟨negative, ds, -, -, rfl⟩
    · rfl
    · rfl

theorem readScript_rejects {α : Type} {source : String} {limit : Int} (hl : 1 ≤ limit)
    {rule : Session → Rule α} {R : Token → List Kind → Prop}
    (h : ∀ ts e, tokenize source = .ok (ts ++ [e]) → e.isEnd = true →
      RejectsIn (rule ⟨ts ++ [e], 0, 0, limit⟩) (ts ++ [e]) R) :
    Rejections source (readScript source limit rule) R := by
  intro err ks herr hks
  rcases readScript_error hl herr with htok | ⟨ts, e, rest, htok, he, hrest⟩
  · rw [expected?_of_tokenize htok] at hks
    cases hks
  · obtain ⟨t, ht, rfl, hR⟩ := h ts e htok he err rest ks hrest hks
    exact ⟨t, blames_refuse htok ht ks, hR⟩

theorem Rejections.map {α β : Type} {source : String} {o : Except Error α}
    {R : Token → List Kind → Prop} (h : Rejections source o R) (f : α → β) :
    Rejections source (o.map f) R := by
  intro err ks herr hks
  cases o with
  | error e =>
    obtain rfl := Except.error.inj herr
    exact h e ks rfl hks
  | ok a => cases herr

theorem isEnd_firstToken_iff {source : String} {ts : List Token} {e : Token}
    (htok : tokenize source = .ok (ts ++ [e])) :
    (firstToken (ts ++ [e])).isEnd = true ↔ ∃ e', tokenize source = .ok [e'] := by
  obtain ⟨ts', e', heq, he, hts⟩ := spelled_of_tokenize htok
  obtain ⟨rfl, h⟩ := List.append_inj' heq rfl
  obtain rfl := List.singleton_inj.mp h
  rw [htok]
  cases ts with
  | nil => exact iff_of_true he ⟨_, rfl⟩
  | cons t ts =>
    have ht : t.isEnd = false := (hts t List.mem_cons_self).isEnd_eq_false
    refine iff_of_false (by simp [firstToken, ht]) ?_
    rintro ⟨e', h⟩
    simpa using congrArg List.length (Except.ok.inj h)

/-- An error that asks for kinds of tokens is about a token of the script: it stands where this
token and no other does, and it says that the script is unfinished exactly if this is the end mark.
The kind of the token is not asked for where a script is read as a program or an expression.  Where
its first statement is read, it is asked for exactly if the script has no token but the end
mark. -/
theorem rejected_kind_asked_iff (source : String) {limit : Int} (hl : 1 ≤ limit) :
    Rejections source (parse source limit) (fun t ks => t.kind ∉ ks) ∧
    Rejections source (parseExpression source limit) (fun t ks => t.kind ∉ ks) ∧
    Rejections source (parseStatement source limit)
      (fun t ks => t.kind ∈ ks ↔ ∃ e, tokenize source = .ok [e]) := by
  refine ⟨(readScript_rejects hl fun ts e _ he => ?_).map _, readScript_rejects hl fun ts e _ he => ?_,
    readScript_rejects hl fun ts e htok he => ?_⟩
  · exact program_rejects limit _ he
  · exact expression_rejects limit _ he
  · rw [← isEnd_firstToken_iff htok]
    exact statement_rejects limit _ he

/-- Of the script `x )` the parenthesis is rejected, and its kind is not asked for.  Read as a
statement, the script of a single comment is rejected at its end mark, and that is asked for. -/
theorem rejected_kind_asked_iff_comment :
    (1 : Int) ≤ 9 ∧
      (∃ err ks t, parse "x )" 9 = .error err ∧ err.expected? = some ks ∧
        Blames "x )" err t ∧ t.kind ∉ ks) ∧
      ∃ err ks t, parseStatement "// x" 9 = .error err ∧ err.expected? = some ks ∧
        Blames "// x" err t ∧ t.kind ∈ ks := by
  have hl : (1 : Int) ≤ 9 := by decide
  have hparse : parse "x )" 9 = .error (.located ⟨1, 3, 2⟩ (.unexpected ")"
      ([.symbol .semicolon] ++ (Kind.binaries ++ [.symbol .assign])))) := by cbv
  have hstatement : parseStatement "// x" 9 = .error (.located ⟨1, 5, 4⟩ (.unfinished
      (Kind.statementStarts ++ [.eof]))) := by cbv
  have hread : tokenize "// x" = .ok [.endAt ⟨1, 5, 4⟩] := by decide +kernel
  obtain ⟨t, ht, hkind⟩ := (rejected_kind_asked_iff "x )" hl).1 _ _ hparse rfl
  obtain ⟨u, hu, hkind'⟩ := (rejected_kind_asked_iff "// x" hl).2.2 _ _ hstatement rfl
  exact ⟨hl, ⟨_, _, t, hparse, rfl, ht, hkind⟩, _, _, u, hstatement, rfl, hu, hkind'.mpr ⟨_, hread⟩⟩

/-- The script without a character, read as a statement, is rejected at its end mark, and the end
mark is asked for. -/
theorem end_mark_asked_for :
    ∃ err ks t, parseStatement "" 128 = .error err ∧ err.expected? = some ks ∧
      Blames "" err t ∧ t.kind ∈ ks := by
  have hstatement : parseStatement "" 128 = .error (.located .start (.unfinished
      (Kind.statementStarts ++ [.eof]))) := by cbv
  have hread : tokenize "" = .ok [.endAt .start] := by decide +kernel
  refine ⟨_, _, .endAt .start, hstatement, rfl, ?_, by decide⟩
  exact blames_refuse hread List.mem_cons_self (Kind.statementStarts ++ [.eof])

end ScriptReader
