import ScriptReader.Proofs.Failures
import ScriptReader.Proofs.StatementPhrases

/-!
# Phrases that begin or go on as one likes

Each kind of token that the grammar names for the front of a phrase does begin one, and each
operator does carry on an expression.  The tokens that complete the phrase are samples of their
kinds, one for each kind.

Main statements:

* `exists_expression`, `exists_statement`: a phrase for each kind that may begin one;
* `Expression.exists_longer`: an expression goes on with each operator;
* `Statement.of_having` and its fellows: what is read with some levels left is a phrase of the
  grammar itself.
-/

namespace ScriptReader

namespace Kind

/-- Some content of each kind. -/
def content : Kind → Content
  | int => .int 0
  | float => .float default
  | bool => .bool true
  | string => .string ""
  | char => .char ""
  | ident => .ident "x"
  | keyword k => .keyword k k.text
  | symbol s => .symbol s s.text
  | eof => .eof "EOF"
  | other name => .other name ""

/-- Some token of each kind. -/
def sample (k : Kind) : Token :=
  ⟨k.content, .start, k.content.plain⟩

@[simp] theorem kind_sample (k : Kind) : k.sample.kind = k := by
  cases k <;> rfl

theorem isSome_binary?_sample {k : Kind} (h : k ∈ binaries) : k.sample.binary?.isSome = true := by
  rw [← Token.kind_mem_binaries, kind_sample]
  exact h

end Kind

theorem Rule.Admits.of_sample {whole : List Token → Prop} {k : Kind}
    (h : ∃ vs, whole (k.sample :: vs)) : Admits whole k := by
  obtain ⟨vs, hvs⟩ := h
  exact ⟨k.sample, vs, k.kind_sample, hvs⟩

/-- What is completed behind some tokens is completed in front of them. -/
theorem exists_of_append {whole : List Token → Prop} {us : List Token}
    (h : ∃ vs, whole (us ++ vs)) : ∃ vs, whole vs := by
  obtain ⟨vs, hvs⟩ := h
  exact ⟨us ++ vs, hvs⟩

theorem exists_of_cons {whole : List Token → Prop} {t : Token} (h : ∃ vs, whole (t :: vs)) :
    ∃ vs, whole vs := by
  obtain ⟨vs, hvs⟩ := h
  exact ⟨t :: vs, hvs⟩

namespace Phrase

/-! ## Expressions -/

theorem atom_sample : Atom [Kind.ident.sample] (.ident ⟨1, 1⟩ "x") :=
  .ident rfl

theorem expression_sample : Expression [Kind.ident.sample] (.ident ⟨1, 1⟩ "x") :=
  atom_sample.expression

/-- A change before reading, with a sign of one of the two kinds. -/
theorem exists_step {k : Kind} (hk : k = .symbol .increment ∨ k = .symbol .decrement) :
    ∃ e, Atom [k.sample, Kind.ident.sample] e := by
  rcases hk with rfl | rfl
  · exact ⟨_, .step (Token.step?_eq_some.mpr (Or.inl ⟨rfl, rfl⟩)) rfl⟩
  · exact ⟨_, .step (Token.step?_eq_some.mpr (Or.inr ⟨rfl, rfl⟩)) rfl⟩

/-- Each kind that may begin an atom begins one. -/
theorem exists_atom {k : Kind} (hk : k ∈ Kind.atomStarts) : ∃ vs a, Atom (k.sample :: vs) a := by
  simp only [Kind.atomStarts, Kind.literals, List.cons_append, List.nil_append, List.mem_cons,
    List.not_mem_nil, or_false] at hk
  rcases hk with rfl | rfl | rfl | rfl | rfl | rfl | rfl | hk
  · exact ⟨[], _, .int rfl⟩
  · exact ⟨[], _, .float rfl⟩
  · exact ⟨[], _, .string rfl⟩
  · exact ⟨[], _, .char rfl⟩
  · exact ⟨[], _, .bool rfl⟩
  · exact ⟨[], _, .ident rfl⟩
  · have ha : Atom ((Kind.symbol .openBracket).sample :: [] ++ [(Kind.symbol .closeBracket).sample])
        _ := .list rfl .nil rfl
    exact ⟨_, _, ha⟩
  · obtain ⟨a, ha⟩ := exists_step hk
    exact ⟨_, a, ha⟩

/-- Each kind that may begin an expression begins one. -/
theorem exists_expression {k : Kind} (hk : k ∈ Kind.atomStarts) :
    ∃ vs e, Expression (k.sample :: vs) e := by
  obtain ⟨vs, a, ha⟩ := exists_atom hk
  exact ⟨vs, a, ha.expression⟩

/-- An expression goes on with an operator of each kind. -/
theorem Expression.exists_longer {us : List Token} {e : Expr} (h : Expression us e) {k : Kind}
    (hk : k ∈ Kind.binaries) : ∃ vs e', Expression (us ++ k.sample :: vs) e' := by
  obtain ⟨o, ho⟩ := Option.isSome_iff_exists.mp (Kind.isSome_binary?_sample hk)
  cases h with
  | chain ha hc =>
    have h' := Expression.chain ha (hc.snoc ho atom_sample)
    rw [← List.append_assoc] at h'
    exact ⟨_, _, h'⟩

/-! ## Statements -/

/-- All expressions may stand anywhere. -/
abbrev AllExpressions : Nat → List Token → Expr → Prop := fun _ => Expression

/-- Blocks may stand below any number of blocks. -/
abbrev AllBlocks : Nat → Prop := fun _ => True

variable {b : Nat}

theorem block_sample (b : Nat) (returns : Bool) :
    Block AllExpressions AllBlocks b returns
      [(Kind.symbol .openBrace).sample, (Kind.symbol .closeBrace).sample] ⟨[], none⟩ :=
  .mk trivial rfl .nil .none rfl

theorem condition_sample (b : Nat) :
    Condition AllExpressions b [(Kind.symbol .openParen).sample, Kind.ident.sample,
      (Kind.symbol .closeParen).sample] (.ident ⟨1, 1⟩ "x") := by
  have h : Condition AllExpressions b ((Kind.symbol .openParen).sample :: [Kind.ident.sample] ++
      [(Kind.symbol .closeParen).sample]) (.ident ⟨1, 1⟩ "x") := .mk rfl expression_sample rfl
  exact h

/-- Each kind that may begin a statement begins one. -/
theorem exists_statement (b : Nat) {k : Kind} (hk : k ∈ Kind.statementStarts) :
    ∃ vs s, Statement AllExpressions AllBlocks b (k.sample :: vs) s := by
  rcases List.mem_append.mp hk with hk | hk
  · obtain ⟨vs, e, he⟩ := exists_expression hk
    have h : Statement AllExpressions AllBlocks b
        (k.sample :: vs ++ [(Kind.symbol .semicolon).sample]) (.expression e.place e) :=
      .expression he rfl
    exact ⟨_, _, h⟩
  · simp only [List.mem_cons, List.not_mem_nil, or_false] at hk
    rcases hk with rfl | rfl | rfl | rfl | rfl
    · exact ⟨_, _, .load (u := Kind.string.sample) rfl rfl (Kind.kind_sample (.symbol .semicolon))⟩
    · exact ⟨_, _, .conditional rfl (condition_sample b) (block_sample b false) .nil .none⟩
    · exact ⟨_, _, .whileLoop rfl (condition_sample b) (block_sample b false)⟩
    · exact ⟨_, _, .forLoop (u := Kind.ident.sample) rfl rfl (Kind.kind_sample (.keyword .inWord))
        expression_sample (block_sample b false)⟩
    · exact ⟨_, _, .function (u := Kind.ident.sample) rfl rfl
        (Kind.kind_sample (.symbol .openParen)) .nil (Kind.kind_sample (.symbol .closeParen))
        (block_sample b true)⟩

theorem Clauses.append {us vs : List Token} {cs ds : List Clause}
    (h : Clauses AllExpressions AllBlocks b us cs) (h' : Clauses AllExpressions AllBlocks b vs ds) :
    Clauses AllExpressions AllBlocks b (us ++ vs) (cs ++ ds) := by
  induction cs generalizing us with
  | nil =>
    cases h
    exact h'
  | cons c cs ih =>
    cases h with
    | cons ht he hss hcs =>
      rw [List.append_assoc]
      exact .cons ht he hss (ih hcs)

section

variable {Q : Nat → Expr → Prop} {B : Nat → Prop} {us : List Token}

theorem Statement.of_having {s : Stmt} (h : Statement (Having Q) B b us s) :
    Statement AllExpressions AllBlocks b us s :=
  h.mono (allows_all _) (Nat.le_refl _)

theorem Statements.of_having {ss : List Stmt} (h : Statements (Having Q) B b us ss) :
    Statements AllExpressions AllBlocks b us ss :=
  h.mono (allows_all _) (Nat.le_refl _)

theorem Block.of_having {returns : Bool} {x : Body} (h : Block (Having Q) B b returns us x) :
    Block AllExpressions AllBlocks b returns us x :=
  h.mono (allows_all _) (Nat.le_refl _)

theorem Clauses.of_having {cs : List Clause} (h : Clauses (Having Q) B b us cs) :
    Clauses AllExpressions AllBlocks b us cs :=
  h.mono (allows_all _) (Nat.le_refl _)

theorem Condition.of_having {e : Expr} (h : Condition (Having Q) b us e) :
    Condition AllExpressions b us e :=
  h.mono (allows_all (B := AllBlocks) _) (Nat.le_refl _)

theorem Result.of_having {returns : Bool} {result : Option Expr}
    (h : Result (Having Q) b returns us result) : Result AllExpressions b returns us result :=
  h.mono (allows_all (B := AllBlocks) _) (Nat.le_refl _)

end

end Phrase

end ScriptReader
