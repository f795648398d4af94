import ScriptReader.Grammar.Statement

/-!
# Phrases

A phrase is a run of tokens together with the tree that it is read as.  The relations below
are the grammar of scripts, one constructor for each of its productions:

    Program    := Statement*
    Statement  := "import" String ";" | Expression "=" Expression ";" | Expression ";"
                | Name ("+=" | "-=" | "*=" | "/=") Expression ";" | Name ("++" | "--") ";"
                | "if" Condition Block Clause* ("else" Block)?
                | "while" Condition Block | "for" Name "in" Expression Block
                | "fn" Name "(" (Name ("," Name)*)? ")" Body
    Clause     := "elif" Condition Block
    Condition  := "(" Expression ")"
    Block      := "{" Statement* "}"
    Body       := "{" Statement* ("return" Expression ";")? "}"
    Expression := Atom (Operator Atom)*
    Atom       := Int | Float | String | Char | Bool | Name | ("++" | "--") Name
                | Name "(" (Expression ("," Expression)*)? ")" | Name "[" Expression "]"
                | "[" (Item ("," Item)* ","?)? "]"
                | "[" Expression "for" Name "in" Expression "]"
    Item       := ".."? Expression ".."?

All operators bind alike, so the tree of a chain is the left fold of its atoms, and `Chain`
carries the tree of the part in front.  A node stands at the first token of its phrase; an
item stands at its expression, behind its leading dots.

Statements are taken over any relation `E` that says what reads as an expression, given the
number of blocks around it, and any predicate `B` that says below how many blocks another one
may stand.  `Script` is the grammar itself, with all expressions and blocks allowed; with
smaller relations one says of a script that each of its expressions has a property.

Main statements:

* `Expression.isOpen`, `Statements.isOpen`: no end mark stands inside a phrase;
* `Atom.opens`, `Expression.opens`: what a phrase begins with, and that it is not empty;
* `Expression.update?_eq_none`: no expression begins like a change of a variable;
* `Chain.snoc`: an operation goes on a chain at its end, as it was folded.
-/

namespace ScriptReader

namespace Phrase

/-! ## Expressions -/

/-- The dots beside an item, and whether they are there. -/
inductive Dots : List Token → Bool → Prop
  | absent : Dots [] false
  | present {t : Token} (h : t.kind = .symbol .dots) : Dots [t] true

mutual

/-- The tokens of an atom. -/
inductive Atom : List Token → Expr → Prop
  | int {t : Token} {n : Int} (h : t.content = .int n) : Atom [t] (.int t.place n)
  | float {t : Token} {x : Binary64} (h : t.content = .float x) : Atom [t] (.float t.place x)
  | string {t : Token} {s : String} (h : t.content = .string s) : Atom [t] (.string t.place s)
  | char {t : Token} {s : String} (h : t.content = .char s) : Atom [t] (.char t.place s)
  | bool {t : Token} {b : Bool} (h : t.content = .bool b) : Atom [t] (.bool t.place b)
  | ident {t : Token} {name : String} (h : t.content = .ident name) :
      Atom [t] (.ident t.place name)
  | step {t u : Token} {o : Operator} {name : String} (ht : t.step? = some o)
      (hu : u.content = .ident name) : Atom [t, u] (.step t.place name o (.int t.place 1))
  | call {t l r : Token} {name : String} {us : List Token} {es : List Expr}
      (ht : t.content = .ident name) (hl : l.kind = .symbol .openParen) (hes : Arguments us es)
      (hr : r.kind = .symbol .closeParen) : Atom (t :: l :: us ++ [r]) (.call t.place name es)
  | index {t l r : Token} {name : String} {us : List Token} {e : Expr}
      (ht : t.content = .ident name) (hl : l.kind = .symbol .openBracket) (he : Expression us e)
      (hr : r.kind = .symbol .closeBracket) : Atom (t :: l :: us ++ [r]) (.index t.place name e)
  | list {l r : Token} {us : List Token} {items : List Item}
      (hl : l.kind = .symbol .openBracket) (his : Items us items)
      (hr : r.kind = .symbol .closeBracket) : Atom (l :: us ++ [r]) (.list l.place items)
  | comprehension {l f t i r : Token} {name : String} {us vs : List Token} {body source : Expr}
      (hl : l.kind = .symbol .openBracket) (hb : Expression us body)
      (hf : f.kind = .keyword .forWord) (ht : t.content = .ident name)
      (hi : i.kind = .keyword .inWord) (hs : Expression vs source)
      (hr : r.kind = .symbol .closeBracket) :
      Atom (l :: us ++ f :: t :: i :: vs ++ [r]) (.comprehension l.place body name source)

/-- The tokens of an expression: an atom and the rest of its chain. -/
inductive Expression : List Token → Expr → Prop
  | chain {us vs : List Token} {a e : Expr} (ha : Atom us a) (hc : Chain vs a e) :
      Expression (us ++ vs) e

/-- The operators and atoms behind the operand `a`, which make it the expression `e`. -/
inductive Chain : List Token → Expr → Expr → Prop
  | nil {a : Expr} : Chain [] a a
  | cons {t : Token} {o : Operator} {us vs : List Token} {a b e : Expr} (ht : t.binary? = some o)
      (hb : Atom us b) (hc : Chain vs (.operation a.place a o b) e) : Chain (t :: us ++ vs) a e

/-- The tokens of the arguments of a call. -/
inductive Arguments : List Token → List Expr → Prop
  | nil : Arguments [] []
  | cons {us vs : List Token} {e : Expr} {es : List Expr} (he : Expression us e)
      (hes : MoreArguments vs es) : Arguments (us ++ vs) (e :: es)

/-- The tokens of the arguments behind the first one, each behind its comma. -/
inductive MoreArguments : List Token → List Expr → Prop
  | nil : MoreArguments [] []
  | cons {t : Token} {us vs : List Token} {e : Expr} {es : List Expr}
      (ht : t.kind = .symbol .comma) (he : Expression us e) (hes : MoreArguments vs es) :
      MoreArguments (t :: us ++ vs) (e :: es)

/-- The tokens of an item. -/
inductive ListItem : List Token → Item → Prop
  | mk {ps us ss : List Token} {e : Expr} {isPack isSpread : Bool} (hp : Dots ps isPack)
      (he : Expression us e) (hs : Dots ss isSpread) :
      ListItem (ps ++ us ++ ss) (.mk e.place e isSpread isPack)

/-- The tokens of the items of a list. -/
inductive Items : List Token → List Item → Prop
  | nil : Items [] []
  | cons {us vs : List Token} {i : Item} {is : List Item} (hi : ListItem us i)
      (his : MoreItems vs is) : Items (us ++ vs) (i :: is)

/-- The tokens of the items behind the first one, each behind its comma.  One more comma may
stand behind the last item. -/
inductive MoreItems : List Token → List Item → Prop
  | nil : MoreItems [] []
  | comma {t : Token} (ht : t.kind = .symbol .comma) : MoreItems [t] []
  | cons {t : Token} {us vs : List Token} {i : Item} {is : List Item}
      (ht : t.kind = .symbol .comma) (hi : ListItem us i) (his : MoreItems vs is) :
      MoreItems (t :: us ++ vs) (i :: is)

end

/-! ## Statements -/

/-- The tokens of the parameters behind the first one, each behind its comma. -/
inductive MoreParameters : List Token → List String → Prop
  | nil : MoreParameters [] []
  | cons {t u : Token} {name : String} {us : List Token} {names : List String}
      (ht : t.kind = .symbol .comma) (hu : u.content = .ident name)
      (hus : MoreParameters us names) : MoreParameters (t :: u :: us) (name :: names)

/-- The tokens of the parameters of a function. -/
inductive Parameters : List Token → List String → Prop
  | nil : Parameters [] []
  | cons {t : Token} {name : String} {us : List Token} {names : List String}
      (ht : t.content = .ident name) (hus : MoreParameters us names) :
      Parameters (t :: us) (name :: names)

section

variable (E : Nat → List Token → Expr → Prop) (B : Nat → Prop)

/-- The tokens of a condition below `b` blocks. -/
inductive Condition (b : Nat) : List Token → Expr → Prop
  | mk {l r : Token} {us : List Token} {e : Expr} (hl : l.kind = .symbol .openParen)
      (he : E b us e) (hr : r.kind = .symbol .closeParen) : Condition b (l :: us ++ [r]) e

/-- The tokens of the result of a function, which only a body that returns can have. -/
inductive Result (b : Nat) : (returns : Bool) → List Token → Option Expr → Prop
  | none {returns : Bool} : Result b returns [] none
  | some {t r : Token} {us : List Token} {e : Expr} (ht : t.kind = .keyword .returnWord)
      (he : E b us e) (hr : r.kind = .symbol .semicolon) :
      Result b true (t :: us ++ [r]) (some e)

mutual

/-- The tokens of a statement below `b` blocks. -/
inductive Statement : Nat → List Token → Stmt → Prop
  | load {b : Nat} {t u r : Token} {path : String} (ht : t.kind = .keyword .importWord)
      (hu : u.content = .string path) (hr : r.kind = .symbol .semicolon) :
      Statement b [t, u, r] (.load t.place path)
  | assignment {b : Nat} {q r : Token} {us vs : List Token} {target value : Expr}
      (ht : E b us target) (hq : q.kind = .symbol .assign) (hv : E b vs value)
      (hr : r.kind = .symbol .semicolon) :
      Statement b (us ++ q :: vs ++ [r]) (.assignment target.place target value)
  | expression {b : Nat} {r : Token} {us : List Token} {e : Expr} (he : E b us e)
      (hr : r.kind = .symbol .semicolon) : Statement b (us ++ [r]) (.expression e.place e)
  | update {b : Nat} {t u r : Token} {name : String} {s : Symbol} {o : Operator}
      {us : List Token} {e : Expr} (ht : t.content = .ident name)
      (hu : u.update? = some (s, o)) (hs : s.isStep = false) (he : E b us e)
      (hr : r.kind = .symbol .semicolon) :
      Statement b (t :: u :: us ++ [r]) (.update t.place name o e)
  | step {b : Nat} {t u r : Token} {name : String} {o : Operator} (ht : t.content = .ident name)
      (hu : u.step? = some o) (hr : r.kind = .symbol .semicolon) :
      Statement b [t, u, r] (.update t.place name o (.int u.place 1))
  | conditional {b : Nat} {t : Token} {us vs ws xs : List Token} {e : Expr} {ss : List Stmt}
      {cs : List Clause} {last : Option (List Stmt)} (ht : t.kind = .keyword .ifWord)
      (he : Condition E b us e) (hss : Block b false vs ⟨ss, none⟩) (hcs : Clauses b ws cs)
      (hl : Otherwise b xs last) :
      Statement b (t :: us ++ vs ++ ws ++ xs) (.conditional t.place (.mk t.place e ss cs last))
  | whileLoop {b : Nat} {t : Token} {us vs : List Token} {e : Expr} {ss : List Stmt}
      (ht : t.kind = .keyword .whileWord) (he : Condition E b us e)
      (hss : Block b false vs ⟨ss, none⟩) : Statement b (t :: us ++ vs) (.whileLoop t.place e ss)
  | forLoop {b : Nat} {t u i : Token} {name : String} {us vs : List Token} {e : Expr}
      {ss : List Stmt} (ht : t.kind = .keyword .forWord) (hu : u.content = .ident name)
      (hi : i.kind = .keyword .inWord) (he : E b us e) (hss : Block b false vs ⟨ss, none⟩) :
      Statement b (t :: u :: i :: us ++ vs) (.forLoop t.place (.mk t.place name e ss))
  | function {b : Nat} {t u l r : Token} {name : String} {names : List String}
      {us vs : List Token} {ss : List Stmt} {result : Option Expr}
      (ht : t.kind = .keyword .fnWord) (hu : u.content = .ident name)
      (hl : l.kind = .symbol .openParen) (hn : Parameters us names)
      (hr : r.kind = .symbol .closeParen) (hb : Block b true vs ⟨ss, result⟩) :
      Statement b (t :: u :: l :: us ++ r :: vs) (.function t.place name names ss result)

/-- The tokens of statements in a row. -/
inductive Statements : Nat → List Token → List Stmt → Prop
  | nil {b : Nat} : Statements b [] []
  | cons {b : Nat} {us vs : List Token} {s : Stmt} {ss : List Stmt} (hs : Statement b us s)
      (hss : Statements b vs ss) : Statements b (us ++ vs) (s :: ss)

/-- The tokens of a block below `b` others, braces included. -/
inductive Block : Nat → (returns : Bool) → List Token → Body → Prop
  | mk {b : Nat} {returns : Bool} {l r : Token} {us vs : List Token} {ss : List Stmt}
      {result : Option Expr} (hb : B b) (hl : l.kind = .symbol .openBrace)
      (hss : Statements (b + 1) us ss) (hres : Result E (b + 1) returns vs result)
      (hr : r.kind = .symbol .closeBrace) : Block b returns (l :: us ++ vs ++ [r]) ⟨ss, result⟩

/-- The tokens of `elif` clauses in a row. -/
inductive Clauses : Nat → List Token → List Clause → Prop
  | nil {b : Nat} : Clauses b [] []
  | cons {b : Nat} {t : Token} {us vs ws : List Token} {e : Expr} {ss : List Stmt}
      {cs : List Clause} (ht : t.kind = .keyword .elifWord) (he : Condition E b us e)
      (hss : Block b false vs ⟨ss, none⟩) (hcs : Clauses b ws cs) :
      Clauses b (t :: us ++ vs ++ ws) (.mk e ss :: cs)

/-- The tokens of an `else`, if there is one. -/
inductive Otherwise : Nat → List Token → Option (List Stmt) → Prop
  | none {b : Nat} : Otherwise b [] none
  | some {b : Nat} {t : Token} {us : List Token} {ss : List Stmt}
      (ht : t.kind = .keyword .elseWord) (hss : Block b false us ⟨ss, none⟩) :
      Otherwise b (t :: us) (some ss)

end

end

/-- The tokens of a whole program. -/
inductive Script : List Token → Program → Prop
  | mk {us : List Token} {ss : List Stmt}
      (h : Statements (fun _ => Expression) (fun _ => True) 0 us ss) : Script us ⟨⟨1, 1⟩, ss⟩

/-! ## The kinds of tokens in a phrase -/

end Phrase

namespace Token

theorem kind_eq {t : Token} {c : Content} (h : t.content = c) : t.kind = c.kind :=
  congrArg Content.kind h

theorem exists_text {t : Token} {s : Symbol} (h : t.kind = .symbol s) :
    ∃ text, t.content = .symbol s text := by
  unfold Token.kind at h
  cases hc : t.content <;> rw [hc] at h <;> cases h
  exact ⟨_, rfl⟩

theorem exists_name {t : Token} (h : t.kind = .ident) : ∃ name, t.content = .ident name := by
  unfold Token.kind at h
  cases hc : t.content <;> rw [hc] at h <;> cases h
  exact ⟨_, rfl⟩

theorem update?_eq {t : Token} {s : Symbol} (h : t.kind = .symbol s) :
    t.update? = s.update?.map (s, ·) := by
  obtain ⟨text, hc⟩ := exists_text h
  rw [update?, hc]

theorem binary?_eq {t : Token} {s : Symbol} (h : t.kind = .symbol s) :
    t.binary? = s.binary? := by
  obtain ⟨text, hc⟩ := exists_text h
  rw [binary?, hc]

theorem kind_of_update? {t : Token} {s : Symbol} {o : Operator} (h : t.update? = some (s, o)) :
    t.kind = .symbol s :=
  (update?_eq_some_iff.mp h).1

/-- A step is an update by a symbol of its own. -/
theorem step?_eq_some_iff_update? {t : Token} {o : Operator} :
    t.step? = some o ↔ ∃ s, t.update? = some (s, o) ∧ s.isStep = true := by
  unfold step?
  constructor
  · intro h
    split at h
    · next s p hu =>
      split at h
      · next hs =>
        cases h
        exact ⟨s, hu, hs⟩
      · cases h
    · cases h
  · rintro ⟨s, hu, hs⟩
    simp [hu, hs]

/-- The operators that change a variable by one. -/
theorem step?_eq_some {t : Token} {o : Operator} :
    t.step? = some o ↔
      t.kind = .symbol .increment ∧ o = .plus ∨ t.kind = .symbol .decrement ∧ o = .minus := by
  constructor
  · intro h
    unfold step? at h
    split at h
    · next s p hu =>
      have hk := kind_of_update? hu
      rw [update?_eq hk] at hu
      cases s <;> simp [Symbol.isStep, Symbol.update?] at h hu
      · exact Or.inl ⟨hk, by rw [← h, ← hu]⟩
      · exact Or.inr ⟨hk, by rw [← h, ← hu]⟩
    · cases h
  · rintro (⟨hk, rfl⟩ | ⟨hk, rfl⟩)
    · rw [step?, update?_eq hk]; rfl
    · rw [step?, update?_eq hk]; rfl

/-- The tokens that change a variable by one are those of the two kinds. -/
theorem kind_mem_steps (t : Token) :
    t.kind ∈ [Kind.symbol .increment, .symbol .decrement] ↔ t.step?.isSome = true := by
  rw [Option.isSome_iff_exists]
  simp only [step?_eq_some, List.mem_cons, List.not_mem_nil, or_false]
  constructor
  · rintro (hk | hk)
    · exact ⟨.plus, Or.inl ⟨hk, rfl⟩⟩
    · exact ⟨.minus, Or.inr ⟨hk, rfl⟩⟩
  · rintro ⟨o, ⟨hk, -⟩ | ⟨hk, -⟩⟩
    · exact Or.inl hk
    · exact Or.inr hk

end Token

namespace Phrase

/-! ## No end mark inside a phrase -/

/-- No token of the list closes a script. -/
def Open (ts : List Token) : Prop :=
  ∀ t ∈ ts, t.isEnd = false

@[simp] theorem open_nil : Open [] := by
  intro t ht
  cases ht

@[simp] theorem open_cons {t : Token} {ts : List Token} :
    Open (t :: ts) ↔ t.kind ≠ .eof ∧ Open ts := by
  simp [Open, Token.isEnd]

@[simp] theorem open_append {us vs : List Token} : Open (us ++ vs) ↔ Open us ∧ Open vs := by
  simp only [Open, List.mem_append, or_imp, forall_and]

theorem kind_ne_eof_of_binary? {t : Token} {o : Operator} (h : t.binary? = some o) :
    t.kind ≠ .eof := by
  obtain ⟨s, hk, -⟩ := Token.binary?_eq_some_iff.mp h
  rw [hk]
  nofun

theorem kind_ne_eof_of_step? {t : Token} {o : Operator} (h : t.step? = some o) :
    t.kind ≠ .eof := by
  rcases Token.step?_eq_some.mp h with ⟨hk, -⟩ | ⟨hk, -⟩ <;> rw [hk] <;> nofun

theorem Dots.isOpen {us : List Token} {b : Bool} (h : Dots us b) : Open us := by
  cases h with
  | absent => exact open_nil
  | present h => simp [h]

mutual

theorem Atom.isOpen {us : List Token} {e : Expr} (h : Atom us e) : Open us := by
  match h with
  | .int h => simp [Token.kind_eq h, Content.kind]
  | .float h => simp [Token.kind_eq h, Content.kind]
  | .string h => simp [Token.kind_eq h, Content.kind]
  | .char h => simp [Token.kind_eq h, Content.kind]
  | .bool h => simp [Token.kind_eq h, Content.kind]
  | .ident h => simp [Token.kind_eq h, Content.kind]
  | .step ht hu => simp [kind_ne_eof_of_step? ht, Token.kind_eq hu, Content.kind]
  | .call ht hl hes hr => simp [Token.kind_eq ht, Content.kind, hl, hes.isOpen, hr]
  | .index ht hl he hr => simp [Token.kind_eq ht, Content.kind, hl, he.isOpen, hr]
  | .list hl his hr => simp [hl, his.isOpen, hr]
  | .comprehension hl hb hf ht hi hs hr =>
    simp [hl, hb.isOpen, hf, Token.kind_eq ht, Content.kind, hi, hs.isOpen, hr]

theorem Expression.isOpen {us : List Token} {e : Expr} (h : Expression us e) : Open us := by
  match h with
  | .chain ha hc => exact open_append.mpr ⟨ha.isOpen, hc.isOpen⟩

theorem Chain.isOpen {us : List Token} {a e : Expr} (h : Chain us a e) : Open us := by
  match h with
  | .nil => exact open_nil
  | .cons ht hb hc => simp [kind_ne_eof_of_binary? ht, hb.isOpen, hc.isOpen]

theorem Arguments.isOpen {us : List Token} {es : List Expr} (h : Arguments us es) : Open us := by
  match h with
  | .nil => exact open_nil
  | .cons he hes => exact open_append.mpr ⟨he.isOpen, hes.isOpen⟩

theorem MoreArguments.isOpen {us : List Token} {es : List Expr} (h : MoreArguments us es) :
    Open us := by
  match h with
  | .nil => exact open_nil
  | .cons ht he hes => simp [ht, he.isOpen, hes.isOpen]

theorem ListItem.isOpen {us : List Token} {i : Item} (h : ListItem us i) : Open us := by
  match h with
  | .mk hp he hs => simp [hp.isOpen, he.isOpen, hs.isOpen]

theorem Items.isOpen {us : List Token} {is : List Item} (h : Items us is) : Open us := by
  match h with
  | .nil => exact open_nil
  | .cons hi his => exact open_append.mpr ⟨hi.isOpen, his.isOpen⟩

theorem MoreItems.isOpen {us : List Token} {is : List Item} (h : MoreItems us is) : Open us := by
  match h with
  | .nil => exact open_nil
  | .comma ht => simp [ht]
  | .cons ht hi his => simp [ht, hi.isOpen, his.isOpen]

end

theorem MoreParameters.isOpen {us : List Token} {names : List String}
    (h : MoreParameters us names) : Open us := by
  induction h with
  | nil => exact open_nil
  | cons ht hu _ ih => simp [ht, Token.kind_eq hu, Content.kind, ih]

theorem Parameters.isOpen {us : List Token} {names : List String} (h : Parameters us names) :
    Open us := by
  cases h with
  | nil => exact open_nil
  | cons ht hus => simp [Token.kind_eq ht, Content.kind, hus.isOpen]

section

variable {E : Nat → List Token → Expr → Prop} {B : Nat → Prop}

theorem Condition.isOpen (hE : ∀ b us e, E b us e → Open us) {b : Nat} {us : List Token}
    {e : Expr} (h : Condition E b us e) : Open us := by
  cases h with
  | mk hl he hr => simp [hl, hE _ _ _ he, hr]

theorem Result.isOpen (hE : ∀ b us e, E b us e → Open us) {b : Nat} {returns : Bool}
    {us : List Token} {e : Option Expr} (h : Result E b returns us e) : Open us := by
  cases h with
  | none => exact open_nil
  | some ht he hr => simp [ht, hE _ _ _ he, hr]

mutual

theorem Statement.isOpen (hE : ∀ b us e, E b us e → Open us) {b : Nat} {us : List Token}
    {s : Stmt} (h : Statement E B b us s) : Open us := by
  match h with
  | .load ht hu hr => simp [ht, Token.kind_eq hu, Content.kind, hr]
  | .assignment ht hq hv hr => simp [hE _ _ _ ht, hq, hE _ _ _ hv, hr]
  | .expression he hr => simp [hE _ _ _ he, hr]
  | .update ht hu _ he hr =>
    simp [Token.kind_eq ht, Content.kind, Token.kind_of_update? hu, hE _ _ _ he, hr]
  | .step ht hu hr => simp [Token.kind_eq ht, Content.kind, kind_ne_eof_of_step? hu, hr]
  | .conditional ht he hss hcs hl =>
    simp [ht, he.isOpen hE, hss.isOpen hE, hcs.isOpen hE, hl.isOpen hE]
  | .whileLoop ht he hss => simp [ht, he.isOpen hE, hss.isOpen hE]
  | .forLoop ht hu hi he hss =>
    simp [ht, Token.kind_eq hu, Content.kind, hi, hE _ _ _ he, hss.isOpen hE]
  | .function ht hu hl hn hr hb =>
    simp [ht, Token.kind_eq hu, Content.kind, hl, hn.isOpen, hr, hb.isOpen hE]

theorem Statements.isOpen (hE : ∀ b us e, E b us e → Open us) {b : Nat} {us : List Token}
    {ss : List Stmt} (h : Statements E B b us ss) : Open us := by
  match h with
  | .nil => exact open_nil
  | .cons hs hss => exact open_append.mpr ⟨hs.isOpen hE, hss.isOpen hE⟩

theorem Block.isOpen (hE : ∀ b us e, E b us e → Open us) {b : Nat} {returns : Bool}
    {us : List Token} {body : Body} (h : Block E B b returns us body) : Open us := by
  match h with
  | .mk _ hl hss hres hr => simp [hl, hss.isOpen hE, hres.isOpen hE, hr]

theorem Clauses.isOpen (hE : ∀ b us e, E b us e → Open us) {b : Nat} {us : List Token}
    {cs : List Clause} (h : Clauses E B b us cs) : Open us := by
  match h with
  | .nil => exact open_nil
  | .cons ht he hss hcs => simp [ht, he.isOpen hE, hss.isOpen hE, hcs.isOpen hE]

theorem Otherwise.isOpen (hE : ∀ b us e, E b us e → Open us) {b : Nat} {us : List Token}
    {last : Option (List Stmt)} (h : Otherwise E B b us last) : Open us := by
  match h with
  | .none => exact open_nil
  | .some ht hss => simp [ht, hss.isOpen hE]

end

end

/-! ## What a phrase begins with -/

/-- The tokens ahead make no call and no element of a name. -/
def Apart (ts : List Token) : Prop :=
  (firstToken ts).kind ≠ .symbol .openParen ∧ (firstToken ts).kind ≠ .symbol .openBracket

/-- The tokens ahead do not carry on an expression. -/
def Stops (ts : List Token) : Prop :=
  (firstToken ts).binary? = none ∧ Apart ts

theorem kind_mem_atomStarts {t : Token} {c : Content} (h : t.content = c)
    (hc : c.kind ∈ Kind.literals ∨ c.kind = .ident) : t.kind ∈ Kind.atomStarts := by
  rw [Token.kind_eq h]
  rcases hc with hc | hc
  · exact List.mem_append_left _ hc
  · exact List.mem_append_right _ (by rw [hc]; exact List.mem_cons_self)

/-- An atom begins with a token of its own kinds and stands there. -/
theorem Atom.opens {us : List Token} {a : Expr} (h : Atom us a) :
    ∃ t vs, us = t :: vs ∧ t.kind ∈ Kind.atomStarts ∧ t.place = a.place := by
  cases h with
  | int h => exact ⟨_, _, rfl, kind_mem_atomStarts h (by simp [Content.kind, Kind.literals]), rfl⟩
  | float h =>
    exact ⟨_, _, rfl, kind_mem_atomStarts h (by simp [Content.kind, Kind.literals]), rfl⟩
  | string h =>
    exact ⟨_, _, rfl, kind_mem_atomStarts h (by simp [Content.kind, Kind.literals]), rfl⟩
  | char h => exact ⟨_, _, rfl, kind_mem_atomStarts h (by simp [Content.kind, Kind.literals]), rfl⟩
  | bool h => exact ⟨_, _, rfl, kind_mem_atomStarts h (by simp [Content.kind, Kind.literals]), rfl⟩
  | ident h => exact ⟨_, _, rfl, kind_mem_atomStarts h (Or.inr rfl), rfl⟩
  | step ht hu =>
    refine ⟨_, _, rfl, ?_, rfl⟩
    rcases Token.step?_eq_some.mp ht with ⟨hk, -⟩ | ⟨hk, -⟩ <;> rw [hk] <;> decide
  | call ht hl hes hr => exact ⟨_, _, rfl, kind_mem_atomStarts ht (Or.inr rfl), rfl⟩
  | index ht hl he hr => exact ⟨_, _, rfl, kind_mem_atomStarts ht (Or.inr rfl), rfl⟩
  | list hl his hr => exact ⟨_, _, rfl, by rw [hl]; decide, rfl⟩
  | comprehension hl hb hf ht hi hs hr => exact ⟨_, _, rfl, by rw [hl]; decide, rfl⟩

/-- A chain stands at its first operand. -/
theorem Chain.place_eq {us : List Token} {a e : Expr} (h : Chain us a e) : e.place = a.place := by
  match h with
  | .nil => rfl
  | .cons _ _ hc => exact hc.place_eq

theorem Expression.opens {us : List Token} {e : Expr} (h : Expression us e) :
    ∃ t vs, us = t :: vs ∧ t.kind ∈ Kind.atomStarts ∧ t.place = e.place := by
  cases h with
  | chain ha hc =>
    obtain ⟨t, vs, rfl, hk, hp⟩ := ha.opens
    exact ⟨t, vs ++ _, rfl, hk, by rw [hp, hc.place_eq]⟩

/-- Behind a name at the front of an atom stands a bracket, if anything. -/
theorem Atom.behind_name {t : Token} {us vs : List Token} {a : Expr} (h : Atom us a)
    (hu : us = t :: vs) (ht : t.kind = .ident) : vs = [] ∨ ¬ Apart vs := by
  cases h with
  | int h => cases hu; exact Or.inl rfl
  | float h => cases hu; exact Or.inl rfl
  | string h => cases hu; exact Or.inl rfl
  | char h => cases hu; exact Or.inl rfl
  | bool h => cases hu; exact Or.inl rfl
  | ident h => cases hu; exact Or.inl rfl
  | step hs _ =>
    cases hu
    rcases Token.step?_eq_some.mp hs with ⟨hk, -⟩ | ⟨hk, -⟩ <;> rw [hk] at ht <;> cases ht
  | call _ hl _ _ => cases hu; exact Or.inr fun h => h.1 hl
  | index _ hl _ _ => cases hu; exact Or.inr fun h => h.2 hl
  | list hl _ _ => cases hu; rw [hl] at ht; cases ht
  | comprehension hl _ _ _ _ _ _ => cases hu; rw [hl] at ht; cases ht

theorem update?_eq_none_of_binary? {t : Token} {o : Operator} (h : t.binary? = some o) :
    t.update? = none := by
  obtain ⟨s, hk, hs⟩ := Token.binary?_eq_some_iff.mp h
  rw [Token.update?_eq hk]
  cases s with
  | plus | minus | times | divide | less | greater | equal | notEqual => rfl
  | _ => cases hs

theorem update?_eq_none_of_not_apart {ts : List Token} (h : ¬ Apart ts) :
    (firstToken ts).update? = none := by
  unfold Apart at h
  by_cases hp : (firstToken ts).kind = .symbol .openParen
  · rw [Token.update?_eq hp]; rfl
  · by_cases hb : (firstToken ts).kind = .symbol .openBracket
    · rw [Token.update?_eq hb]; rfl
    · exact absurd ⟨hp, hb⟩ h

/-- A name at the front of an expression is not changed there: behind it stands a bracket,
an operator between operands, or what follows the expression. -/
theorem Expression.update?_eq_none {t : Token} {us vs rest : List Token} {e : Expr}
    (h : Expression us e) (hu : us = t :: vs) (ht : t.kind = .ident)
    (hr : (firstToken rest).update? = none) : (firstToken (vs ++ rest)).update? = none := by
  cases h with
  | @chain ws xs a _ ha hc =>
    obtain ⟨t', ws', rfl, -, -⟩ := ha.opens
    cases hu
    rcases ha.behind_name rfl ht with rfl | hb
    · cases hc with
      | nil => exact hr
      | cons ho _ _ => exact update?_eq_none_of_binary? ho
    · have hb' := update?_eq_none_of_not_apart hb
      cases ws' with
      | nil => exact absurd ⟨by nofun, by nofun⟩ hb
      | cons l ls => exact hb'

/-! ## Chains from their end -/

/-- An operator and an atom at the end of a chain. -/
theorem Chain.snoc {us vs : List Token} {a l r : Expr} {t : Token} {o : Operator}
    (h : Chain us a l) (ht : t.binary? = some o) (hr : Atom vs r) :
    Chain (us ++ t :: vs) a (.operation a.place l o r) := by
  match h with
  | .nil =>
    have hc : Chain (t :: vs ++ []) a _ := .cons ht hr .nil
    rw [List.append_nil] at hc
    exact hc
  | .cons ht' hb hc =>
    have hc' := hc.snoc ht hr
    rw [List.append_assoc]
    exact .cons ht' hb hc'

theorem Atom.expression {us : List Token} {a : Expr} (h : Atom us a) : Expression us a := by
  have he : Expression (us ++ []) a := .chain h .nil
  rw [List.append_nil] at he
  exact he

end Phrase

end ScriptReader
