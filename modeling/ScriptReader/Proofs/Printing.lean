import ScriptReader.Proofs.WellFormed

/-!
# Trees as tokens

`contents` writes a tree as what its tokens say, from the first one to the last.  A change of a
variable is written with the amount behind its operator, and no comma stands behind the last
item of a list.

Main statement: `Program.WellFormed.writable`, that some text says each of the contents of a
well-formed program.
-/

namespace ScriptReader

/-! ## What is written -/

/-- What the token of a reserved word says. -/
def Keyword.content (k : Keyword) : Content :=
  .keyword k k.text

/-- What the token of a symbol says. -/
def Symbol.content (s : Symbol) : Content :=
  .symbol s s.text

namespace Operator

/-- The symbol of an operator between operands. -/
def symbol : Operator → Symbol
  | plus => .plus
  | minus => .minus
  | times => .times
  | divide => .divide
  | lessThan => .less
  | greaterThan => .greater
  | equal => .equal
  | notEqual => .notEqual

/-- The symbol that changes a variable by one, up unless the operator is a minus. -/
def stepSymbol : Operator → Symbol
  | minus => .decrement
  | _ => .increment

/-- The symbol that changes a variable by an amount.  Only the four arithmetical operators have
one of their own. -/
def updateSymbol : Operator → Symbol
  | plus => .plusAssign
  | minus => .minusAssign
  | times => .timesAssign
  | _ => .divideAssign

end Operator

/-- Contents with a comma between each two of them. -/
def separated : List (List Content) → List Content
  | [] => []
  | cs :: more => cs ++ more.flatMap fun ds => Symbol.comma.content :: ds

/-- The dots beside an item, if they are there. -/
def dotsContents (present : Bool) : List Content :=
  if present then [Symbol.dots.content] else []

mutual

/-- What the tokens of an expression say. -/
def Expr.contents : Expr → List Content
  | .blank _ => []
  | .int _ n => [.int n]
  | .float _ x => [.float x]
  | .string _ s => [.string s]
  | .bool _ b => [.bool b]
  | .char _ s => [.char s]
  | .ident _ name => [.ident name]
  | .list _ items =>
    Symbol.openBracket.content :: separated (Item.contentsEach items) ++
      [Symbol.closeBracket.content]
  | .call _ name es =>
    .ident name :: Symbol.openParen.content :: separated (Expr.contentsEach es) ++
      [Symbol.closeParen.content]
  | .index _ name e =>
    .ident name :: Symbol.openBracket.content :: e.contents ++ [Symbol.closeBracket.content]
  | .step _ name o _ => [o.stepSymbol.content, .ident name]
  | .operation _ l o r => l.contents ++ o.symbol.content :: r.contents
  | .comprehension _ body name source =>
    Symbol.openBracket.content :: body.contents ++ Keyword.forWord.content :: .ident name ::
      Keyword.inWord.content :: source.contents ++ [Symbol.closeBracket.content]

/-- What the tokens of an item say. -/
def Item.contents : Item → List Content
  | .mk _ e isSpread isPack => dotsContents isPack ++ e.contents ++ dotsContents isSpread

/-- What the tokens of some expressions say, each for itself. -/
def Expr.contentsEach : List Expr → List (List Content)
  | [] => []
  | e :: es => e.contents :: Expr.contentsEach es

/-- What the tokens of some items say, each for itself. -/
def Item.contentsEach : List Item → List (List Content)
  | [] => []
  | i :: is => i.contents :: Item.contentsEach is

end

/-- A condition in its parentheses. -/
def conditionContents (e : Expr) : List Content :=
  Symbol.openParen.content :: e.contents ++ [Symbol.closeParen.content]

/-- The result of a function, if it has one. -/
def resultContents : Option Expr → List Content
  | none => []
  | some e => Keyword.returnWord.content :: e.contents ++ [Symbol.semicolon.content]

/-- A block in its braces: the statements and the result. -/
def blockContents (body result : List Content) : List Content :=
  Symbol.openBrace.content :: body ++ result ++ [Symbol.closeBrace.content]

mutual

/-- What the tokens of a statement say. -/
def Stmt.contents : Stmt → List Content
  | .blank _ => []
  | .load _ path => [Keyword.importWord.content, .string path, Symbol.semicolon.content]
  | .assignment _ target value =>
    target.contents ++ Symbol.assign.content :: value.contents ++ [Symbol.semicolon.content]
  | .update _ name o amount =>
    .ident name :: o.updateSymbol.content :: amount.contents ++ [Symbol.semicolon.content]
  | .conditional _ b => Keyword.ifWord.content :: b.contents
  | .whileLoop _ e ss =>
    Keyword.whileWord.content :: conditionContents e ++ blockContents (Stmt.contentsAll ss) []
  | .forLoop _ l => Keyword.forWord.content :: l.contents
  | .expression _ e => e.contents ++ [Symbol.semicolon.content]
  | .function _ name names ss result =>
    Keyword.fnWord.content :: .ident name :: Symbol.openParen.content ::
      separated (names.map fun n => [.ident n]) ++ Symbol.closeParen.content ::
      blockContents (Stmt.contentsAll ss) (resultContents result)

/-- What the tokens of a branch say behind its first word. -/
def Branch.contents : Branch → List Content
  | .mk _ e ss cs none =>
    conditionContents e ++ blockContents (Stmt.contentsAll ss) [] ++ Clause.contentsAll cs
  | .mk _ e ss cs (some last) =>
    conditionContents e ++ blockContents (Stmt.contentsAll ss) [] ++ Clause.contentsAll cs ++
      Keyword.elseWord.content :: blockContents (Stmt.contentsAll last) []

/-- What the tokens of a clause say. -/
def Clause.contents : Clause → List Content
  | .mk e ss =>
    Keyword.elifWord.content :: conditionContents e ++ blockContents (Stmt.contentsAll ss) []

/-- What the tokens of a loop say behind its first word. -/
def Loop.contents : Loop → List Content
  | .mk _ name e ss =>
    .ident name :: Keyword.inWord.content :: e.contents ++
      blockContents (Stmt.contentsAll ss) []

/-- What the tokens of some statements say. -/
def Stmt.contentsAll : List Stmt → List Content
  | [] => []
  | s :: ss => s.contents ++ Stmt.contentsAll ss

/-- What the tokens of some clauses say. -/
def Clause.contentsAll : List Clause → List Content
  | [] => []
  | c :: cs => c.contents ++ Clause.contentsAll cs

end

/-- What the tokens of a program say. -/
def Program.contents (p : Program) : List Content :=
  Stmt.contentsAll p.statements

theorem Expr.contentsEach_eq_map (es : List Expr) :
    Expr.contentsEach es = es.map Expr.contents := by
  induction es with
  | nil => rfl
  | cons e es ih => rw [Expr.contentsEach, ih, List.map_cons]

theorem Item.contentsEach_eq_map (is : List Item) :
    Item.contentsEach is = is.map Item.contents := by
  induction is with
  | nil => rfl
  | cons i is ih => rw [Item.contentsEach, ih, List.map_cons]

theorem Stmt.contentsAll_eq_flatMap (ss : List Stmt) :
    Stmt.contentsAll ss = ss.flatMap Stmt.contents := by
  induction ss with
  | nil => rfl
  | cons s ss ih => rw [Stmt.contentsAll, ih, List.flatMap_cons]

theorem Clause.contentsAll_eq_flatMap (cs : List Clause) :
    Clause.contentsAll cs = cs.flatMap Clause.contents := by
  induction cs with
  | nil => rfl
  | cons c cs ih => rw [Clause.contentsAll, ih, List.flatMap_cons]

/-- The block of an `else`, if there is one. -/
def otherwiseContents : Option (List Stmt) → List Content
  | none => []
  | some ss => Keyword.elseWord.content :: blockContents (Stmt.contentsAll ss) []

theorem Branch.contents_mk (p : Place) (e : Expr) (ss : List Stmt) (cs : List Clause)
    (last : Option (List Stmt)) :
    (Branch.mk p e ss cs last).contents =
      conditionContents e ++ blockContents (Stmt.contentsAll ss) [] ++ Clause.contentsAll cs ++
        otherwiseContents last := by
  cases last with
  | none => rw [Branch.contents, otherwiseContents, List.append_nil]
  | some ts => rw [Branch.contents, otherwiseContents]

/-! ## What is written can be spelled -/

/-- All of the contents can be spelled. -/
def Writable (cs : List Content) : Prop :=
  ∀ c ∈ cs, c.Spellable

@[simp] theorem writable_nil : Writable [] := by
  intro c hc
  cases hc

@[simp] theorem writable_cons {c : Content} {cs : List Content} :
    Writable (c :: cs) ↔ c.Spellable ∧ Writable cs :=
  List.forall_mem_cons

@[simp] theorem writable_append {cs ds : List Content} :
    Writable (cs ++ ds) ↔ Writable cs ∧ Writable ds :=
  List.forall_mem_append

@[simp] theorem Keyword.spellable_content (k : Keyword) : k.content.Spellable := rfl

@[simp] theorem Symbol.spellable_content (s : Symbol) : s.content.Spellable := rfl

theorem writable_flatMap {α : Type} {f : α → List Content} {xs : List α}
    (h : ∀ x ∈ xs, Writable (f x)) : Writable (xs.flatMap f) :=
  List.forall_mem_flatMap.mpr h

theorem writable_separated {css : List (List Content)} (h : ∀ cs ∈ css, Writable cs) :
    Writable (separated css) := by
  cases css with
  | nil => exact writable_nil
  | cons cs css =>
    obtain ⟨hcs, hcss⟩ := List.forall_mem_cons.mp h
    refine writable_append.mpr ⟨hcs, writable_flatMap ?_⟩
    intro ds hds
    exact writable_cons.mpr ⟨Symbol.comma.spellable_content, hcss ds hds⟩

theorem writable_dotsContents (present : Bool) : Writable (dotsContents present) := by
  cases present <;> simp [dotsContents]

theorem Item.writable_contents {i : Item} (h : Writable i.expression.contents) :
    Writable i.contents := by
  obtain ⟨p, e, isSpread, isPack⟩ := i
  have he : Writable e.contents := h
  simp [contents, writable_dotsContents, he]

theorem Expr.WellFormed.writable {e : Expr} (h : e.WellFormed) : Writable e.contents := by
  induction h with
  | @node e h _ ih =>
    cases e with
    | blank p => exact absurd h id
    | int | float | string | char | bool | ident => exact List.forall_mem_singleton.mpr h
    | step p name o amount => exact writable_cons.mpr ⟨rfl, List.forall_mem_singleton.mpr h.1⟩
    | list p items =>
      have his : Writable (separated (items.map Item.contents)) := by
        refine writable_separated (List.forall_mem_map.mpr ?_)
        intro i hi
        exact i.writable_contents (ih _ (List.mem_map_of_mem hi))
      simp [contents, Item.contentsEach_eq_map, his]
    | call p name es =>
      have hes : Writable (separated (es.map contents)) :=
        writable_separated (List.forall_mem_map.mpr ih)
      have hn : (Content.ident name).Spellable := h
      simp [contents, contentsEach_eq_map, hn, hes]
    | index p name e =>
      have he := List.forall_mem_singleton.mp ih
      have hn : (Content.ident name).Spellable := h
      simp [contents, hn, he]
    | operation p l o r =>
      have hl := ih l List.mem_cons_self
      have hr := ih r (by simp [parts])
      simp [contents, hl, hr]
    | comprehension p body name source =>
      have hb := ih body List.mem_cons_self
      have hs := ih source (by simp [parts])
      have hn : (Content.ident name).Spellable := h
      simp [contents, hb, hn, hs]

theorem writable_conditionContents {e : Expr} (h : e.WellFormed) :
    Writable (conditionContents e) := by
  simp [conditionContents, h.writable]

theorem writable_resultContents {result : Option Expr}
    (h : ∀ e ∈ result.toList, e.WellFormed) : Writable (resultContents result) := by
  cases result with
  | none => exact writable_nil
  | some e =>
    have he := (List.forall_mem_singleton.mp h).writable
    simp [resultContents, he]

theorem writable_blockContents {ss : List Stmt} {cs : List Content}
    (hss : ∀ s ∈ ss, Writable s.contents) (hcs : Writable cs) :
    Writable (blockContents (Stmt.contentsAll ss) cs) := by
  have hall := writable_flatMap hss
  simp [blockContents, Stmt.contentsAll_eq_flatMap, hall, hcs]

theorem Clause.writable_contents {c : Clause} (he : c.condition.WellFormed)
    (hss : ∀ s ∈ c.body, Writable s.contents) : Writable c.contents := by
  obtain ⟨e, ss⟩ := c
  have hb := writable_blockContents hss writable_nil
  have hc := writable_conditionContents he
  exact writable_append.mpr ⟨writable_cons.mpr ⟨rfl, hc⟩, hb⟩

theorem writable_otherwiseContents {last : Option (List Stmt)}
    (h : ∀ s ∈ last.getD [], Writable s.contents) : Writable (otherwiseContents last) := by
  cases last with
  | none => exact writable_nil
  | some ss => exact writable_cons.mpr ⟨rfl, writable_blockContents h writable_nil⟩

theorem Stmt.WellFormed.writable {s : Stmt} (h : s.WellFormed) : Writable s.contents := by
  induction h with
  | @node s h he _ ih =>
    have hexpr : ∀ e ∈ s.expressions, Writable e.contents := fun e hm => (he e hm).writable
    cases s with
    | blank p => exact absurd h id
    | load p path =>
      have hp : (Content.string path).Spellable := h
      simp [contents, hp]
    | assignment p target value =>
      have ht := hexpr target List.mem_cons_self
      have hv := hexpr value (by simp [expressions])
      simp [contents, ht, hv]
    | update p name o amount =>
      have ha := List.forall_mem_singleton.mp hexpr
      have hn : (Content.ident name).Spellable := h.1
      simp [contents, hn, ha]
    | conditional p branch =>
      obtain ⟨q, e, ss, cs, last⟩ := branch
      obtain ⟨hce, hcs⟩ := List.forall_mem_cons.mp he
      obtain ⟨hss, hbodies, hlast⟩ := forall_inner_conditional.mp ih
      have hcond := writable_conditionContents hce
      have hblock := writable_blockContents hss writable_nil
      have hclauses : Writable (Clause.contentsAll cs) := by
        rw [Clause.contentsAll_eq_flatMap]
        refine writable_flatMap ?_
        intro c hc
        exact Clause.writable_contents (hcs _ (List.mem_map_of_mem hc)) (hbodies c hc)
      have hotherwise := writable_otherwiseContents hlast
      simp [contents, Branch.contents_mk, hcond, hblock, hclauses, hotherwise]
    | whileLoop p e ss =>
      have hc := writable_conditionContents (List.forall_mem_singleton.mp he)
      have hb : Writable (blockContents (contentsAll ss) []) :=
        writable_blockContents ih writable_nil
      simp [contents, hc, hb]
    | forLoop p loop =>
      obtain ⟨q, name, e, ss⟩ := loop
      have hsource := List.forall_mem_singleton.mp hexpr
      have hb : Writable (blockContents (contentsAll ss) []) :=
        writable_blockContents ih writable_nil
      have hn : (Content.ident name).Spellable := h
      simp [contents, Loop.contents, hn, hsource, hb]
    | expression p e =>
      have he := List.forall_mem_singleton.mp hexpr
      simp [contents, he]
    | function p name names ss result =>
      have hnames : Writable (separated (names.map fun n => [.ident n])) := by
        refine writable_separated (List.forall_mem_map.mpr ?_)
        exact fun n hm => List.forall_mem_singleton.mpr (h.2 n hm)
      have hn : (Content.ident name).Spellable := h.1
      have hb : Writable (blockContents (contentsAll ss) (resultContents result)) :=
        writable_blockContents ih (writable_resultContents he)
      simp [contents, hn, hnames, hb]

/-- What is written for a well-formed program can be spelled. -/
theorem Program.WellFormed.writable {p : Program} (h : p.WellFormed) :
    Writable p.contents := by
  rw [contents, Stmt.contentsAll_eq_flatMap]
  exact writable_flatMap fun s hs => (h s hs).writable

end ScriptReader
