import ScriptReader.Proofs.Completions
import ScriptReader.Proofs.Nodes

/-!
# Layouts

A tree that was read lies over its tokens: each node takes a run of them, and the runs of its
parts stand inside its own, in their order and apart from each other.  `Laid P ts n` says so of a
node `n`, with a relation `P` between each node and its run.  It does not count tokens.  The run of
a part is cut out of the tokens of the whole, with a gap in front of it, so where it stands is
told by the cut.

One node is not written: the amount of a variable that is changed by one.  It has no run and
stands where the sign of the change does.

Main statements:

* `Laid.mono`, `LaidAll.mono`: another relation over the same runs;
* `LaidAll.exists_run`: the run of one of several nodes is among their tokens;
* `Phrase.Statements.laid`: statements lie over their tokens, with a phrase for each node.
-/

namespace ScriptReader

/-! ## Runs inside runs -/

/-- The tokens are those of a variable that is changed by one, and the amount stands at the
sign: in front of the name in an expression, behind it in a statement. -/
inductive Implied : List Token → Node → Prop
  | step {t : Token} {us : List Token} {p : Place} {name : String} {o : Operator}
      (ht : t.step? = some o) : Implied (t :: us) (.expr (.step p name o (.int t.place 1)))
  | update {t u : Token} {us : List Token} {p : Place} {name : String} {o : Operator}
      (hu : u.step? = some o) : Implied (t :: u :: us) (.stmt (.update p name o (.int u.place 1)))

variable {P Q : List Token → Node → Prop} {us vs : List Token} {n : Node} {ns ms : List Node}

mutual

/-- The node lies over the tokens. -/
inductive Laid (P : List Token → Node → Prop) : List Token → Node → Prop
  | node {us : List Token} {n : Node} (h : P us n) (hs : LaidAll P us n.nodes) : Laid P us n
  | implied {us : List Token} {n : Node} (h : P us n) (hn : Implied us n) : Laid P us n

/-- The nodes lie over the tokens, each behind the one before. -/
inductive LaidAll (P : List Token → Node → Prop) : List Token → List Node → Prop
  | nil {us : List Token} : LaidAll P us []
  | cons {gap us vs : List Token} {n : Node} {ns : List Node} (h : Laid P us n)
      (hs : LaidAll P vs ns) : LaidAll P (gap ++ us ++ vs) (n :: ns)

end

theorem Laid.here (h : Laid P us n) : P us n := by
  cases h with
  | node h _ => exact h
  | implied h _ => exact h

/-- The parts of a node that has none implied lie over its tokens. -/
theorem Laid.parts (h : Laid P us n) (hn : ∀ us, ¬ Implied us n) : LaidAll P us n.nodes := by
  cases h with
  | node _ hs => exact hs
  | implied _ hi => exact absurd hi (hn us)

mutual

theorem Laid.mono {us : List Token} {n : Node} (h : Laid P us n)
    (hPQ : ∀ us n, P us n → Q us n) : Laid Q us n := by
  match h with
  | .node h hs => exact .node (hPQ _ _ h) (hs.mono hPQ)
  | .implied h hn => exact .implied (hPQ _ _ h) hn

theorem LaidAll.mono {us : List Token} {ns : List Node} (h : LaidAll P us ns)
    (hPQ : ∀ us n, P us n → Q us n) : LaidAll Q us ns := by
  match h with
  | .nil => exact .nil
  | .cons h hs => exact .cons (h.mono hPQ) (hs.mono hPQ)

end

/-- Tokens in front widen the first gap. -/
theorem LaidAll.behind (gap : List Token) (h : LaidAll P us ns) : LaidAll P (gap ++ us) ns := by
  cases h with
  | nil => exact .nil
  | @cons gap' us vs n ns h hs =>
    have h' : LaidAll P (gap ++ gap' ++ us ++ vs) (n :: ns) := .cons h hs
    simpa using h'

theorem LaidAll.append (h : LaidAll P us ns) (h' : LaidAll P vs ms) :
    LaidAll P (us ++ vs) (ns ++ ms) := by
  induction ns generalizing us with
  | nil => exact h'.behind us
  | cons n ns ih =>
    cases h with
    | @cons gap us ws _ _ h hs =>
      have h' : LaidAll P (gap ++ us ++ (ws ++ vs)) (n :: (ns ++ ms)) := .cons h (ih hs)
      simpa using h'

/-- Tokens behind the last node do no harm. -/
theorem LaidAll.before (h : LaidAll P us ns) (vs : List Token) : LaidAll P (us ++ vs) ns := by
  have hnil : LaidAll P vs [] := .nil
  have h' := h.append hnil
  rwa [List.append_nil] at h'

/-- One node with tokens in front of it. -/
theorem Laid.single (h : Laid P us n) (gap : List Token) : LaidAll P (gap ++ us) [n] := by
  have h' : LaidAll P (gap ++ us ++ []) [n] := .cons h .nil
  rwa [List.append_nil] at h'

/-- Each of some nodes lies over a run of their tokens. -/
theorem LaidAll.exists_run (h : LaidAll P us ns) (hn : n ∈ ns) :
    ∃ vs, vs <:+: us ∧ Laid P vs n := by
  induction ns generalizing us with
  | nil => cases hn
  | cons m ns ih =>
    cases h with
    | @cons gap vs ws _ _ h hs =>
      rcases List.mem_cons.mp hn with rfl | hn
      · exact ⟨vs, ⟨gap, ws, rfl⟩, h⟩
      · obtain ⟨xs, hxs, hx⟩ := ih hs hn
        exact ⟨xs, hxs.trans ⟨gap ++ vs, [], by simp⟩, hx⟩

/-! ## The phrase of each node -/

open Phrase

/-- The tokens are a phrase of the node.  The parts of an `if` and of a `for` have the tokens of
their statement. -/
def PhraseOf (us : List Token) : Node → Prop
  | .blank _ => False
  | .expr e => Expression us e
  | .stmt s => ∃ b, Statement AllExpressions AllBlocks b us s
  | .item i => ListItem us i
  | .branch x => ∃ b, Statement AllExpressions AllBlocks b us (.conditional x.place x)
  | .loop x => ∃ b, Statement AllExpressions AllBlocks b us (.forLoop x.place x)
  | .program p => Script us p

namespace Phrase

mutual

theorem Atom.laid {us : List Token} {a : Expr} (h : Atom us a) : Laid PhraseOf us (.expr a) := by
  have ha := h.expression
  match h with
  | .int _ => exact .node ha .nil
  | .float _ => exact .node ha .nil
  | .string _ => exact .node ha .nil
  | .char _ => exact .node ha .nil
  | .bool _ => exact .node ha .nil
  | .ident _ => exact .node ha .nil
  | .step ht _ => exact .implied ha (.step ht)
  | @Atom.call t l r _ us _ _ _ hes _ =>
    exact .node ha ((hes.laid.behind [t, l]).before [r])
  | @Atom.index t l r _ us _ _ _ he _ =>
    exact .node ha ((he.laid.single [t, l]).before [r])
  | @Atom.list l r us _ _ his _ =>
    exact .node ha ((his.laid.behind [l]).before [r])
  | @Atom.comprehension l f t i r _ us vs _ _ _ hb _ _ _ hs _ =>
    have hparts := (hb.laid.single [l]).append ((hs.laid.single [f, t, i]).before [r])
    exact .node ha (by simpa [Node.nodes, Expr.nodes] using hparts)

theorem Expression.laid {us : List Token} {e : Expr} (h : Expression us e) :
    Laid PhraseOf us (.expr e) := by
  match h with
  | .chain ha hc =>
    have hchain := hc.laid .nil (by simpa using ha) (by simpa using ha.laid)
    simpa using hchain

/-- The phrase of the operands in front, from the first atom on, is carried along. -/
theorem Chain.laid {us ws xs : List Token} {a l e : Expr} (h : Chain us l e)
    (hl : Chain xs a l) (ha : Atom ws a) (hlaid : Laid PhraseOf (ws ++ xs) (.expr l)) :
    Laid PhraseOf (ws ++ xs ++ us) (.expr e) := by
  match h with
  | .nil => simpa using hlaid
  | @Chain.cons t o us vs _ b _ ht hb hc =>
    have hsnoc := hl.snoc ht hb
    have hop : Expression (ws ++ (xs ++ t :: us)) (.operation a.place l o b) := .chain ha hsnoc
    have hparts : LaidAll PhraseOf (ws ++ xs ++ t :: us) [.expr l, .expr b] :=
      (hlaid.single []).append (hb.laid.single [t])
    have hnext := hc.laid (l := .operation l.place l o b) (by rw [hl.place_eq]; exact hsnoc) ha
      (.node (by rw [hl.place_eq]; exact hop) (by simpa [Node.nodes, Expr.nodes] using hparts))
    simpa using hnext

theorem Arguments.laid {us : List Token} {es : List Expr} (h : Arguments us es) :
    LaidAll PhraseOf us (es.map .expr) := by
  match h with
  | .nil => exact .nil
  | .cons he hes => exact (he.laid.single []).append hes.laid

theorem MoreArguments.laid {us : List Token} {es : List Expr} (h : MoreArguments us es) :
    LaidAll PhraseOf us (es.map .expr) := by
  match h with
  | .nil => exact .nil
  | @MoreArguments.cons t us vs _ _ _ he hes => exact (he.laid.single [t]).append hes.laid

theorem ListItem.laid {us : List Token} {i : Item} (h : ListItem us i) :
    Laid PhraseOf us (.item i) := by
  have hi := h
  match h with
  | @ListItem.mk ps us ss _ _ _ _ he _ => exact .node hi ((he.laid.single ps).before ss)

theorem Items.laid {us : List Token} {is : List Item} (h : Items us is) :
    LaidAll PhraseOf us (is.map .item) := by
  match h with
  | .nil => exact .nil
  | .cons hi his => exact (hi.laid.single []).append his.laid

theorem MoreItems.laid {us : List Token} {is : List Item} (h : MoreItems us is) :
    LaidAll PhraseOf us (is.map .item) := by
  match h with
  | .nil => exact .nil
  | .comma _ => exact .nil
  | @MoreItems.cons t us vs _ _ _ hi his => exact (hi.laid.single [t]).append his.laid

end

theorem Condition.laid {b : Nat} {e : Expr} (h : Condition AllExpressions b us e) :
    LaidAll PhraseOf us [.expr e] := by
  cases h with
  | @mk l r us _ _ he _ => exact (he.laid.single [l]).before [r]

theorem Result.laid {b : Nat} {returns : Bool} {result : Option Expr}
    (h : Result AllExpressions b returns us result) :
    LaidAll PhraseOf us (result.toList.map .expr) := by
  cases h with
  | none => exact .nil
  | @some t r us _ _ he _ => exact (he.laid.single [t]).before [r]

mutual

theorem Statement.laid {b : Nat} {us : List Token} {s : Stmt}
    (h : Statement AllExpressions AllBlocks b us s) :
    Laid PhraseOf us (.stmt s) := by
  have hs : PhraseOf us (.stmt s) := ⟨b, h⟩
  match h with
  | .load _ _ _ => exact .node hs .nil
  | @Statement.assignment _ _ _ q r us vs _ _ ht _ hv _ =>
    exact .node hs (((ht.laid.single []).append (hv.laid.single [q])).before [r])
  | @Statement.expression _ _ _ r us _ he _ => exact .node hs ((he.laid.single []).before [r])
  | @Statement.update _ _ _ t u r _ _ _ us _ _ _ _ he _ =>
    exact .node hs ((he.laid.single [t, u]).before [r])
  | .step _ hu _ => exact .implied hs (.update hu)
  | @Statement.conditional _ _ _ t us vs ws xs e ss cs last _ he hss hcs hl =>
    have hparts := (((he.laid.behind [t]).append hss.laid).append hcs.laid).append hl.laid
    have hbranch : Laid PhraseOf (t :: us ++ vs ++ ws ++ xs) (.branch (.mk t.place e ss cs last)) :=
      .node hs (by simpa [Node.nodes, Branch.nodes] using hparts)
    exact .node hs (hbranch.single [])
  | @Statement.whileLoop _ _ _ t us vs _ _ _ he hss =>
    have hparts := (he.laid.behind [t]).append hss.laid
    exact .node hs (by simpa [Node.nodes, Stmt.nodes] using hparts)
  | @Statement.forLoop _ _ _ t u i name us vs e ss _ _ _ he hss =>
    have hparts := (he.laid.single [t, u, i]).append hss.laid
    have hloop : Laid PhraseOf (t :: u :: i :: us ++ vs) (.loop (.mk t.place name e ss)) :=
      .node hs (by simpa [Node.nodes, Loop.nodes] using hparts)
    exact .node hs (hloop.single [])
  | @Statement.function _ _ _ t u l r _ _ us vs _ _ _ _ _ _ _ hb =>
    have hparts := hb.laid.behind (t :: u :: l :: us ++ [r])
    exact .node hs (by simpa [Node.nodes, Stmt.nodes] using hparts)

theorem Statements.laid {b : Nat} {us : List Token} {ss : List Stmt}
    (h : Statements AllExpressions AllBlocks b us ss) :
    LaidAll PhraseOf us (ss.map .stmt) := by
  match h with
  | .nil => exact .nil
  | .cons hs hss => exact (hs.laid.single []).append hss.laid

theorem Block.laid {b : Nat} {returns : Bool} {us : List Token} {x : Body}
    (h : Block AllExpressions AllBlocks b returns us x) :
    LaidAll PhraseOf us (x.statements.map .stmt ++ x.result.toList.map .expr) := by
  match h with
  | @Block.mk _ _ _ _ l r us vs _ _ _ _ hss hres _ =>
    exact ((hss.laid.behind [l]).append hres.laid).before [r]

theorem Clauses.laid {b : Nat} {us : List Token} {cs : List Clause}
    (h : Clauses AllExpressions AllBlocks b us cs) :
    LaidAll PhraseOf us (cs.flatMap Clause.nodes) := by
  match h with
  | .nil => exact .nil
  | @Clauses.cons _ _ _ t us vs ws _ _ _ _ he hss hcs =>
    have hparts := ((he.laid.behind [t]).append hss.laid).append hcs.laid
    simpa [Clause.nodes] using hparts

theorem Otherwise.laid {b : Nat} {us : List Token} {last : Option (List Stmt)}
    (h : Otherwise AllExpressions AllBlocks b us last) :
    LaidAll PhraseOf us ((last.getD []).map .stmt) := by
  match h with
  | .none => exact .nil
  | @Otherwise.some _ _ _ t us _ _ hss =>
    have hparts := hss.laid.behind [t]
    simpa using hparts

end

end Phrase

end ScriptReader
