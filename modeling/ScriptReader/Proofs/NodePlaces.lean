import Mathlib.Control.Monad.Basic
import ScriptReader.Proofs.Layouts
import ScriptReader.Proofs.LeastLimit

/-!
# Where the nodes of a tree stand

A statement or an expression stands at the first of its tokens.  Its tokens are read as the same
node without the others, with the same places throughout: what follows a phrase can carry it on
but not change it, and an end mark carries nothing on.

The parts of an `if` and of a `for` stand at the first token of their statement.  An item of a list
stands at its expression.  That is its first token, unless the item is packed: then its dots stand
in front.

Main statements:

* `Session.nodes_stand_alone`: the statements and expressions of a program;
* `Session.helpers_stand`: its items, and the parts of its choices and loops.
-/

namespace ScriptReader

open Phrase Grammar

variable {us : List Token}

/-- The first of the tokens stands at a place. -/
def BeginsAt (p : Place) (us : List Token) : Prop :=
  ∃ t vs, us = t :: vs ∧ t.place = p

theorem Phrase.Expression.beginsAt {e : Expr} (h : Expression us e) : BeginsAt e.place us := by
  obtain ⟨t, vs, rfl, -, hp⟩ := h.opens
  exact ⟨t, vs, rfl, hp⟩

theorem BeginsAt.append {p : Place} (h : BeginsAt p us) (vs : List Token) :
    BeginsAt p (us ++ vs) := by
  obtain ⟨t, ws, rfl, hp⟩ := h
  exact ⟨t, ws ++ vs, rfl, hp⟩

theorem Phrase.Statement.beginsAt {b : Nat} {s : Stmt}
    (h : Statement AllExpressions AllBlocks b us s) : BeginsAt s.place us := by
  cases h with
  | assignment ht _ _ _ => exact (ht.beginsAt.append _).append _
  | expression he _ => exact he.beginsAt.append _
  | load _ _ _ => exact ⟨_, _, rfl, rfl⟩
  | update _ _ _ _ _ => exact ⟨_, _, rfl, rfl⟩
  | step _ _ _ => exact ⟨_, _, rfl, rfl⟩
  | conditional _ _ _ _ _ => exact ⟨_, _, rfl, rfl⟩
  | whileLoop _ _ _ => exact ⟨_, _, rfl, rfl⟩
  | forLoop _ _ _ _ _ => exact ⟨_, _, rfl, rfl⟩
  | function _ _ _ _ _ _ => exact ⟨_, _, rfl, rfl⟩

/-! ## Phrases that are read alone -/

namespace Session

/-- Closed by any end mark, the tokens are read by a rule as `a` up to the end mark, under each
limit above their number. -/
def ReadsAlone {α : Type} (rule : Session → Rule α) (us : List Token) (a : α) : Prop :=
  ∀ (e : Token) (limit : Int), e.isEnd = true → (us.length : Int) < limit →
    ∃ s, ofTokens (us ++ [e]) limit = .ok s ∧ (s.run (rule s)).1 = .ok a ∧
      (s.run (rule s)).2.remaining = [e]

theorem ReadsAlone.of_rule {α : Type} {rule : Session → Rule α} {a : α}
    (h : ∀ (e : Token) (limit : Int), e.isEnd = true → (us.length : Int) < limit →
      rule ⟨us ++ [e], 0, 0, limit⟩ (us ++ [e]) = .ok a [e]) : ReadsAlone rule us a := by
  intro e limit he hlimit
  have hahead : ahead ⟨us ++ [e], 0, 0, limit⟩ = us ++ [e] := ahead_of_end he
  have hrun := run_of_ok hahead (h e limit he hlimit)
  refine ⟨_, ofTokens_ok.mpr ⟨by omega, rfl⟩, congrArg Prod.fst hrun, ?_⟩
  rw [hrun]
  simp [remaining]

theorem kind_of_isEnd {e : Token} (he : e.isEnd = true) : e.kind = .eof := by
  simpa [Token.isEnd] using he

theorem readsAlone_expression {e : Expr} (h : Expression us e) (alternatives : List Kind) :
    ReadsAlone (·.expression alternatives) us e := by
  refine .of_rule fun t limit ht hlimit => ?_
  have hle := h.levels_le_length
  unfold expression
  rw [levels_start]
  exact (reads_expression limit _).complete alternatives [t] h (by omega)
    (stops_of_kind (kind_of_isEnd ht) (by decide))

theorem readsAlone_statement {b : Nat} {s : Stmt} (h : Statement AllExpressions AllBlocks b us s)
    (follow : List Kind) : ReadsAlone (·.statement follow) us s := by
  refine .of_rule fun t limit ht hlimit => ?_
  have hfits := h.mono (allows_fits (b + limit.toNat)) (by omega)
  have hsettled : Settled [t] := by simp [Settled, firstToken, kind_of_isEnd ht]
  unfold statement expression body
  rw [levels_start]
  exact statement_complete (reads_expression_fits limit rfl) (reads_body limit rfl) hfits
    (hsettled.behind s)

end Session

/-! ## Statements and expressions -/

/-- What the tokens of a statement or of an expression are to be: it stands at the first of them,
and they are read as it without any others. -/
def StandsAlone (us : List Token) : Node → Prop
  | .stmt s => BeginsAt s.place us ∧ ∀ follow, Session.ReadsAlone (·.statement follow) us s
  | .expr e =>
    BeginsAt e.place us ∧ ∀ alternatives, Session.ReadsAlone (·.expression alternatives) us e
  | _ => True

theorem PhraseOf.standsAlone {n : Node} (h : PhraseOf us n) : StandsAlone us n := by
  cases n with
  | expr e => exact ⟨h.beginsAt, Session.readsAlone_expression h⟩
  | stmt s =>
    obtain ⟨b, h⟩ := h
    exact ⟨h.beginsAt, Session.readsAlone_statement h⟩
  | blank p => trivial
  | item i => trivial
  | branch x => trivial
  | loop x => trivial
  | program p => trivial

namespace Session

variable {ts : List Token} {limit : Int} {s : Session} {p : Program}

theorem laid_of_run (hs : ofTokens ts limit = .ok s) (hp : (s.run s.program).1 = .ok p) :
    LaidAll PhraseOf ts (Node.program p).nodes := by
  have hlaid := (fits_of_run hs hp).of_having.laid.before (ts.dropWhile fun t => !t.isEnd)
  unfold inFront at hlaid
  rwa [List.takeWhile_append_dropWhile] at hlaid

/-- Let some tokens be read as a program.  Then each statement and each expression of it has a run
of the tokens, those of its parts inside, in order and apart.  It stands at the first token of the
run, and the run alone is read as it, places included, up to any end mark.  Only the amount of a
change by one has no run; it stands at the sign of the change. -/
theorem nodes_stand_alone (hs : ofTokens ts limit = .ok s) (hp : (s.run s.program).1 = .ok p) :
    LaidAll StandsAlone ts (Node.program p).nodes :=
  (laid_of_run hs hp).mono fun _ _ h => h.standsAlone

/-- In `x = 1 + ++y;` each node has its run, and the amount of `++y` stands at the sign. -/
theorem nodes_stand_alone_step :
    let ts : List Token := [⟨.ident "x", ⟨1, 1, 0⟩, "x"⟩, ⟨.symbol .assign "=", ⟨1, 3, 2⟩, "="⟩,
      ⟨.int 1, ⟨1, 5, 4⟩, "1"⟩, ⟨.symbol .plus "+", ⟨1, 7, 6⟩, "+"⟩,
      ⟨.symbol .increment "++", ⟨1, 9, 8⟩, "++"⟩, ⟨.ident "y", ⟨1, 11, 10⟩, "y"⟩,
      ⟨.symbol .semicolon ";", ⟨1, 12, 11⟩, ";"⟩]
    let p : Program := ⟨⟨1, 1⟩, [.assignment ⟨1, 1⟩ (.ident ⟨1, 1⟩ "x")
      (.operation ⟨1, 5⟩ (.int ⟨1, 5⟩ 1) .plus (.step ⟨1, 9⟩ "y" .plus (.int ⟨1, 9⟩ 1)))]⟩
    ∃ s, ofTokens ts 9 = .ok s ∧ (s.run s.program).1 = .ok p ∧
      LaidAll StandsAlone ts (Node.program p).nodes := by
  intro ts p
  have hs : ofTokens ts 9 = .ok ⟨ts, 0, 0, 9⟩ := rfl
  have hp : (run ⟨ts, 0, 0, 9⟩ (program ⟨ts, 0, 0, 9⟩)).1 = .ok p := rfl
  exact ⟨_, hs, hp, nodes_stand_alone hs hp⟩

end Session

/-! ## Items and the parts of choices and loops -/

/-- The first of the tokens is the reserved word `k` and stands at a place. -/
def BeginsWith (k : Keyword) (p : Place) (us : List Token) : Prop :=
  ∃ t vs, us = t :: vs ∧ t.kind = .keyword k ∧ t.place = p

/-- The node is an item, the parts of an `if` or those of a `for`, and stands at the first of its
tokens; or it is another node. -/
def StandsFirst (us : List Token) : Node → Prop
  | .item i => BeginsAt i.place us
  | .branch x => BeginsWith .ifWord x.place us
  | .loop x => BeginsWith .forWord x.place us
  | _ => True

/-- Where these nodes do stand: an item that is packed stands behind its first token, the dots. -/
def HelperStands (us : List Token) : Node → Prop
  | .item (.mk p _ _ false) => BeginsAt p us
  | .item (.mk p _ _ true) => ∃ d vs, us = d :: vs ∧ d.kind = .symbol .dots ∧ BeginsAt p vs
  | n => StandsFirst us n

/-- The tokens of an item begin with dots that stand at another place than what follows them. -/
def DotsApart (us : List Token) : Node → Prop
  | .item _ => ∃ d t vs, us = d :: t :: vs ∧ d.kind = .symbol .dots ∧ d.place ≠ t.place
  | _ => False

theorem Phrase.ListItem.helperStands {i : Item} (h : ListItem us i) :
    HelperStands us (.item i) := by
  cases h with
  | mk hp he hs =>
    cases hp with
    | absent => exact he.beginsAt.append _
    | @present d hd => exact ⟨d, _, rfl, hd, he.beginsAt.append _⟩

theorem PhraseOf.helperStands {n : Node} (h : PhraseOf us n) : HelperStands us n := by
  cases n with
  | item i => exact Phrase.ListItem.helperStands h
  | branch x =>
    obtain ⟨p, e, ss, cs, last⟩ := x
    obtain ⟨b, h⟩ := h
    cases h with
    | conditional ht _ _ _ _ => exact ⟨_, _, rfl, ht, rfl⟩
  | loop x =>
    obtain ⟨p, name, e, ss⟩ := x
    obtain ⟨b, h⟩ := h
    cases h with
    | forLoop ht _ _ _ _ => exact ⟨_, _, rfl, ht, rfl⟩
  | blank p => trivial
  | expr e => trivial
  | stmt s => trivial
  | program p => trivial

theorem Phrase.ListItem.standsFirst_iff {i : Item} (h : ListItem us i) :
    StandsFirst us (.item i) ↔ ¬ DotsApart us (.item i) := by
  cases h with
  | mk hp he hs =>
    obtain ⟨t, vs, rfl, hk, hplace⟩ := he.opens
    cases hp with
    | absent =>
      refine iff_of_true ⟨t, _, rfl, hplace⟩ ?_
      rintro ⟨d, u, ws, hus, hd, -⟩
      obtain ⟨rfl, -⟩ := List.cons.inj hus
      rw [hd] at hk
      exact absurd hk (by decide)
    | @present d hd =>
      constructor
      · rintro ⟨d', ws, hus, hd'⟩ ⟨d'', u, xs, hus', -, hne⟩
        obtain ⟨rfl, -⟩ := List.cons.inj hus
        obtain ⟨rfl, hxs⟩ := List.cons.inj hus'
        obtain ⟨rfl, -⟩ := List.cons.inj hxs
        exact hne (hd'.trans hplace.symm)
      · intro hnot
        by_cases heq : d.place = t.place
        · exact ⟨d, _, rfl, heq.trans hplace⟩
        · exact absurd ⟨d, t, _, rfl, hd, heq⟩ hnot

theorem PhraseOf.standsFirst_iff {n : Node} (h : PhraseOf us n) :
    StandsFirst us n ↔ ¬ DotsApart us n := by
  cases n with
  | item i => exact Phrase.ListItem.standsFirst_iff h
  | branch x => exact iff_of_true h.helperStands id
  | loop x => exact iff_of_true h.helperStands id
  | blank p => exact iff_of_true trivial id
  | expr e => exact iff_of_true trivial id
  | stmt s => exact iff_of_true trivial id
  | program p => exact iff_of_true trivial id

namespace Session

variable {ts : List Token} {limit : Int} {s : Session} {p : Program}

/-- Let some tokens be read as a program.  The parts of an `if` and of a `for` stand at that word,
which is the first token of their statement.  An item stands at its expression.  So all of them
stand at the first of their own tokens, except the items that are packed by dots at another
place. -/
theorem helpers_stand (hs : ofTokens ts limit = .ok s) (hp : (s.run s.program).1 = .ok p) :
    LaidAll (fun us n => PhraseOf us n ∧ HelperStands us n ∧ (StandsFirst us n ↔ ¬ DotsApart us n))
      ts (Node.program p).nodes :=
  (laid_of_run hs hp).mono fun _ _ h => ⟨h, h.helperStands, h.standsFirst_iff⟩

/-- In `[x, ..y];` the first item stands at its first token and the second one behind it. -/
theorem helpers_stand_list :
    let ts : List Token := [⟨.symbol .openBracket "[", ⟨1, 1, 0⟩, "["⟩,
      ⟨.ident "x", ⟨1, 2, 1⟩, "x"⟩, ⟨.symbol .comma ",", ⟨1, 3, 2⟩, ","⟩,
      ⟨.symbol .dots "..", ⟨1, 5, 4⟩, ".."⟩, ⟨.ident "y", ⟨1, 7, 6⟩, "y"⟩,
      ⟨.symbol .closeBracket "]", ⟨1, 8, 7⟩, "]"⟩, ⟨.symbol .semicolon ";", ⟨1, 9, 8⟩, ";"⟩]
    let p : Program := ⟨⟨1, 1⟩, [.expression ⟨1, 1⟩ (.list ⟨1, 1⟩
      [.mk ⟨1, 2⟩ (.ident ⟨1, 2⟩ "x") false false, .mk ⟨1, 7⟩ (.ident ⟨1, 7⟩ "y") false true])]⟩
    ∃ s, ofTokens ts 9 = .ok s ∧ (s.run s.program).1 = .ok p ∧
      LaidAll (fun us n => PhraseOf us n ∧ HelperStands us n ∧
        (StandsFirst us n ↔ ¬ DotsApart us n)) ts (Node.program p).nodes := by
  intro ts p
  have hs : ofTokens ts 9 = .ok ⟨ts, 0, 0, 9⟩ := rfl
  have hp : (run ⟨ts, 0, 0, 9⟩ (program ⟨ts, 0, 0, 9⟩)).1 = .ok p := rfl
  exact ⟨_, hs, hp, helpers_stand hs hp⟩

/-- In `[..x];` the item does not stand at its first token, however the tree is laid over the
tokens. -/
theorem packed_item_elsewhere :
    ∃ ts s p, tokenize "[..x];" = .ok ts ∧ ofTokens ts 128 = .ok s ∧
      (s.run s.program).1 = .ok p ∧
      ¬ LaidAll (fun us n => PhraseOf us n ∧ StandsFirst us n) ts (Node.program p).nodes := by
  let ts : List Token := [⟨.symbol .openBracket "[", ⟨1, 1, 0⟩, "["⟩,
    ⟨.symbol .dots "..", ⟨1, 2, 1⟩, ".."⟩, ⟨.ident "x", ⟨1, 4, 3⟩, "x"⟩,
    ⟨.symbol .closeBracket "]", ⟨1, 5, 4⟩, "]"⟩, ⟨.symbol .semicolon ";", ⟨1, 6, 5⟩, ";"⟩,
    .endAt ⟨1, 7, 6⟩]
  let i : Item := .mk ⟨1, 4⟩ (.ident ⟨1, 4⟩ "x") false true
  have hread : tokenize "[..x];" = .ok ts := by decide +kernel
  let p : Program := ⟨⟨1, 1⟩, [.expression ⟨1, 1⟩ (.list ⟨1, 1⟩ [i])]⟩
  refine ⟨ts, ⟨ts, 0, 0, 128⟩, p, hread, rfl, rfl, ?_⟩
  intro hlaid
  obtain ⟨us, hus, hstmt⟩ := hlaid.exists_run List.mem_cons_self
  obtain ⟨vs, hvs, hlist⟩ := (hstmt.parts nofun).exists_run List.mem_cons_self
  obtain ⟨ws, hws, hitem⟩ := (hlist.parts nofun).exists_run List.mem_cons_self
  obtain ⟨hphrase, d, xs, rfl, hd⟩ := hitem.here
  obtain ⟨d', xs', hcons, hdots, -⟩ := hphrase.helperStands
  obtain ⟨rfl, -⟩ := List.cons.inj hcons
  have hmem : d ∈ ts := ((hws.trans hvs).trans hus).subset List.mem_cons_self
  have hplaces : ∀ t ∈ ts, t.kind = .symbol .dots → t.place ≠ i.place := by decide
  exact hplaces d hmem hdots hd

end Session

end ScriptReader
