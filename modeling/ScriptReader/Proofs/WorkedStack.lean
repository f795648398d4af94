import ScriptReader.Proofs.StackRoom
import ScriptReader.Proofs.WorkedConstructs

/-!
# The grammar as work on a stack

The work for the constructs of the grammar, where it needs room on a stack.  A session at work
opens levels of nesting, and its expressions and bodies are open on the stack as well; these are
two counts, and the session keeps only one of them.  Where there is no room, the stack is exhausted
whatever the count of levels says.

The work performs the rules on the same stack.

Main statements: `expressionOn_performs`, `statementOn_performs` and `programOn_performs`.
-/

namespace ScriptReader

namespace Session.Work

variable (stack : Stack)

/-- Work that is begun inside some frames, its own among them. -/
def enterOn {α : Type} (frames : List Frame) (w : Work α) : Work α := fun c =>
  if stack.holds frames c.now.ahead then w c else fail .stackExhausted c

mutual

/-- An expression inside the frames `outer`. -/
def expressionOn :
    (steps : Nat) → (outer : List Frame) → (alternatives : List Kind) → Work Expr
  | 0, outer, _ => enterOn stack (.expression :: outer) (nested (fail noSteps))
  | steps + 1, outer, alternatives => enterOn stack (.expression :: outer) <| nested do
    let first ← atom (expressionOn steps (.expression :: outer)) alternatives
    closing (chainOn steps (.expression :: outer) first)

/-- The rest of a chain, which is read in the frame of its expression. -/
def chainOn : (steps : Nat) → (frames : List Frame) → (lhs : Expr) → CountedWork Expr
  | 0, _, lhs => chain 0 lhs
  | steps + 1, frames, lhs => link (expressionOn steps frames) (chainOn steps frames) lhs

end

/-- A body inside the frames `outer`. -/
def bodyOn : (steps : Nat) → (outer : List Frame) → (returns : Bool) → Work Body
  | 0, outer, returns => enterOn stack (.body :: outer) (body 0 returns)
  | steps + 1, outer, returns => enterOn stack (.body :: outer) do
    let _ ← token [.symbol .openBrace] []
    let b ← nested (contents (expressionOn stack steps (.body :: outer))
      (bodyOn steps (.body :: outer)) returns)
    let _ ← token [.symbol .closeBrace] []
    return b

/-- A statement that is inside of nothing. -/
def statementOn (steps : Nat) (follow : List Kind) : Work Stmt :=
  enterOn stack [] (statement (expressionOn stack steps []) (bodyOn stack steps []) follow)

/-- A whole program, up to the end mark. -/
def programOn (steps : Nat) : Work Program := enterOn stack [] do
  let statements ←
    collect (nextStatement (expressionOn stack steps []) (bodyOn stack steps []) [.eof])
  return ⟨⟨1, 1⟩, statements⟩

end Session.Work

namespace Stack

open Rule Grammar Session

variable {stack : Stack} {limit : Int} {depth : Nat}

theorem enterOn_performs {α : Type} {w : Work α} {r : Rule α} (frames : List Frame)
    (h : Performs limit depth w r) :
    Performs limit depth (Work.enterOn stack frames w) (stack.enter frames r) := by
  refine .of_agrees fun c hc => ?_
  unfold Work.enterOn enter
  split
  · exact h.agrees hc
  · have hfail : PerformsAt limit depth (firstToken c.now.ahead)
        (Work.fail .stackExhausted : Work α) exhausted :=
      fail_performs (e := fun _ => .stackExhausted) fun _ _ _ => nofun
    exact hfail c hc rfl

/-- Expressions and chains, by induction on the levels that are left. -/
theorem expressionOn_and_chainOn_perform (levels : Nat) :
    (∀ depth outer alternatives, ((depth + levels : Nat) : Int) = limit →
      Performs limit depth (Work.expressionOn stack levels outer alternatives)
        (stack.expression limit levels outer alternatives)) ∧
    ∀ base n frames lhs, ((base + n + levels : Nat) : Int) = limit →
      ClosedPerforms limit base n (Work.chainOn stack levels frames lhs)
        (stack.chain limit levels frames lhs) := by
  induction levels with
  | zero =>
    constructor
    · intro depth outer alternatives h
      rw [Work.expressionOn, Stack.expression]
      exact enterOn_performs _ (nested_performs_tooDeep _ h)
    · intro base n frames lhs h
      rw [Work.chainOn, Stack.chain]
      exact chain_full_performs 0 lhs h
  | succ levels ih =>
    obtain ⟨hexpr, hchain⟩ := ih
    constructor
    · intro depth outer alternatives h
      have hinner : ((depth + 1 + levels : Nat) : Int) = limit := by omega
      rw [Work.expressionOn, Stack.expression]
      refine enterOn_performs _ (.nested ?_ (by omega))
      refine (atom_performs (fun ks => hexpr (depth + 1) _ ks hinner) alternatives).bind fun e => ?_
      exact .closing (hchain (depth + 1) 0 _ e hinner)
    · intro base n frames lhs h
      rw [Work.chainOn, Stack.chain]
      refine link_performs (by omega) (fun ks => hexpr _ frames ks (by omega)) ?_ lhs
      exact fun lhs => hchain base (n + 1) frames lhs (by omega)

theorem expressionOn_performs {levels : Nat} (h : ((depth + levels : Nat) : Int) = limit)
    (outer : List Frame) (alternatives : List Kind) :
    Performs limit depth (Work.expressionOn stack levels outer alternatives)
      (stack.expression limit levels outer alternatives) :=
  (expressionOn_and_chainOn_perform levels).1 depth outer alternatives h

/-- Bodies, by induction on the levels that are left. -/
theorem bodyOn_performs {levels : Nat} (h : ((depth + levels : Nat) : Int) = limit)
    (outer : List Frame) (returns : Bool) :
    Performs limit depth (Work.bodyOn stack levels outer returns)
      (stack.body limit levels outer returns) := by
  induction levels generalizing depth outer returns with
  | zero =>
    rw [Work.bodyOn, Stack.body]
    exact enterOn_performs _ (body_full_performs 0 returns h)
  | succ levels ih =>
    have hinner : ((depth + 1 + levels : Nat) : Int) = limit := by omega
    rw [Work.bodyOn, Stack.body]
    refine enterOn_performs _ ((token_performs (by decide)).bind fun _ => ?_)
    exact nested_contents_perform (by omega) (expressionOn_performs hinner _) (ih hinner _) returns

theorem statementOn_performs {levels : Nat} (h : ((depth + levels : Nat) : Int) = limit)
    (follow : List Kind) :
    Performs limit depth (Work.statementOn stack levels follow)
      (stack.statement limit levels follow) :=
  enterOn_performs [] (statement_performs (expressionOn_performs h []) (bodyOn_performs h []) _)

theorem programOn_performs {levels : Nat} (h : ((depth + levels : Nat) : Int) = limit) :
    Performs limit depth (Work.programOn stack levels) (stack.program limit levels) :=
  enterOn_performs []
    ((statements_perform (expressionOn_performs h []) (bodyOn_performs h []) _).map _)

end Stack

end ScriptReader
