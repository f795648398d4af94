import ScriptReader.Grammar.Statement

/-!
# The grammar on a stack

An expression that is read inside another one finds that one open on the stack of the
interpreter, and a body inside another one finds that one.  The limit on nesting says
how many of them may be open, but a stack may have room for less.  Then reading ends
with an error which is no complaint about the script.

How much room there is, and what is left of it for the calls that look at tokens and
move over them, is up to the interpreter: a `Stack` is any choice of what may be read
inside what.  The operators of a chain are read in a loop and open nothing.

Main definitions: `Stack.expression`, `Stack.body` and `Stack.program`, the rules of
the grammar where they need room on a stack.
-/

namespace ScriptReader

/-- What stays open while something inside it is read. -/
inductive Frame where
  | expression
  | body
deriving DecidableEq, Repr

/-- The stack of an interpreter. -/
structure Stack where
  /-- Whether there is room inside some frames, of which the first is the innermost, to
  read what is ahead. -/
  holds : (frames : List Frame) → (ahead : List Token) → Bool

/-- Gives up for lack of room. -/
def Rule.exhausted {α : Type} : Rule α := fun ts =>
  .error .stackExhausted ts

namespace Stack

open Rule Grammar

variable (stack : Stack)

/-- There is room inside any `n` frames. -/
def HasRoom (n : Nat) : Prop :=
  ∀ frames ahead, frames.length ≤ n → stack.holds frames ahead = true

/-- There is no room inside more than `n` frames. -/
def Within (n : Nat) : Prop :=
  ∀ frames ahead, stack.holds frames ahead = true → frames.length ≤ n

/-- A stack of `n` frames. -/
def ofSize (n : Nat) : Stack :=
  ⟨fun frames _ => frames.length ≤ n⟩

theorem within_ofSize (n : Nat) : (ofSize n).Within n :=
  fun _ _ h => of_decide_eq_true h

/-- A rule that is begun inside some frames, its own among them. -/
def enter {α : Type} (frames : List Frame) (r : Rule α) : Rule α := fun ts =>
  if stack.holds frames ts then r ts else exhausted ts

variable (limit : Int)

mutual

/-- An expression inside the frames `outer`. -/
def expression :
    (levels : Nat) → (outer : List Frame) → (alternatives : List Kind) → Rule Expr
  | 0, outer, _ => stack.enter (.expression :: outer) (tooDeep limit)
  | levels + 1, outer, alternatives => stack.enter (.expression :: outer) do
    let first ← atom (expression levels (.expression :: outer)) alternatives
    chain levels (.expression :: outer) first

/-- The rest of a chain, which is read in the frame of its expression. -/
def chain : (levels : Nat) → (frames : List Frame) → (lhs : Expr) → Rule Expr
  | 0, _, lhs => Grammar.chain limit 0 lhs
  | levels + 1, frames, lhs => link (expression levels frames) (chain levels frames) lhs

end

/-- A body inside the frames `outer`. -/
def body : (levels : Nat) → (outer : List Frame) → (returns : Bool) → Rule Body
  | 0, outer, returns => stack.enter (.body :: outer) (Grammar.body limit 0 returns)
  | levels + 1, outer, returns => stack.enter (.body :: outer) do
    let _ ← token [.symbol .openBrace] []
    let statements ←
      collect (nextStatement (stack.expression limit levels (.body :: outer))
        (body levels (.body :: outer)) (bodyEnd returns))
    let result ← returned (stack.expression limit levels (.body :: outer)) returns
    let _ ← token [.symbol .closeBrace] []
    return ⟨statements, result⟩

/-- A statement that is inside of nothing. -/
def statement (levels : Nat) (follow : List Kind) : Rule Stmt :=
  stack.enter []
    (Grammar.statement (stack.expression limit levels []) (stack.body limit levels []) follow)

/-- A whole program, up to the end mark. -/
def program (levels : Nat) : Rule Program := stack.enter [] do
  let statements ← collect
    (nextStatement (stack.expression limit levels []) (stack.body limit levels []) [.eof])
  return ⟨⟨1, 1⟩, statements⟩

end Stack

end ScriptReader
