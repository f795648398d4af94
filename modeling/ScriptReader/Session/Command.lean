import ScriptReader.Session

/-!
# Commands to a session

A `Construct` is anything that the grammar has a rule for, and a `Session.Command` asks
a session to look at its tokens, to move over one, or to read a construct.  Commands
may also be given inside a level of nesting that is opened for them.  A command that
fails leaves the session where the failure left it, and the next one goes on from there.

Main definition: `Session.perform`.
-/

namespace ScriptReader

/-- The constructs of the grammar, with the kinds that would have been accepted in the
place of some of them. -/
inductive Construct where
  | program
  | statement (follow : List Kind)
  | load
  | assignmentOrExpression
  | update
  | block
  | condition
  | conditional
  | whileLoop
  | forLoop
  | function
  | expression (alternatives : List Kind)
  | atom (alternatives : List Kind)
  | call
  | index
  | step
  | list
deriving DecidableEq, Repr

namespace Session

/-- What a construct is read as. -/
inductive Parsed where
  /-- A node of a tree. -/
  | node (n : Node)
  /-- The statements of a block. -/
  | block (ss : List Stmt)

/-- What a session can be asked. -/
inductive Command where
  /-- The next token. -/
  | current
  /-- The token some places ahead. -/
  | peek (n : Int)
  /-- The token behind the next one, after moving over that. -/
  | advance
  /-- The tokens that are not read yet. -/
  | remaining
  /-- A token of one of some kinds; others only add to the complaint. -/
  | accept (kinds others : List Kind)
  /-- The complaint that the next token is not of some kinds. -/
  | refuse (expected : List Kind)
  /-- A construct. -/
  | read (what : Construct)
  /-- Commands inside one more level of nesting. -/
  | nested (commands : List Command)

mutual

/-- What a session answers. -/
inductive Answer where
  | token (t : Token)
  | tokens (ts : List Token)
  | parsed (p : Parsed)
  | reports (rs : List Report)

/-- The outcome of a command, with the index and the depth it left. -/
inductive Report where
  | mk (outcome : Except Error Answer) (position depth : Nat)

end

/-- The rule for a construct, with the levels of nesting that are left. -/
def rule (s : Session) : Construct → Rule Parsed
  | .program => return .node (.program (← s.program))
  | .statement follow => return .node (.stmt (← s.statement follow))
  | .load => return .node (.stmt (← Grammar.load))
  | .assignmentOrExpression =>
    return .node (.stmt (← Grammar.assignmentOrExpression s.expression))
  | .update => return .node (.stmt (← Grammar.update s.expression))
  | .block => return .block (← Grammar.block s.body)
  | .condition => return .node (.expr (← Grammar.condition s.expression))
  | .conditional => return .node (.stmt (← Grammar.conditional s.expression s.body))
  | .whileLoop => return .node (.stmt (← Grammar.whileLoop s.expression s.body))
  | .forLoop => return .node (.stmt (← Grammar.forLoop s.expression s.body))
  | .function => return .node (.stmt (← Grammar.function s.body))
  | .expression alternatives => return .node (.expr (← s.expression alternatives))
  | .atom alternatives => return .node (.expr (← Grammar.atom s.expression alternatives))
  | .call => return .node (.expr (← Grammar.call s.expression))
  | .index => return .node (.expr (← Grammar.index s.expression))
  | .step => return .node (.expr (← Grammar.stepExpr))
  | .list => return .node (.expr (← Grammar.list s.expression))

/-- Runs a rule and answers with what it reads. -/
def runAs {α : Type} (s : Session) (wrap : α → Answer) (rule : Rule α) :
    Except Error Answer × Session :=
  ((s.run rule).1.map wrap, (s.run rule).2)

mutual

/-- Performs a command. -/
def perform (s : Session) : Command → Except Error Answer × Session
  | .current => (.ok (.token s.current), s)
  | .peek n => ((s.peek n).map .token, s)
  | .advance => (.ok (.token s.advance.current), s.advance)
  | .remaining => (.ok (.tokens s.remaining), s)
  | .accept kinds others => s.runAs .token (Rule.token kinds others)
  | .refuse expected => s.runAs .token (Rule.refuse expected)
  | .read what => s.runAs .parsed (s.rule what)
  | .nested commands =>
    match s.enter with
    | .error e => (.error e, s)
    | .ok inner =>
      (.ok (.reports (performAll inner commands).1), (performAll inner commands).2.leave)

/-- Performs commands in turn. -/
def performAll (s : Session) : List Command → List Report × Session
  | [] => ([], s)
  | a :: as =>
    let (outcome, s') := perform s a
    let (reports, last) := performAll s' as
    (.mk outcome s'.position s'.depth :: reports, last)

end

end Session

end ScriptReader
