import ScriptReader.Session

/-!
# The course of a session

A rule of the grammar is told how many levels of nesting are left, and hands fewer of them to the
rules inside.  A session at work keeps one count of the levels that are open: it raises the count
where a level opens, lowers it where the level closes, and must not forget to lower it when an
error passes by.  This file is about sessions that work in that way.

`Course` is a session together with all the moments that it has been through, so that one can say
what holds at every moment, and `Work` is what changes it.  Work looks at tokens by their index in
the whole list, and may raise an error wherever a look or a table has no answer.

Main definitions:

* `Work.nested`: work inside one more level, which is closed however the work ends;
* `CountedWork`, `Work.closing`: levels that are opened one by one, counted, and closed together.
-/

namespace ScriptReader.Session

/-- A moment of a session, and the error that is raised there if one is. -/
structure Moment where
  /-- The session as it is. -/
  session : Session
  /-- The error that is raised. -/
  raised : Option Error

/-- A session, and the moments that it has been through, the latest first. -/
structure Course where
  /-- The session as it is now. -/
  now : Session
  /-- The moments before. -/
  past : List Moment

namespace Course

/-- All moments. -/
def moments (c : Course) : List Moment :=
  ⟨c.now, none⟩ :: c.past

/-- The session goes on to another state. -/
def move (c : Course) (s : Session) : Course :=
  ⟨s, c.moments⟩

/-- An error is raised. -/
def raise (c : Course) (e : Error) : Course :=
  ⟨c.now, ⟨c.now, some e⟩ :: c.past⟩

end Course

/-- The session with `n` levels less. -/
def leaveAll (s : Session) (n : Nat) : Session :=
  { s with depth := s.depth - n }

/-- What a session does in order to answer an `α`. -/
abbrev Work (α : Type) : Type :=
  EStateM Error Course α

/-- The error of closing a level where none is open. -/
def noLevel : Error :=
  .located .start (.custom "no level is open")

/-- Whatever a run of some work came to, `n` levels are closed then.  It is an error if fewer of
them are open. -/
def closeLevels {α : Type} (n : Nat) :
    EStateM.Result Error Course α → EStateM.Result Error Course α
  | .ok a c =>
    if n ≤ c.now.depth then .ok a (c.move (c.now.leaveAll n)) else .error noLevel (c.raise noLevel)
  | .error e c =>
    if n ≤ c.now.depth then .error e (c.move (c.now.leaveAll n))
    else .error noLevel (c.raise noLevel)

namespace Work

variable {α σ : Type}

/-! ## Tokens -/

/-- Raises an error. -/
def fail (e : Error) : Work α := fun c =>
  .error e (c.raise e)

/-- An answer that may be an error, which is raised then. -/
def answer (o : Except Error α) : Work α :=
  match o with
  | .ok a => return a
  | .error e => fail e

/-- The next token. -/
def here : Work Token := fun c => .ok c.now.current c

/-- The token some places ahead. -/
def peek (n : Int) : Work Token := fun c => answer (c.now.peek n) c

/-- Moves over the next token. -/
def skip : Work Unit := fun c => .ok () (c.move c.now.advance)

/-- Complains that the next token is of none of the expected kinds. -/
def refuse (expected : List Kind) : Work α := do
  fail ((← here).refuse expected)

/-- Moves over the next token if `view` makes something of it, and complains otherwise. -/
def accept (view : Token → Option α) (expected : List Kind) : Work α := do
  match view (← here) with
  | some a =>
    skip
    return a
  | none => refuse expected

/-- Whether the next token is of the kind `k`. -/
def isHere (k : Kind) : Work Bool := do
  return (← here).kind == k

/-- Moves over the next token if it is of the kind `k`, and tells whether it was. -/
def skipIf (k : Kind) : Work Bool := do
  if ← isHere k then
    skip
    return true
  else return false

/-- A token of one of the kinds `ks`; the kinds `others` only add to the complaint. -/
def token (ks others : List Kind) : Work Token :=
  accept (fun t => if t.kind ∈ ks then some t else none) (ks ++ others)

/-- A name, with its token. -/
def ident : Work (Token × String) :=
  accept (fun t => match t.content with
    | .ident s => some (t, s)
    | _ => none) [.ident]

/-- The entry of a table for the token `t`.  It is an error if there is none. -/
def entry (t : Token) (found : Option α) : Work α :=
  match found with
  | some a => return a
  | none => fail (.located t.position (.custom t.kind.name))

/-! ## Repetition -/

/-- Takes steps from the state `s` on, `count` of them at most, until one gives nothing. -/
def unfoldWithin (step : σ → Work (Option (α × σ))) : (count : Nat) → σ → Work (List α)
  | 0, _ => return []
  | count + 1, s => do
    match ← step s with
    | none => return []
    | some (a, s') => return a :: (← unfoldWithin step count s')

/-- Takes steps from the state `s` on until one gives nothing. -/
def unfold (step : σ → Work (Option (α × σ))) (s : σ) : Work (List α) := fun c =>
  unfoldWithin step (c.now.ahead.length + 1) s c

/-- Repeats some work until it gives nothing. -/
def collect (step : Work (Option α)) : Work (List α) :=
  unfold (fun _ : Unit => do return (← step).map (·, ())) ()

/-! ## Levels of nesting -/

/-- Work inside one more level of nesting.  The level is closed whether the work ends with an
answer or with an error. -/
def nested (w : Work α) : Work α := fun c =>
  match c.now.enter with
  | .error e => fail e c
  | .ok s => closeLevels 1 (w (c.move s))

end Work

/-- Work that keeps count of the levels which it has opened. -/
abbrev CountedWork (α : Type) : Type :=
  EStateM Error (Course × Nat) α

namespace Work

variable {α : Type}

/-- Work that opens no level to be counted. -/
def uncounted (w : Work α) : CountedWork α := fun (c, n) =>
  match w c with
  | .ok a c' => .ok a (c', n)
  | .error e c' => .error e (c', n)

/-- Opens a level and counts it. -/
def openLevel : CountedWork Unit := fun (c, n) =>
  match c.now.enter with
  | .error e => .error e (c.raise e, n)
  | .ok s => .ok () (c.move s, n + 1)

/-- The levels that were counted are closed, whatever the run came to. -/
def closed : EStateM.Result Error (Course × Nat) α → EStateM.Result Error Course α
  | .ok a (c, n) => closeLevels n (.ok a c)
  | .error e (c, n) => closeLevels n (.error e c)

/-- Work whose levels are counted from none on, and closed when it ends with an answer or with an
error. -/
def closing (w : CountedWork α) : Work α := fun c =>
  closed (w (c, 0))

end Work

end ScriptReader.Session
