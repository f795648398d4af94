import ScriptReader.Tree

/-!
# Rules of the grammar

A rule reads a construct from the front of a list of tokens.  It answers with the
construct and the tokens behind it, or with an error and the tokens from the one that
it stopped at.  Behind the last token a list reads as if an end mark stood there.

Main definitions:

* `Rule.accept`: the one rule that moves on, over a token that fits;
* `Rule.refuse`: the complaint about the token ahead;
* `Rule.collect`: a rule repeated until it has no more to give.

Main statement: `Rule.accept_cons`, what `accept` does to a token.
-/

namespace ScriptReader

/-- A rule that reads an `α`. -/
abbrev Rule (α : Type) : Type :=
  EStateM Error (List Token) α

/-- The first token of a list, or an end mark. -/
def firstToken : List Token → Token
  | [] => .endAt .start
  | t :: _ => t

namespace Rule

/-- The token ahead. -/
def here : Rule Token := fun ts => .ok (firstToken ts) ts

/-- The token behind the one ahead. -/
def next : Rule Token := fun ts => .ok (firstToken ts.tail) ts

/-- Complains that the token ahead is of none of the expected kinds. -/
def refuse {α : Type} (expected : List Kind) : Rule α := fun ts =>
  .error ((firstToken ts).refuse expected) ts

/-- Complains that the token ahead nests deeper than the limit. -/
def tooDeep {α : Type} (limit : Int) : Rule α := fun ts =>
  .error (.located (firstToken ts).position (.tooDeep limit)) ts

/-- Reads the token ahead if `view` makes something of it, and complains otherwise. -/
def accept {α : Type} (view : Token → Option α) (expected : List Kind) : Rule α := fun ts =>
  match view (firstToken ts) with
  | some a => .ok a ts.tail
  | none => .error ((firstToken ts).refuse expected) ts

/-- Moves over the token ahead. -/
def skip : Rule Unit := fun ts => .ok () ts.tail

/-- Whether the token ahead is of the kind `k`. -/
def isHere (k : Kind) : Rule Bool := do
  return (← here).kind == k

/-- Moves over the token ahead if it is of the kind `k`, and tells whether it was. -/
def skipIf (k : Kind) : Rule Bool := do
  if ← isHere k then
    skip
    return true
  else return false

/-- Reads a token of one of the kinds `ks`.  The kinds `others` would have been accepted
in its place too, and only add to the complaint. -/
def token (ks others : List Kind) : Rule Token :=
  accept (fun t => if t.kind ∈ ks then some t else none) (ks ++ others)

/-- Reads a name, with its token. -/
def ident : Rule (Token × String) :=
  accept (fun t => match t.content with
    | .ident s => some (t, s)
    | _ => none) [.ident]

/-- Reads steps from the state `s` on, `count` of them at most, until one gives
nothing. -/
def unfoldWithin {σ α : Type} (step : σ → Rule (Option (α × σ))) :
    (count : Nat) → σ → Rule (List α)
  | 0, _ => return []
  | count + 1, s => do
    match ← step s with
    | none => return []
    | some (a, s') => return a :: (← unfoldWithin step count s')

/-- Reads steps from the state `s` on until one gives nothing.  A step that gives
something takes a token, so there are no more steps than tokens. -/
def unfold {σ α : Type} (step : σ → Rule (Option (α × σ))) (s : σ) :
    Rule (List α) := fun ts =>
  unfoldWithin step (ts.length + 1) s ts

/-- Repeats a rule until it gives nothing. -/
def collect {α : Type} (step : Rule (Option α)) : Rule (List α) :=
  unfold (fun _ : Unit => do return (← step).map (·, ())) ()

/-! ## What the rules do -/

theorem accept_cons {α : Type} {view : Token → Option α} {expected : List Kind} {t : Token}
    {ts : List Token} {a : α} (h : view t = some a) :
    accept view expected (t :: ts) = .ok a ts := by
  simp [accept, firstToken, h]

theorem accept_eq_error {α : Type} {view : Token → Option α} {expected : List Kind}
    {ts : List Token} (h : view (firstToken ts) = none) :
    accept view expected ts = .error ((firstToken ts).refuse expected) ts := by
  simp [accept, h]

end Rule

end ScriptReader
