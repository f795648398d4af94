/-!
# Binary operators

The eight operators that a syntax tree can hold, with the name and the sign of
each.

Main statement: `Operator.ofName?_name`, that the name tells the operator.
-/

namespace ScriptReader

/-- An operator between two operands. -/
inductive Operator where
  | plus
  | minus
  | times
  | divide
  | lessThan
  | greaterThan
  | equal
  | notEqual
deriving DecidableEq, Repr, Inhabited

namespace Operator

/-- All operators, in the order of their definition. -/
def all : List Operator :=
  [plus, minus, times, divide, lessThan, greaterThan, equal, notEqual]

/-- The name of an operator. -/
def name : Operator → String
  | plus => "PLUS"
  | minus => "MINUS"
  | times => "TIMES"
  | divide => "DIVIDE"
  | lessThan => "LESS_THAN"
  | greaterThan => "GREATER_THAN"
  | equal => "EQUAL"
  | notEqual => "NOT_EQUAL"

/-- The sign of an operator. -/
def sign : Operator → String
  | plus => "+"
  | minus => "-"
  | times => "*"
  | divide => "/"
  | lessThan => "<"
  | greaterThan => ">"
  | equal => "=="
  | notEqual => "!="

/-- An operator as the text of a tree shows it. -/
def describe (o : Operator) : String :=
  "Operator." ++ o.name

/-- The operator of a name. -/
def ofName? (s : String) : Option Operator :=
  all.find? (·.name == s)

theorem mem_all (o : Operator) : o ∈ all := by
  cases o <;> decide

end Operator

end ScriptReader
