import ScriptReader.Token

/-!
# What can be wrong

A `Fault` says what is wrong at a place of a script.  An `Error` is a fault at a
position, or one of those that concern no place: a nesting limit below one, an
`elif` chain whose conditions and blocks differ in number, a look back beyond the
first token, an integer with too many digits to be written, and a stack that has no
room left.

Main definitions:

* `Error.message`: the wording of an error;
* `Error.expected?`: the kinds of tokens that an error asks for.
-/

namespace ScriptReader

/-- What is wrong at a place. -/
inductive Fault where
  /-- No rule of the lexicon begins with the text. -/
  | unrecognized (found : String)
  /-- A literal cannot be read as a value of its type. -/
  | malformed (literal type : String)
  /-- An integer has more digits than are converted. -/
  | tooManyDigits (count : Nat)
  /-- A number was asked for where no digit stands. -/
  | noDigits (literal : String)
  /-- More characters were asked for than are left. -/
  | cutShort (count : Int)
  /-- The grammar does not allow the token. -/
  | unexpected (found : String) (expected : List Kind)
  /-- The script ends where the grammar asks for more. -/
  | unfinished (expected : List Kind)
  /-- Expressions and blocks nest deeper than the limit. -/
  | tooDeep (limit : Int)
  /-- Anything else, in words. -/
  | custom (message : String)
deriving DecidableEq, Repr, Inhabited

/-- What can go wrong in reading a script. -/
inductive Error where
  /-- A fault at a position. -/
  | located (position : Position) (fault : Fault)
  /-- A nesting limit must be at least one. -/
  | limitNotPositive (limit : Int)
  /-- Each `elif` has one condition and one block. -/
  | unevenClauses (conditions blocks : Nat)
  /-- There is no token so far back. -/
  | noSuchToken
  /-- An integer has more digits than are written. -/
  | integerTooLong
  /-- The stack of the interpreter has no room left. -/
  | stackExhausted
deriving DecidableEq, Repr, Inhabited

/-- The greatest number of digits of an integer that is converted, whether it is read
or written. -/
def digitLimit : Nat := 4300

namespace Fault

/-- The kinds that a fault asks for, each once and by name. -/
def expectedText (ks : List Kind) : String :=
  ", ".intercalate (Kind.sortedNames ks)

/-- The wording of a fault at a position. -/
def message (p : Position) : Fault → String
  | unrecognized found =>
    "Unrecognized character " ++ Text.quoted found ++ " at " ++ p.describe
  | malformed literal type =>
    "Malformed " ++ type ++ " literal " ++ Text.quoted literal ++ " at " ++ p.describe
  | tooManyDigits count =>
    "Exceeds the limit (" ++ toString digitLimit ++
      " digits) for integer string conversion: value has " ++ toString count ++
      " digits; use sys.set_int_max_str_digits() to increase the limit"
  | noDigits literal =>
    "invalid literal for int() with base 10: " ++ Text.quoted literal
  | cutShort count =>
    "Cannot take " ++ toString count ++ " character(s) at " ++ p.describe ++ ": end of source"
  | unexpected found expected =>
    "Unexpected token " ++ Text.quoted found ++ " at " ++ p.describe ++
      ", expected one of: " ++ expectedText expected
  | unfinished expected =>
    "Unexpected end of input at " ++ p.describe ++ ", expected one of: " ++ expectedText expected
  | tooDeep limit =>
    "Nesting deeper than " ++ toString limit ++ " levels at " ++ p.describe
  | custom message => message

/-- The kinds that a fault asks for, if it asks for any. -/
def expected? : Fault → Option (List Kind)
  | unexpected _ expected => some expected
  | unfinished expected => some expected
  | _ => none

end Fault

namespace Error

/-- The wording of an error. -/
def message : Error → String
  | located p fault => fault.message p
  | limitNotPositive limit => "max_depth must be positive, got " ++ toString limit
  | unevenClauses conditions blocks =>
    "elif_data has " ++ toString conditions ++ " conditions but " ++ toString blocks ++ " blocks"
  | noSuchToken => "list index out of range"
  | integerTooLong =>
    "Exceeds the limit (" ++ toString digitLimit ++ " digits) for integer string conversion" ++
      "; use sys.set_int_max_str_digits() to increase the limit"
  | stackExhausted => "maximum recursion depth exceeded"

/-- The kinds of tokens that an error asks for, if it asks for any. -/
def expected? : Error → Option (List Kind)
  | located _ fault => fault.expected?
  | _ => none

/-- The position of an error, if it has one. -/
def position? : Error → Option Position
  | located p _ => some p
  | _ => none

end Error

/-- The complaint that the token `t` is not of one of the kinds that are expected.
The end of the script is complained of in other words. -/
def Token.refuse (t : Token) (expected : List Kind) : Error :=
  .located t.position
    (if t.isEnd then .unfinished expected else .unexpected t.lexeme expected)

end ScriptReader
