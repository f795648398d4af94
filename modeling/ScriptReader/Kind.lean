import ScriptReader.Operator

/-!
# The kinds of tokens

A script is a sequence of literals, names, reserved words and symbols, closed by
an end mark.  `Keyword` lists the reserved words, `Symbol` the operators and the
punctuation, and `Kind` all kinds of tokens, each with the name that error
messages use.  The sets of kinds that the grammar asks for stand here too.

Main statements:

* `Kind.ofName_name`: a kind is found by its name, unless it is a foreign kind
  under the name of a standard one;
* `Symbol.chars_injective`: no two symbols are written alike.
-/

namespace ScriptReader

/-- A reserved word, the truth values apart. -/
inductive Keyword where
  | importWord
  | fnWord
  | ifWord
  | elifWord
  | elseWord
  | whileWord
  | forWord
  | inWord
  | returnWord
deriving DecidableEq, Repr, Inhabited

namespace Keyword

/-- All reserved words. -/
def all : List Keyword :=
  [importWord, fnWord, ifWord, elifWord, elseWord, whileWord, forWord, inWord, returnWord]

/-- A reserved word as it is written. -/
def text : Keyword → String
  | importWord => "import"
  | fnWord => "fn"
  | ifWord => "if"
  | elifWord => "elif"
  | elseWord => "else"
  | whileWord => "while"
  | forWord => "for"
  | inWord => "in"
  | returnWord => "return"

/-- The name of the kind of a reserved word. -/
def name : Keyword → String
  | importWord => "IMPORT"
  | fnWord => "FN"
  | ifWord => "IF"
  | elifWord => "ELIF"
  | elseWord => "ELSE"
  | whileWord => "WHILE"
  | forWord => "FOR"
  | inWord => "IN"
  | returnWord => "RETURN"

/-- The reserved word that is written `s`. -/
def ofText? (s : String) : Option Keyword :=
  all.find? (·.text == s)

theorem mem_all (k : Keyword) : k ∈ all := by
  cases k <;> decide

theorem ofText?_text (k : Keyword) : ofText? k.text = some k := by
  cases k <;> decide +kernel

end Keyword

/-- An operator or a mark of punctuation. -/
inductive Symbol where
  | openParen
  | closeParen
  | openBrace
  | closeBrace
  | openBracket
  | closeBracket
  | comma
  | semicolon
  | assign
  | plus
  | minus
  | times
  | divide
  | less
  | greater
  | equal
  | notEqual
  | plusAssign
  | minusAssign
  | timesAssign
  | divideAssign
  | increment
  | decrement
  | dots
deriving DecidableEq, Repr, Inhabited

namespace Symbol

/-- All symbols: grouping, operators, compound operators. -/
def all : List Symbol :=
  [openParen, closeParen, openBrace, closeBrace, openBracket, closeBracket, comma, semicolon,
    assign, plus, minus, times, divide, less, greater, equal, notEqual,
    plusAssign, minusAssign, timesAssign, divideAssign, increment, decrement, dots]

/-- The characters of a symbol. -/
def chars : Symbol → List Char
  | openParen => ['(']
  | closeParen => [')']
  | openBrace => ['\x7b']
  | closeBrace => ['\x7d']
  | openBracket => ['[']
  | closeBracket => [']']
  | comma => [',']
  | semicolon => [';']
  | assign => ['=']
  | plus => ['+']
  | minus => ['-']
  | times => ['*']
  | divide => ['/']
  | less => ['<']
  | greater => ['>']
  | equal => ['=', '=']
  | notEqual => ['!', '=']
  | plusAssign => ['+', '=']
  | minusAssign => ['-', '=']
  | timesAssign => ['*', '=']
  | divideAssign => ['/', '=']
  | increment => ['+', '+']
  | decrement => ['-', '-']
  | dots => ['.', '.']

/-- A symbol as it is written. -/
def text (s : Symbol) : String :=
  String.ofList s.chars

/-- The name of the kind of a symbol. -/
def name : Symbol → String
  | openParen => "LPAREN"
  | closeParen => "RPAREN"
  | openBrace => "LBRACE"
  | closeBrace => "RBRACE"
  | openBracket => "LBRACK"
  | closeBracket => "RBRACK"
  | comma => "COMMA"
  | semicolon => "SEMI"
  | assign => "ASSIGN"
  | plus => "PLUS"
  | minus => "SUB"
  | times => "MULT"
  | divide => "DIV"
  | less => "LT"
  | greater => "GT"
  | equal => "EQ"
  | notEqual => "NE"
  | plusAssign => "PLUS_ASSIGN"
  | minusAssign => "SUB_ASSIGN"
  | timesAssign => "MULT_ASSIGN"
  | divideAssign => "DIV_ASSIGN"
  | increment => "INCR"
  | decrement => "DECR"
  | dots => "SPREAD"

/-- The symbols with the longer ones first, so that the first one that fits a text
is the longest one that does. -/
def longestFirst : List Symbol :=
  all.filter (·.chars.length == 2) ++ all.filter (·.chars.length == 1)

/-- The operator that a symbol puts between two operands. -/
def binary? : Symbol → Option Operator
  | plus => some .plus
  | minus => some .minus
  | times => some .times
  | divide => some .divide
  | less => some .lessThan
  | greater => some .greaterThan
  | equal => some .equal
  | notEqual => some .notEqual
  | _ => none

/-- The operator by which a symbol changes a variable. -/
def update? : Symbol → Option Operator
  | plusAssign => some .plus
  | minusAssign => some .minus
  | timesAssign => some .times
  | divideAssign => some .divide
  | increment => some .plus
  | decrement => some .minus
  | _ => none

/-- Whether a symbol changes a variable by one. -/
def isStep : Symbol → Bool
  | increment => true
  | decrement => true
  | _ => false

/-- The symbols between two operands, with their operators. -/
theorem binary?_eq_some_iff {s : Symbol} {o : Operator} : s.binary? = some o ↔
    (s, o) ∈ [(plus, .plus), (minus, .minus), (times, .times), (divide, .divide),
      (less, .lessThan), (greater, .greaterThan), (equal, .equal), (notEqual, .notEqual)] := by
  cases s <;> simp [binary?, eq_comm]

/-- The symbols that change a variable, with their operators. -/
theorem update?_eq_some_iff {s : Symbol} {o : Operator} : s.update? = some o ↔
    (s, o) ∈ [(plusAssign, .plus), (minusAssign, .minus), (timesAssign, .times),
      (divideAssign, .divide), (increment, .plus), (decrement, .minus)] := by
  cases s <;> simp [update?, eq_comm]

theorem mem_all (s : Symbol) : s ∈ all := by
  cases s <;> decide

theorem chars_ne_nil (s : Symbol) : s.chars ≠ [] := by
  cases s <;> decide

/-- No two symbols are written alike. -/
theorem chars_injective {s t : Symbol} (h : s.chars = t.chars) : s = t := by
  revert h
  cases s <;> cases t <;> decide

theorem mem_longestFirst (s : Symbol) : s ∈ longestFirst := by
  cases s <;> decide

end Symbol

/-- The kind of a token.  A token made by hand may be of a foreign kind, which no
rule of the grammar asks for. -/
inductive Kind where
  | int
  | float
  | bool
  | string
  | char
  | ident
  | keyword (k : Keyword)
  | symbol (s : Symbol)
  | eof
  | other (name : String)
deriving DecidableEq, Repr, Inhabited

namespace Kind

/-- The name of a kind, as error messages use it. -/
def name : Kind → String
  | int => "INT"
  | float => "FLOAT"
  | bool => "BOOL"
  | string => "STRING"
  | char => "CHAR"
  | ident => "IDENT"
  | keyword k => k.name
  | symbol s => s.name
  | eof => "EOF"
  | other name => name

/-- The kinds of literals. -/
def literals : List Kind :=
  [int, float, string, char, bool]

/-- All kinds but the foreign ones. -/
def standard : List Kind :=
  literals ++ [ident] ++ Keyword.all.map keyword ++ Symbol.all.map symbol ++ [eof]

/-- The kind of a name; a foreign one if no standard kind has it. -/
def ofName (s : String) : Kind :=
  (standard.find? (·.name == s)).getD (other s)

/-- The kinds of the operators between two operands. -/
def binaries : List Kind :=
  (Symbol.all.filter (·.binary?.isSome)).map symbol

/-- The kinds of the operators that change a variable. -/
def updates : List Kind :=
  (Symbol.all.filter (·.update?.isSome)).map symbol

/-- The kinds that begin an expression. -/
def atomStarts : List Kind :=
  literals ++ [ident, symbol .openBracket, symbol .increment, symbol .decrement]

/-- The kinds that begin a statement. -/
def statementStarts : List Kind :=
  atomStarts ++ [keyword .importWord, keyword .ifWord, keyword .whileWord, keyword .forWord,
    keyword .fnWord]

/-- The names of some kinds, each once, in the order of their characters. -/
def sortedNames (ks : List Kind) : List String :=
  (ks.map name).eraseDups.mergeSort (fun a b => decide (a ≤ b))

theorem name_ofName (s : String) : (ofName s).name = s := by
  unfold ofName
  cases h : standard.find? (·.name == s) with
  | none => rfl
  | some k => simpa using List.find?_some h

/-- A standard kind is found by its name. -/
theorem ofName_name {k : Kind} (h : k ∈ standard) : ofName k.name = k := by
  revert k
  decide +kernel

end Kind

/-- The reserved words with the kind of each, the truth values among them. -/
def reservedWords : List (String × Kind) :=
  Keyword.all.map (fun k => (k.text, .keyword k)) ++ [("true", .bool), ("false", .bool)]

end ScriptReader
