import SmallC.Source.Position

/-!
# Tokens

The vocabulary of the language: two keywords, names, decimal numbers and punctuators. Two more kinds
mark the end of the input and input that is no token; the lexeme of the latter is the message about
it.
-/
namespace SmallC

inductive Punctuator where
  | plus
  | minus
  | star
  | slash
  | percent
  | increment
  | decrement
  | equal
  | notEqual
  | less
  | greater
  | lessEqual
  | greaterEqual
  | andAnd
  | barBar
  | bang
  | ampersand
  | bar
  | caret
  | tilde
  | shiftLeft
  | shiftRight
  | assign
  | plusAssign
  | minusAssign
  | starAssign
  | slashAssign
  | percentAssign
  | andAssign
  | barAssign
  | caretAssign
  | shiftLeftAssign
  | shiftRightAssign
  | openParen
  | closeParen
  | openBrace
  | closeBrace
  | semicolon
  | comma
  | hash
  deriving DecidableEq

namespace Punctuator

def spelling : Punctuator → String
  | plus => "+"
  | minus => "-"
  | star => "*"
  | slash => "/"
  | percent => "%"
  | increment => "++"
  | decrement => "--"
  | equal => "=="
  | notEqual => "!="
  | less => "<"
  | greater => ">"
  | lessEqual => "<="
  | greaterEqual => ">="
  | andAnd => "&&"
  | barBar => "||"
  | bang => "!"
  | ampersand => "&"
  | bar => "|"
  | caret => "^"
  | tilde => "~"
  | shiftLeft => "<<"
  | shiftRight => ">>"
  | assign => "="
  | plusAssign => "+="
  | minusAssign => "-="
  | starAssign => "*="
  | slashAssign => "/="
  | percentAssign => "%="
  | andAssign => "&="
  | barAssign => "|="
  | caretAssign => "^="
  | shiftLeftAssign => "<<="
  | shiftRightAssign => ">>="
  | openParen => "("
  | closeParen => ")"
  | openBrace => "\x7b"
  | closeBrace => "\x7d"
  | semicolon => ";"
  | comma => ","
  | hash => "#"

/-- The name in token listings. -/
def name : Punctuator → String
  | plus => "Plus"
  | minus => "Minus"
  | star => "Star"
  | slash => "Slash"
  | percent => "Percent"
  | increment => "PlusPlus"
  | decrement => "MinusMinus"
  | equal => "EqEq"
  | notEqual => "NotEq"
  | less => "Lt"
  | greater => "Gt"
  | lessEqual => "LtEq"
  | greaterEqual => "GtEq"
  | andAnd => "AmpAmp"
  | barBar => "PipePipe"
  | bang => "Bang"
  | ampersand => "Amp"
  | bar => "Pipe"
  | caret => "Caret"
  | tilde => "Tilde"
  | shiftLeft => "LtLt"
  | shiftRight => "GtGt"
  | assign => "Eq"
  | plusAssign => "PlusEq"
  | minusAssign => "MinusEq"
  | starAssign => "StarEq"
  | slashAssign => "SlashEq"
  | percentAssign => "PercentEq"
  | andAssign => "AmpEq"
  | barAssign => "PipeEq"
  | caretAssign => "CaretEq"
  | shiftLeftAssign => "LtLtEq"
  | shiftRightAssign => "GtGtEq"
  | openParen => "LParen"
  | closeParen => "RParen"
  | openBrace => "LBrace"
  | closeBrace => "RBrace"
  | semicolon => "Semi"
  | comma => "Comma"
  | hash => "Hash"

/-- Every punctuator, a longer spelling before a shorter one. -/
def all : List Punctuator :=
  [shiftLeftAssign, shiftRightAssign,
    increment, decrement, equal, notEqual, lessEqual, greaterEqual, andAnd, barBar, shiftLeft,
    shiftRight, plusAssign, minusAssign, starAssign, slashAssign, percentAssign, andAssign,
    barAssign, caretAssign,
    plus, minus, star, slash, percent, less, greater, bang, ampersand, bar, caret, tilde, assign,
    openParen, closeParen, openBrace, closeBrace, semicolon, comma, hash]

/-- The longest punctuator that the text starts with. -/
def longest? (cs : List Char) : Option Punctuator :=
  all.find? fun p => p.spelling.toList.isPrefixOf cs

end Punctuator

inductive Kind where
  | intKeyword
  | returnKeyword
  | identifier
  | number
  | punct (p : Punctuator)
  | endOfFile
  | invalid
  deriving DecidableEq

namespace Kind

/-- The name in token listings. -/
def name : Kind → String
  | intKeyword => "Int"
  | returnKeyword => "Return"
  | identifier => "Identifier"
  | number => "IntegerNumber"
  | punct p => p.name
  | endOfFile => "Eof"
  | invalid => "Error"

/-- The kind as a message names it. -/
def describe : Kind → String
  | intKeyword => "'int'"
  | returnKeyword => "'return'"
  | identifier => "identifier"
  | number => "integer"
  | punct p => "'" ++ p.spelling ++ "'"
  | endOfFile => "end of file"
  | invalid => "invalid token"

def isKeyword : Kind → Bool
  | intKeyword | returnKeyword => true
  | _ => false

/-- Words are what a definition can replace. -/
def isWord (k : Kind) : Bool :=
  k.isKeyword || k == identifier

/-- The kind of a word. -/
def ofWord (text : String) : Kind :=
  if text == "int" then intKeyword
  else if text == "return" then returnKeyword
  else identifier

/-- Every kind. -/
def all : List Kind :=
  [intKeyword, returnKeyword, identifier, number] ++ Punctuator.all.map punct
    ++ [endOfFile, invalid]

end Kind

structure Token where
  kind : Kind
  lexeme : String
  pos : Position
  deriving DecidableEq

namespace Token

def endOfFile (pos : Position) : Token :=
  ⟨.endOfFile, "", pos⟩

def invalid (message : String) (pos : Position) : Token :=
  ⟨.invalid, message, pos⟩

end Token

/-- The tokens of a text in order, and where its end stands. -/
structure TokenStream where
  tokens : List Token
  ending : Position
  deriving DecidableEq

/-- The tokens with the one that marks the end. -/
def TokenStream.toList (s : TokenStream) : List Token :=
  s.tokens ++ [.endOfFile s.ending]

end SmallC
