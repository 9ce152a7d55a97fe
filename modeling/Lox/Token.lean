namespace Lox

inductive Literal where
  | nil
  | bool (value : Bool)
  | number (value : Float)
  | string (value : String)
  deriving Repr, Inhabited

inductive Token.Kind where
  | leftParen | rightParen | leftBrace | rightBrace
  | comma | dot | minus | plus | semicolon | slash | star
  | bang | bangEqual | equal | equalEqual
  | greater | greaterEqual | less | lessEqual
  | identifier | string | number
  | andWord | classWord | elseWord | falseWord | funWord | forWord | ifWord | nilWord
  | orWord | printWord | returnWord | superWord | thisWord | trueWord | varWord | whileWord
  | eof
  deriving Repr, DecidableEq, Inhabited

/-- A token keeps its spelling as written and the line on which it ends. `literal` is `.nil` for
every kind but strings and numbers. -/
structure Token where
  kind : Token.Kind
  lexeme : String
  literal : Literal := .nil
  line : Nat
  deriving Repr, Inhabited

namespace Token.Kind

def all : List Kind :=
  [.leftParen, .rightParen, .leftBrace, .rightBrace, .comma, .dot, .minus, .plus, .semicolon,
   .slash, .star, .bang, .bangEqual, .equal, .equalEqual, .greater, .greaterEqual, .less,
   .lessEqual, .identifier, .string, .number, .andWord, .classWord, .elseWord, .falseWord,
   .funWord, .forWord, .ifWord, .nilWord, .orWord, .printWord, .returnWord, .superWord,
   .thisWord, .trueWord, .varWord, .whileWord, .eof]

def name : Kind → String
  | .leftParen => "LEFT_PAREN"
  | .rightParen => "RIGHT_PAREN"
  | .leftBrace => "LEFT_BRACE"
  | .rightBrace => "RIGHT_BRACE"
  | .comma => "COMMA"
  | .dot => "DOT"
  | .minus => "MINUS"
  | .plus => "PLUS"
  | .semicolon => "SEMICOLON"
  | .slash => "SLASH"
  | .star => "STAR"
  | .bang => "BANG"
  | .bangEqual => "BANG_EQUAL"
  | .equal => "EQUAL"
  | .equalEqual => "EQUAL_EQUAL"
  | .greater => "GREATER"
  | .greaterEqual => "GREATER_EQUAL"
  | .less => "LESS"
  | .lessEqual => "LESS_EQUAL"
  | .identifier => "IDENTIFIER"
  | .string => "STRING"
  | .number => "NUMBER"
  | .andWord => "AND"
  | .classWord => "CLASS"
  | .elseWord => "ELSE"
  | .falseWord => "FALSE"
  | .funWord => "FUN"
  | .forWord => "FOR"
  | .ifWord => "IF"
  | .nilWord => "NIL"
  | .orWord => "OR"
  | .printWord => "PRINT"
  | .returnWord => "RETURN"
  | .superWord => "SUPER"
  | .thisWord => "THIS"
  | .trueWord => "TRUE"
  | .varWord => "VAR"
  | .whileWord => "WHILE"
  | .eof => "EOF"

def ofName? (name : String) : Option Kind :=
  all.find? fun kind => kind.name == name

def keyword? : String → Option Kind
  | "and" => some .andWord
  | "class" => some .classWord
  | "else" => some .elseWord
  | "false" => some .falseWord
  | "for" => some .forWord
  | "fun" => some .funWord
  | "if" => some .ifWord
  | "nil" => some .nilWord
  | "or" => some .orWord
  | "print" => some .printWord
  | "return" => some .returnWord
  | "super" => some .superWord
  | "this" => some .thisWord
  | "true" => some .trueWord
  | "var" => some .varWord
  | "while" => some .whileWord
  | _ => none

/-- The kinds that begin a declaration or a statement, at which reading resumes after an error. -/
def startsStatement : Kind → Bool
  | .classWord | .funWord | .varWord | .forWord | .ifWord | .whileWord | .printWord
  | .returnWord => true
  | _ => false

def opens : Kind → Bool
  | .leftParen | .leftBrace => true
  | _ => false

def closes : Kind → Bool
  | .rightParen | .rightBrace => true
  | _ => false

end Token.Kind

end Lox
