import Lox.Token

namespace Lox

inductive ParseError.Role where
  | variable | function | parameter | argument
  deriving Repr, DecidableEq

inductive ParseError.Place where
  | afterVariableDeclaration | afterFunctionName | afterParameters | beforeFunctionBody
  | afterValue | afterExpression | afterBlock | afterIf | afterIfCondition | afterWhile
  | afterCondition | afterFor | afterLoopCondition | afterForClauses | afterReturnValue
  | afterArguments
  deriving Repr, DecidableEq

inductive ParseError.Mark where
  | semicolon | leftParen | rightParen | leftBrace | rightBrace
  deriving Repr, DecidableEq

inductive ParseError.Cause where
  | missingExpression
  | missingName (role : ParseError.Role)
  | missingMark (mark : ParseError.Mark) (place : ParseError.Place)
  | invalidTarget
  | topLevelReturn
  | tooMany (role : ParseError.Role)
  | nestedTooDeep
  | trailingTokens
  deriving Repr, DecidableEq

/-- A parse error at a token, which is token number `index` of its text. -/
structure ParseError where
  cause : ParseError.Cause
  token : Token
  index : Nat
  deriving Repr

namespace ParseError

def maxListLength : Nat := 255

def Role.text : Role → String
  | .variable => "variable"
  | .function => "function"
  | .parameter => "parameter"
  | .argument => "argument"

def Place.text : Place → String
  | .afterVariableDeclaration => "after variable declaration"
  | .afterFunctionName => "after function name"
  | .afterParameters => "after parameters"
  | .beforeFunctionBody => "before function body"
  | .afterValue => "after value"
  | .afterExpression => "after expression"
  | .afterBlock => "after block"
  | .afterIf => "after 'if'"
  | .afterIfCondition => "after if condition"
  | .afterWhile => "after 'while'"
  | .afterCondition => "after condition"
  | .afterFor => "after 'for'"
  | .afterLoopCondition => "after loop condition"
  | .afterForClauses => "after for clauses"
  | .afterReturnValue => "after return value"
  | .afterArguments => "after arguments"

def Mark.kind : Mark → Token.Kind
  | .semicolon => .semicolon
  | .leftParen => .leftParen
  | .rightParen => .rightParen
  | .leftBrace => .leftBrace
  | .rightBrace => .rightBrace

def Mark.text : Mark → String
  | .semicolon => "';'"
  | .leftParen => "'('"
  | .rightParen => "')'"
  | .leftBrace => "'\x7b'"
  | .rightBrace => "'\x7d'"

def Cause.message : Cause → String
  | .missingExpression => "Expect expression."
  | .missingName role => "Expect " ++ role.text ++ " name."
  | .missingMark mark place => "Expect " ++ mark.text ++ " " ++ place.text ++ "."
  | .invalidTarget => "Invalid assignment target."
  | .topLevelReturn => "Can't return from top-level code."
  | .tooMany role => "Can't have more than " ++ toString maxListLength ++ " " ++ role.text ++ "s."
  | .nestedTooDeep => "Expression nesting too deep."
  | .trailingTokens => "Unexpected tokens after expression."

/-- Whether reading stops at such an error; otherwise it is noted and reading goes on. -/
def Cause.stops : Cause → Bool
  | .missingExpression | .missingName _ | .missingMark .. | .nestedTooDeep | .trailingTokens => true
  | .invalidTarget | .topLevelReturn | .tooMany _ => false

def message (e : ParseError) : String := e.cause.message

def line (e : ParseError) : Nat := e.token.line

def place (e : ParseError) : String :=
  if e.token.kind = .eof then " at end" else " at '" ++ e.token.lexeme ++ "'"

def report (e : ParseError) : String :=
  "[line " ++ toString e.line ++ "] Error" ++ e.place ++ ": " ++ e.message

end ParseError

end Lox
