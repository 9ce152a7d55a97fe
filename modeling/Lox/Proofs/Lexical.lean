import Lox.Scan
import Lox.Proofs.Number

/-!
The lexical grammar: the texts that are items, and the division of a text into items of which each
is the longest that stands there.
-/

namespace Lox

def Token.Kind.spelling? : Kind → Option String
  | .leftParen => some "("
  | .rightParen => some ")"
  | .leftBrace => some "\x7b"
  | .rightBrace => some "\x7d"
  | .comma => some ","
  | .dot => some "."
  | .minus => some "-"
  | .plus => some "+"
  | .semicolon => some ";"
  | .slash => some "/"
  | .star => some "*"
  | .bang => some "!"
  | .bangEqual => some "!="
  | .equal => some "="
  | .equalEqual => some "=="
  | .greater => some ">"
  | .greaterEqual => some ">="
  | .less => some "<"
  | .lessEqual => some "<="
  | .andWord => some "and"
  | .classWord => some "class"
  | .elseWord => some "else"
  | .falseWord => some "false"
  | .funWord => some "fun"
  | .forWord => some "for"
  | .ifWord => some "if"
  | .nilWord => some "nil"
  | .orWord => some "or"
  | .printWord => some "print"
  | .returnWord => some "return"
  | .superWord => some "super"
  | .thisWord => some "this"
  | .trueWord => some "true"
  | .varWord => some "var"
  | .whileWord => some "while"
  | .identifier | .string | .number | .eof => none

namespace Lexical

inductive Category where
  | blank
  | comment
  | token (kind : Token.Kind)
  | rejected
  | openString
  | openComment
  deriving Repr, DecidableEq

/-- The spellings of a number: digits, or digits on both sides of a point. -/
inductive Numeral : List Char → ℚ → Prop
  | whole {ds : List Char} (nonempty : ds ≠ []) (digits : ∀ d ∈ ds, d.isDigit) :
      Numeral ds (Number.naturalOfDigits ds)
  | point {ds fs : List Char} (nonempty : ds ≠ []) (digits : ∀ d ∈ ds, d.isDigit)
      (more : fs ≠ []) (decimals : ∀ d ∈ fs, d.isDigit) :
      Numeral (ds ++ '.' :: fs)
        (Number.naturalOfDigits ds + Number.naturalOfDigits fs / 10 ^ fs.length)

/-- The items other than rejected characters, each with the text that comes after it. -/
inductive Regular : Category → List Char → List Char → Prop
  | blank {c : Char} {rest} (space : c ∈ [' ', '\t', '\r', '\n']) : Regular .blank [c] rest
  | lineComment {body rest} (line : '\n' ∉ body) : Regular .comment ('/' :: '/' :: body) rest
  | blockComment {body rest} (first : ¬ ['*', '/'] <:+: body) :
      Regular .comment ('/' :: '*' :: body ++ ['*', '/']) rest
  | fixed {kind text rest} (spelled : kind.spelling? = some (String.ofList text)) :
      Regular (.token kind) text rest
  | identifier {first : Char} {more : List Char} {rest} (letter : first.isAlpha ∨ first = '_')
      (word : ∀ c ∈ more, c.isAlphanum ∨ c = '_')
      (free : ∀ kind, Token.Kind.spelling? kind ≠ some (String.ofList (first :: more))) :
      Regular (.token .identifier) (first :: more) rest
  | string {body rest} (inside : '"' ∉ body) : Regular (.token .string) ('"' :: body ++ ['"']) rest
  | number {text v rest} (numeral : Numeral text v) : Regular (.token .number) text rest
  | openString {body} (inside : '"' ∉ body) : Regular .openString ('"' :: body) []
  | openComment {body} (never : ¬ ['*', '/'] <:+: body) : Regular .openComment ('/' :: '*' :: body) []

/-- An item with the text that comes after it. A character is rejected where no other item
begins. -/
inductive Stands : Category → List Char → List Char → Prop
  | regular {c text rest} (h : Regular c text rest) : Stands c text rest
  | rejected {x : Char} {rest}
      (alone : ∀ c text after, Regular c text after → text ++ after ≠ x :: rest) :
      Stands .rejected [x] rest

/-- An item such that none that stands at the same place is longer. -/
structure Longest (c : Category) (text rest : List Char) : Prop where
  stands : Stands c text rest
  most : ∀ c' text' rest', Stands c' text' rest' → text' ++ rest' = text ++ rest →
    text'.length ≤ text.length

/-- The division of a text into the longest items. -/
inductive Divides : List (Category × List Char) → List Char → Prop
  | nil : Divides [] []
  | cons {c text rest items} (first : Longest c text rest) (others : Divides items rest) :
      Divides ((c, text) :: items) (text ++ rest)

def Spells (kind : Token.Kind) (text : List Char) (literal : Literal) : Prop :=
  match kind with
  | .string => ∃ body, text = '"' :: body ++ ['"'] ∧ literal = .string (String.ofList body)
  | .number => ∃ v x, Numeral text v ∧ Number.Nearest v x ∧ literal = .number x
  | _ => literal = .nil

structure Yields (item : Category × List Char) (t : Token) : Prop where
  kind : item.1 = .token t.kind
  lexeme : t.lexeme = String.ofList item.2
  literal : Spells t.kind item.2 t.literal

def Category.isToken : Category → Bool
  | .token _ => true
  | _ => false

def Category.cause? : Category → Option ScanError.Cause
  | .rejected => some .rejectedCharacter
  | .openString => some .openString
  | .openComment => some .openComment
  | .blank | .comment | .token _ => none

end Lexical

end Lox
