import Lox.Number
import Lox.Token

namespace Lox

inductive Piece.Form where
  | blank
  /-- From `//` to before the line end, or from `/*` to the first `*/`. -/
  | comment
  | token (kind : Token.Kind) (literal : Literal)
  | rejected
  /-- A string without its closing quote, up to the end of the text. -/
  | openString
  | openComment
  deriving Repr, Inhabited

/-- An item with the characters it covers and the line on which it ends. -/
structure Piece where
  form : Piece.Form
  text : List Char
  line : Nat
  deriving Repr, Inhabited

namespace Piece

def isDigit (c : Char) : Bool := '0' ≤ c && c ≤ '9'

def isLetter (c : Char) : Bool := ('a' ≤ c && c ≤ 'z') || ('A' ≤ c && c ≤ 'Z') || c == '_'

def isWordChar (c : Char) : Bool := isLetter c || isDigit c

def isSpace (c : Char) : Bool := c == ' ' || c == '\r' || c == '\t' || c == '\n'

def single? : Char → Option Token.Kind
  | '(' => some .leftParen
  | ')' => some .rightParen
  | '\x7b' => some .leftBrace
  | '\x7d' => some .rightBrace
  | ',' => some .comma
  | '.' => some .dot
  | '-' => some .minus
  | '+' => some .plus
  | ';' => some .semicolon
  | '*' => some .star
  | _ => none

def extendable? : Char → Option (Token.Kind × Token.Kind)
  | '!' => some (.bang, .bangEqual)
  | '=' => some (.equal, .equalEqual)
  | '<' => some (.less, .lessEqual)
  | '>' => some (.greater, .greaterEqual)
  | _ => none

/-- The item at the head of a text: its form, how many characters belong to it after its first one,
and the line on which it ends. -/
structure Cut where
  form : Form
  more : Nat
  line : Nat

def countLine (line : Nat) (c : Char) : Nat := if c == '\n' then line + 1 else line

structure Reach where
  passed : Nat
  line : Nat
  closed : Bool

def stringReach (passed line : Nat) : List Char → Reach
  | [] => ⟨passed, line, false⟩
  | '"' :: _ => ⟨passed, line, true⟩
  | c :: rest => stringReach (passed + 1) (countLine line c) rest

def commentReach (passed line : Nat) : List Char → Reach
  | [] => ⟨passed, line, false⟩
  | '*' :: '/' :: _ => ⟨passed, line, true⟩
  | c :: rest => commentReach (passed + 1) (countLine line c) rest

/-! Each function below is given the text after the first character of an item. -/

def cutSlash (line : Nat) : List Char → Cut
  | '/' :: rest => ⟨.comment, 1 + (rest.takeWhile (· != '\n')).length, line⟩
  | '*' :: rest =>
      let reach := commentReach 0 line rest
      if reach.closed then ⟨.comment, reach.passed + 3, reach.line⟩
      else ⟨.openComment, reach.passed + 1, reach.line⟩
  | _ => ⟨.token .slash .nil, 0, line⟩

def cutString (line : Nat) (rest : List Char) : Cut :=
  let reach := stringReach 0 line rest
  if reach.closed then
    let body := String.ofList (rest.take reach.passed)
    ⟨.token .string (.string body), reach.passed + 1, reach.line⟩
  else ⟨.openString, reach.passed, reach.line⟩

def cutNumber (line : Nat) (first : Char) (rest : List Char) : Cut :=
  let whole := rest.takeWhile isDigit
  let fraction := match rest.dropWhile isDigit with
    | '.' :: more => more.takeWhile isDigit
    | _ => []
  let length := if fraction.isEmpty then whole.length else whole.length + 1 + fraction.length
  ⟨.token .number (.number (Number.ofDigits (first :: whole) fraction)), length, line⟩

def cutWord (line : Nat) (first : Char) (rest : List Char) : Cut :=
  let more := rest.takeWhile isWordChar
  let word := String.ofList (first :: more)
  ⟨.token ((Token.Kind.keyword? word).getD .identifier) .nil, more.length, line⟩

def cut (line : Nat) (first : Char) (rest : List Char) : Cut :=
  match single? first, extendable? first with
  | some kind, _ => ⟨.token kind .nil, 0, line⟩
  | none, some (plain, extended) =>
      if rest.head? = some '=' then ⟨.token extended .nil, 1, line⟩
      else ⟨.token plain .nil, 0, line⟩
  | none, none =>
      if first == '/' then cutSlash line rest
      else if isSpace first then ⟨.blank, 0, countLine line first⟩
      else if first == '"' then cutString line rest
      else if isDigit first then cutNumber line first rest
      else if isLetter first then cutWord line first rest
      else ⟨.rejected, 0, line⟩

end Piece

/-- Cuts a text into pieces and gives its last line. The next `skip` characters belong to the piece
cut last, which ends on the given line; `done` holds the pieces so far, the last one first. -/
def cutAfter (done : List Piece) (line : Nat) : (skip : Nat) → List Char → List Piece × Nat
  | _, [] => (done.reverse, line)
  | skip + 1, _ :: rest => cutAfter done line skip rest
  | 0, first :: rest =>
      let cut := Piece.cut line first rest
      cutAfter (⟨cut.form, first :: rest.take cut.more, cut.line⟩ :: done) cut.line cut.more rest

def pieces (source : List Char) : List Piece × Nat := cutAfter [] 1 0 source

end Lox
