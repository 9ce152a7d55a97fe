import Lox.Scan
import Lox.Text.Blank
import Lox.Text.Lines

/-!
Highlighting: each line of a text as fragments with a style.

The tokens of a line are searched for in it one after the other. Comments between them are coloured,
and so is the end of a line where the scan found an error.
-/

namespace Lox

inductive Highlight.Group where
  | keyword | boolean | constant | number | string | identifier | function | operator
  | punctuation | comment | error
  deriving Repr, DecidableEq

namespace Highlight

namespace Group

def name : Group → String
  | .keyword => "keyword"
  | .boolean => "boolean"
  | .constant => "constant"
  | .number => "number"
  | .string => "string"
  | .identifier => "identifier"
  | .function => "function"
  | .operator => "operator"
  | .punctuation => "punctuation"
  | .comment => "comment"
  | .error => "error"

def style : Group → String
  | .keyword => "bold ansicyan"
  | .boolean | .constant => "ansicyan"
  | .number => "ansimagenta"
  | .string => "ansigreen"
  | .function => "bold ansiyellow"
  | .comment => "italic ansigray"
  | .error => "bold ansired"
  | .identifier | .operator | .punctuation => ""

end Group

def group? (previous : Option Token.Kind) (kind : Token.Kind) (next : Option Token.Kind) :
    Option Group :=
  match kind with
  | .andWord | .classWord | .elseWord | .forWord | .funWord | .ifWord | .orWord | .printWord
  | .returnWord | .superWord | .thisWord | .varWord | .whileWord => some .keyword
  | .trueWord | .falseWord => some .boolean
  | .nilWord => some .constant
  | .number => some .number
  | .string => some .string
  | .minus | .plus | .slash | .star | .bang | .bangEqual | .equal | .equalEqual | .greater
  | .greaterEqual | .less | .lessEqual => some .operator
  | .leftParen | .rightParen | .leftBrace | .rightBrace | .comma | .dot | .semicolon =>
      some .punctuation
  | .identifier =>
      if previous = some .funWord ∨ next = some .leftParen then some .function
      else some .identifier
  | .eof => none

def groupsAfter (previous : Option Token.Kind) : List Token → List (Token × Option Group)
  | [] => []
  | t :: rest =>
      (t, group? previous t.kind (rest.head?.map Token.kind)) :: groupsAfter (some t.kind) rest

def groups (tokens : List Token) : List (Token × Option Group) := groupsAfter none tokens

structure Fragment where
  group : Option Group
  text : List Char
  deriving Repr, DecidableEq

def Fragment.style (f : Fragment) : String := (f.group.map Group.style).getD ""

/-- Splits a text where a test on what follows first succeeds; `passed` came before, in reverse
order. -/
def splitWhere (test : List Char → Bool) (passed : List Char) :
    List Char → Option (List Char × List Char)
  | [] => if test [] then some (passed.reverse, []) else none
  | c :: rest =>
      if test (c :: rest) then some (passed.reverse, c :: rest)
      else splitWhere test (c :: passed) rest

def commentBegins : List Char → Bool
  | '/' :: '/' :: _ => true
  | '/' :: '*' :: _ => true
  | _ => false

def gap (text : List Char) : List Fragment :=
  match splitWhere commentBegins [] text with
  | none => [⟨none, text⟩]
  | some ([], comment) => [⟨some .comment, comment⟩]
  | some (plain, comment) => [⟨none, plain⟩, ⟨some .comment, comment⟩]

def tail (hasErrors : Bool) (text : List Char) : List Fragment :=
  if text.isEmpty then []
  else if hasErrors && !commentBegins (Text.trimLeft text) then [⟨some .error, text⟩]
  else gap text

/-- The fragments of a text that holds some tokens one after the other. A token that is not found
is passed over. -/
def fragments (hasErrors : Bool) : List (Token × Option Group) → List Char → List Fragment
  | [], text => tail hasErrors text
  | (t, group) :: rest, text =>
      let lexeme := t.lexeme.toList
      match splitWhere lexeme.isPrefixOf [] text with
      | none => fragments hasErrors rest text
      | some (before, found) =>
          (if before.isEmpty then [] else gap before)
            ++ ⟨group, lexeme⟩ :: fragments hasErrors rest (found.drop lexeme.length)

def line (text : List Char) : List Fragment :=
  if text.isEmpty then [⟨none, []⟩]
  else
    let scan := Scan.ofChars text
    fragments (!scan.errors.isEmpty) (groups scan.tokens) text

def lines (text : String) : List (List Fragment) :=
  (Text.lines text.toList).map line

/-- The fragments of the line with a number, the first line having number zero. Past the last line
there is one empty fragment. -/
def lineAt (text : String) (n : Nat) : List Fragment := (lines text).getD n [⟨none, []⟩]

end Highlight

end Lox
