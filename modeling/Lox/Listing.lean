import Lox.Directory
import Lox.Program
import Lox.Syntax.Outline

namespace Lox

structure Output where
  out : String := ""
  err : String := ""
  exit : Nat := 0
  deriving Repr, DecidableEq

def Literal.listed : Literal → String
  | .nil => "None"
  | .bool true => "True"
  | .bool false => "False"
  | .number x => Number.plainText x
  | .string s => Text.quoted s

def Token.listed (t : Token) : String :=
  "Tok(" ++ t.kind.name ++ ", " ++ Text.quoted t.lexeme ++ ", " ++ t.literal.listed ++ ", "
    ++ toString t.line ++ ")"

namespace Listing

def tokens (source : String) : Output :=
  let scan := Scan.ofString source
  { out := Text.unlines (scan.allTokens.map Token.listed)
    err := Text.unlines (scan.errors.map ScanError.report) }

def trees (source : String) : Output :=
  match Program.compile Parser.frameBudget source with
  | .ok statements => { out := Text.unlines (statements.map fun s => s.outline.pretty) }
  | .error errors => { err := Text.unlines (errors.map SyntaxError.report), exit := 65 }

/-- The name of the file to list: the first argument that is no option, if it is not `-`, which
stands for the standard input. -/
def fileName? (arguments : List String) : Option String :=
  match arguments.filter fun a => !(a.startsWith "--") with
  | [] => none
  | name :: _ => if name = "-" then none else some name

def treesOf (arguments : List String) (input : String) (d : Directory) : Except ReadError Output :=
  match fileName? arguments with
  | none => .ok (trees input)
  | some name => (d.read (Path.ofString name)).map trees

end Listing

end Lox
