namespace Lox.Text

def unifyLineEndsAfter (read : List Char) : List Char → List Char
  | [] => read.reverse
  | '\r' :: '\n' :: rest => unifyLineEndsAfter ('\n' :: read) rest
  | '\r' :: rest => unifyLineEndsAfter ('\n' :: read) rest
  | c :: rest => unifyLineEndsAfter (c :: read) rest

/-- A file's text with every line end, `\r\n` or a lone `\r` included, written `\n`. -/
def unifyLineEnds (s : String) : String :=
  String.ofList (unifyLineEndsAfter [] s.toList)

/-- The lines of a text after some characters of the first one, which are given in reverse order. -/
def linesAfter (current : List Char) : List Char → List (List Char)
  | [] => [current.reverse]
  | c :: rest =>
      if c = '\n' then current.reverse :: linesAfter [] rest
      else linesAfter (c :: current) rest

def lines (cs : List Char) : List (List Char) := linesAfter [] cs

def unlines (lines : List String) : String :=
  String.join (lines.map (· ++ "\n"))

end Lox.Text
