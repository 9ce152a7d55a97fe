import Lox.Piece

namespace Lox

inductive ScanError.Cause where
  | rejectedCharacter
  | openString
  | openComment
  deriving Repr, DecidableEq, Inhabited

/-- A lexical error on a line. -/
structure ScanError where
  cause : ScanError.Cause
  line : Nat
  deriving Repr, DecidableEq, Inhabited

namespace ScanError

def Cause.message : Cause → String
  | .rejectedCharacter => "Unexpected character."
  | .openString => "Unterminated string."
  | .openComment => "Unterminated block comment."

def Cause.isOpen : Cause → Bool
  | .rejectedCharacter => false
  | .openString | .openComment => true

def message (e : ScanError) : String := e.cause.message

def report (e : ScanError) : String :=
  "[line " ++ toString e.line ++ "] Error: " ++ e.message

end ScanError

namespace Piece

def token? (p : Piece) : Option Token :=
  match p.form with
  | .token kind literal => some ⟨kind, String.ofList p.text, literal, p.line⟩
  | _ => none

def error? (p : Piece) : Option ScanError :=
  match p.form with
  | .rejected => some ⟨.rejectedCharacter, p.line⟩
  | .openString => some ⟨.openString, p.line⟩
  | .openComment => some ⟨.openComment, p.line⟩
  | _ => none

end Piece

structure Scan where
  tokens : List Token
  errors : List ScanError
  lastLine : Nat
  deriving Repr, Inhabited

namespace Scan

def ofChars (source : List Char) : Scan :=
  let (all, lastLine) := pieces source
  { tokens := all.filterMap Piece.token?
    errors := all.filterMap Piece.error?
    lastLine }

def ofString (source : String) : Scan := ofChars source.toList

def eof (s : Scan) : Token := ⟨.eof, "", .nil, s.lastLine⟩

def allTokens (s : Scan) : List Token := s.tokens ++ [s.eof]

end Scan

end Lox
