import Lox.Scan

/-!
Entries: text that is being typed at the prompt.

An entry is unfinished while a bracket, a string or a comment is open. The enter key then goes on
to the next line and indents it; otherwise it submits the entry.
-/

namespace Lox.Entry

/-- How many brackets of some tokens are open after `depth` brackets before them; a closing bracket
without a partner counts for nothing. -/
def depthAfter (depth : Nat) : List Token → Nat
  | [] => depth
  | t :: rest =>
      if t.kind.opens then depthAfter (depth + 1) rest
      else if t.kind.closes then depthAfter (depth - 1) rest
      else depthAfter depth rest

def openDepth (text : String) : Nat := depthAfter 0 (Scan.ofString text).tokens

def isUnfinished (text : String) : Bool :=
  (Scan.ofString text).errors.any (·.cause.isOpen) || 0 < openDepth text

def indent (text : String) : String :=
  String.ofList (List.replicate (4 * openDepth text) ' ')

/-- The characters that are taken out of an entry: those that cannot be seen, the no-break space and
the carriage return. -/
def isInvisible (c : Char) : Bool :=
  c == '\u200B' || c == '\u200C' || c == '\u200D' || c == '\uFEFF' || c == '\u00A0' || c == '\r'

def normalize (text : String) : String :=
  String.ofList (text.toList.filter (!isInvisible ·))

def isCommandLike (text : String) : Bool := text.toList.head? == some '/'

inductive Enter where
  | submit
  | goOn (text : String)
  deriving Repr, DecidableEq

def pressEnter (text : String) : Enter :=
  if isCommandLike text || !isUnfinished text then .submit
  else .goOn (text ++ "\n" ++ indent text)

def pressBackspace (text : String) : String := String.ofList text.toList.dropLast

end Lox.Entry
