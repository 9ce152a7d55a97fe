import Lox.Parser.Error

namespace Lox

/-- The tokens that are left, the mark of the end, the number of tokens read, the errors so far,
and whether the nesting limit was reported. -/
structure Parser.State where
  rest : List Token
  eof : Token
  position : Nat := 0
  errors : Array ParseError := #[]
  tooDeep : Bool := false

abbrev Parser (α : Type) := EStateM ParseError Parser.State α

namespace Parser

def peek : Parser Token := return (← get).rest.headD (← get).eof

def remaining : Parser (List Token) := return (← get).rest

def position : Parser Nat := return (← get).position

def atEnd : Parser Bool := return (← get).rest.isEmpty

def advance : Parser Unit :=
  modify fun s => match s.rest with
    | [] => s
    | _ :: rest => { s with rest, position := s.position + 1 }

def check (kinds : Token.Kind → Bool) : Parser Bool := do
  match (← get).rest with
  | [] => return false
  | t :: _ => return kinds t.kind

def accept? (kinds : Token.Kind → Bool) : Parser (Option Token) := do
  match (← get).rest with
  | [] => return none
  | t :: _ => if kinds t.kind then do advance; return some t else return none

def accept (kind : Token.Kind) : Parser Bool := return (← accept? (· == kind)).isSome

def note (cause : ParseError.Cause) (token : Token) (index : Nat) : Parser Unit :=
  modify fun s => { s with errors := s.errors.push ⟨cause, token, index⟩ }

def noteHere (cause : ParseError.Cause) : Parser Unit := do
  note cause (← peek) (← position)

def fail {α : Type} (cause : ParseError.Cause) : Parser α := do
  noteHere cause
  throw ⟨cause, ← peek, ← position⟩

/-- Stops because constructs are nested too deep, which is noted only once. -/
def failTooDeep {α : Type} : Parser α := do
  if (← get).tooDeep then throw ⟨.nestedTooDeep, ← peek, ← position⟩
  modify fun s => { s with tooDeep := true }
  fail .nestedTooDeep

def expect (kind : Token.Kind) (cause : ParseError.Cause) : Parser Token := do
  match ← accept? (· == kind) with
  | some t => return t
  | none => fail cause

def expectMark (mark : ParseError.Mark) (place : ParseError.Place) : Parser Unit := do
  discard (expect mark.kind (.missingMark mark place))

def expectName (role : ParseError.Role) : Parser Token :=
  expect .identifier (.missingName role)

def skipStatement (last : Token) : (rest : List Token) → (skipped : Nat) → List Token × Nat
  | [], skipped => ([], skipped)
  | t :: rest, skipped =>
      if last.kind == .semicolon || t.kind.startsStatement then (t :: rest, skipped)
      else skipStatement t rest (skipped + 1)

def synchronize : Parser Unit :=
  modify fun s => match s.rest with
    | [] => s
    | t :: rest =>
        let (rest, position) := skipStatement t rest (s.position + 1)
        { s with rest, position }

/-- Reads with `p`. When it stops at an error, what it read is dropped and reading resumes at the
next statement. -/
def recover {α : Type} (p : Parser α) : Parser (Option α) :=
  tryCatch (some <$> p) fun _ => do
    synchronize
    return none

/-- Items with commas between them, one at least. `bound` limits the number of further items,
`count` is the number of those in `done`, which are in reverse order. -/
def commaListAfter {α : Type} (role : ParseError.Role) (item : Parser α) :
    (bound : List Token) → (count : Nat) → (done : List α) → Parser (List α)
  | bound, count, done => do
      if ParseError.maxListLength ≤ count then noteHere (.tooMany role)
      let done := (← item) :: done
      match bound with
      | [] => return done.reverse
      | _ :: bound =>
          if ← accept .comma then commaListAfter role item bound (count + 1) done
          else return done.reverse

def commaList {α : Type} (role : ParseError.Role) (item : Parser α) : Parser (List α) := do
  if ← check (· == .rightParen) then return []
  commaListAfter role item (← remaining) 0 []

end Parser

end Lox
