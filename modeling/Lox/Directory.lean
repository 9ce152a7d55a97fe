import Lox.Text.Lines
import Lox.Text.Quoted

namespace Lox

inductive ReadError where
  | noSuchFile
  | notPermitted
  | notDirectory
  | isDirectory
  | nameTooLong
  /-- The bytes of the file are not UTF-8. -/
  | notText
  deriving Repr, DecidableEq

/-- A path as its components, each neither empty nor `.`, after its root. -/
structure Path where
  root : String
  components : List String
  deriving Repr, DecidableEq

namespace Path

/-- A path cut at its slashes. Two leading slashes are a root of their own. -/
def ofString (text : String) : Path :=
  let slashes := (text.toList.takeWhile (· == '/')).length
  let components := (text.splitOn "/").filter fun part => part ≠ "" ∧ part ≠ "."
  { root := if slashes = 0 then "" else if slashes = 2 then "//" else "/", components }

def spelled (p : Path) : String :=
  if p.root.isEmpty && p.components.isEmpty then "."
  else p.root ++ "/".intercalate p.components

end Path

def ReadError.message (e : ReadError) (path : Path) : String :=
  let reason := match e with
    | .noSuchFile => "[Errno 2] No such file or directory"
    | .notPermitted => "[Errno 13] Permission denied"
    | .notDirectory => "[Errno 20] Not a directory"
    | .isDirectory => "[Errno 21] Is a directory"
    | .nameTooLong => "[Errno 36] File name too long"
    | .notText => "[Errno 84] Invalid or incomplete multibyte or wide character"
  reason ++ ": " ++ Text.quoted path.spelled

structure Directory where
  files : List (String × ByteArray)

namespace Directory

inductive Entry where
  | file (bytes : ByteArray)
  | directory

def entry? (d : Directory) (names : List String) : Option Entry :=
  let known := d.files.map fun (name, bytes) => ((Path.ofString name).components, bytes)
  match known.find? fun (components, _) => components == names with
  | some (_, bytes) => some (.file bytes)
  | none =>
      if names.isEmpty || known.any fun (components, _) => names.isPrefixOf components then
        some .directory
      else none

def maxNameLength : Nat := 255

/-- Follows names from a place in a directory, which is given with its last name first. What lies
outside of the directory is taken to be empty. -/
def follow (d : Directory) (place : List String) : List String → Except ReadError Entry
  | [] => match d.entry? place.reverse with
      | some found => .ok found
      | none => .error .noSuchFile
  | name :: rest =>
      match d.entry? place.reverse with
      | none => .error .noSuchFile
      | some (.file _) => .error .notDirectory
      | some .directory =>
          if maxNameLength < name.utf8ByteSize then .error .nameTooLong
          else if name = ".." then
            match place with
            | [] => follow ⟨[]⟩ [] rest
            | _ :: above => follow d above rest
          else follow d (name :: place) rest

def read (d : Directory) (path : Path) : Except ReadError String := do
  let start := if path.root.isEmpty then d else ⟨[]⟩
  match ← start.follow [] path.components with
  | .directory => throw .isDirectory
  | .file bytes => match String.fromUTF8? bytes with
      | some text => return Text.unifyLineEnds text
      | none => throw .notText

end Directory

end Lox
