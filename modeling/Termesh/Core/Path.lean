import Mathlib.Tactic.Common

/-!
# Paths

A path is the list of its components, as `Path::components` yields them: repeated separators and
inner `.` are gone, `..` is kept. Equality and `starts_with` of the source compare components.

* `ofString`, `display`: a path and its text;
* `isAbsolute`, `startsWith`, `join`, `parent`, `fileName`;
* `normalise`: every `..` resolved lexically, `..` at the root staying there.
-/

namespace Termesh

/-- One component of a path. -/
inductive Component where
  | rootDir
  | curDir
  | parentDir
  | normal (name : String)
deriving DecidableEq, Repr

/-- A path as its components. -/
abbrev Path := List Component

namespace Path

instance : LawfulBEq Path := inferInstance

/-- The pieces of a text between separators. -/
def splitSlash : List Char → List (List Char)
  | [] => [[]]
  | c :: cs =>
    if c = '/' then [] :: splitSlash cs
    else
      match splitSlash cs with
      | [] => [[c]]
      | piece :: pieces => (c :: piece) :: pieces

/-- A piece behind the first one; empty pieces and `.` vanish. -/
def component (piece : List Char) : Option Component :=
  if piece = [] ∨ piece = ['.'] then none
  else if piece = ['.', '.'] then some .parentDir
  else some (.normal (String.ofList piece))

/-- `PathBuf::from`, up to path equality. -/
def ofString (s : String) : Path :=
  match splitSlash s.toList with
  | [] => []
  | [] :: pieces =>
    if pieces = [] then [] else .rootDir :: pieces.filterMap component
  | ['.'] :: pieces => .curDir :: pieces.filterMap component
  | pieces => pieces.filterMap component

def Component.display : Component → String
  | .rootDir => ""
  | .curDir => "."
  | .parentDir => ".."
  | .normal name => name

/-- `Path::display`. -/
def display (p : Path) : String :=
  match p with
  | [.rootDir] => "/"
  | p => String.intercalate "/" (p.map Component.display)

/-- `Path::is_absolute`. -/
def isAbsolute (p : Path) : Bool := p.head? == some .rootDir

/-- `Path::starts_with`: a component-wise prefix test. -/
def startsWith (p root : Path) : Bool := root.isPrefixOf p

/-- `Path::join` with one name. -/
def join (p : Path) (name : String) : Path := p ++ [.normal name]

/-- `Path::parent`: nothing above the root or the empty path. -/
def parent (p : Path) : Option Path :=
  match p.getLast? with
  | none | some .rootDir => none
  | some _ => some p.dropLast

/-- `Path::file_name`: the last component if it is a name. -/
def fileName (p : Path) : Option String :=
  match p.getLast? with
  | some (.normal name) => some name
  | _ => none

/-- One more component behind a resolved path, which is kept last component first. -/
def resolve : List Component → Component → List Component
  | acc, .curDir => acc
  | .normal _ :: acc, .parentDir => acc
  | .rootDir :: acc, .parentDir => .rootDir :: acc
  | acc, c => c :: acc

/-- Lexical normalisation. -/
def normalise (p : Path) : Path := (p.foldl resolve []).reverse

end Path

end Termesh
