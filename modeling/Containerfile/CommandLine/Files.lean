import Containerfile.Failure

/-!
# Files

A run sees files only by reading them, so what it sees is a function from paths to texts.  One such
function comes from a tree of files that is given as a value.  There a path is walked name by name
from the working directory.  A name leads on only from a directory, and so does a dot or a slash
behind a name.  What lies outside the working directory is not known: nothing is found there.

## Main definitions

* `FileView`, `FileView.contains` — what can be read at each path.
* `FileTree`, `FileTree.read`, `FileTree.write` — the files below the working directory.
-/

namespace Containerfile

/-- What can be read at each path. -/
abbrev FileView := Text → Except FileError Text

/-- Whether there is something at a path, be it no file or no text. -/
def FileView.contains (view : FileView) (path : Text) : Bool :=
  match view path with
  | .ok _ | .error .isADirectory | .error .invalidData | .error (.refused _) => true
  | .error .notFound | .error .notADirectory | .error .invalidPath | .error .nameTooLong => false

/-! ## Trees -/

/-- What a file holds: text, or bytes that are no text. -/
inductive Content where
  | text (text : Text)
  | binary
deriving DecidableEq, Repr

/-- The names that lead to a file from the working directory. -/
abbrev Path := List Text

namespace Path

/-- The parts of a text between slashes. -/
def segments : Text → List Text
  | [] => [[]]
  | c :: s =>
    if c = '/' then [] :: segments s
    else
      match segments s with
      | [] => [[c]]
      | first :: rest => (c :: first) :: rest

/-- The steps of the path that a text is: names, dots and double dots. -/
def steps (s : Text) : List Text :=
  (segments s).filter fun c => !c.isEmpty

/-- The path with one more step. -/
def step (path : Path) (name : Text) : Path :=
  if name = ['.'] then path
  else if name = ['.', '.'] then path.dropLast
  else path ++ [name]

/-- The names that a text leads along, if all of them are there. -/
def ofText (s : Text) : Path :=
  (steps s).foldl step []

/-- The greatest size of a name, in bytes. -/
def maxName : Nat := 255

/-- The greatest size of a whole path, in bytes. -/
def maxSize : Nat := 4095

/-- Why a text is not even looked up as a path. -/
def refusal? (s : Text) : Option FileError :=
  if s.contains '\x00' then some .invalidPath
  else if s.isEmpty then some .notFound
  else if s.byteSize > maxSize then some .nameTooLong
  else none

/-- Whether a path ends in a slash, and so can only lead to a directory. -/
def endsInSlash (s : Text) : Bool :=
  s.getLast? == some '/'

end Path

/-- The files below the working directory; of two with one path, the last counts. -/
structure FileTree where
  files : List (Path × Content)
deriving DecidableEq, Repr

namespace FileTree

/-- What a path leads to. -/
inductive Node where
  | file (content : Content)
  | directory
  | missing
deriving DecidableEq, Repr

/-- Where a path leads: to names from the working directory, or out of it. -/
inductive Place where
  | below (path : Path)
  | outside
deriving DecidableEq, Repr

/-- The tree of files whose paths are texts. -/
def ofList (files : List (Text × Content)) : FileTree :=
  ⟨files.map fun f => (Path.ofText f.1, f.2)⟩

/-- What the names from the working directory lead to. -/
def nodeAt (tree : FileTree) (path : Path) : Node :=
  match tree.files.reverse.find? fun f => f.1 == path with
  | some (_, content) => .file content
  | none =>
    if path.isEmpty || tree.files.any fun f => path.isPrefixOf f.1 then .directory
    else .missing

/-- The place behind a directory that a step leads to, and what is there. -/
def stepFrom (tree : FileTree) : Place → Text → Place × Node
  | .outside, name =>
    if name = ['.'] || name = ['.', '.'] then (.outside, .directory) else (.outside, .missing)
  | .below path, name =>
    if name = ['.', '.'] && path.isEmpty then (.outside, .directory)
    else (.below (path.step name), tree.nodeAt (path.step name))

/-- What steps lead to, from a directory on. -/
def walk (tree : FileTree) : Place → List Text → Except FileError (Place × Node)
  | place, [] => .ok (place, .directory)
  | place, name :: names =>
    if Text.byteSize name > Path.maxName then .error .nameTooLong
    else
      match tree.stepFrom place name, names with
      | (next, .directory), names => walk tree next names
      | (next, node), [] => .ok (next, node)
      | (_, .missing), _ :: _ => .error .notFound
      | (_, .file _), _ :: _ => .error .notADirectory

/-- The place where a path starts. -/
def origin (path : Text) : Place :=
  if path.head? = some '/' then .outside else .below []

/-- The text of the file at a path. -/
def read (tree : FileTree) : FileView := fun path =>
  match Path.refusal? path with
  | some e => .error e
  | none =>
    match tree.walk (origin path) (Path.steps path) with
    | .error e => .error e
    | .ok (_, .missing) => .error .notFound
    | .ok (_, .directory) => .error .isADirectory
    | .ok (_, .file content) =>
      if Path.endsInSlash path then .error .notADirectory
      else
        match content with
        | .text s => .ok s
        | .binary => .error .invalidData

/-- The tree with a text at a place.  Outside the working directory it is lost. -/
def put (tree : FileTree) : Place → Text → FileTree
  | .below path, text => ⟨tree.files ++ [(path, .text text)]⟩
  | .outside, _ => tree

/-- Why nothing can be written to a path that ends in a slash: there could only be a directory, if
the steps before the last one lead to a directory at all. -/
def slashError (tree : FileTree) (path : Text) : FileError :=
  match tree.walk (origin path) (Path.steps path).dropLast with
  | .error e => e
  | .ok (_, .missing) => .notFound
  | .ok (_, .file _) => .notADirectory
  | .ok (_, .directory) => .isADirectory

/-- The tree with a text written to a path. -/
def write (tree : FileTree) (path text : Text) : Except FileError FileTree :=
  match Path.refusal? path with
  | some e => .error e
  | none =>
    if Path.endsInSlash path then .error (tree.slashError path)
    else
      match tree.walk (origin path) (Path.steps path) with
      | .error e => .error e
      | .ok (_, .directory) => .error .isADirectory
      | .ok (place, _) => .ok (tree.put place text)

end FileTree

end Containerfile
