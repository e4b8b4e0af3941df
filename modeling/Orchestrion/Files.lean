import Orchestrion.Text

/-!
# Files

A tree of directories and files, and what opening a path in it comes to. A path is followed name by
name, from the root if it begins with a slash and else from the working directory; every name but
the last has to be that of a directory.
-/

namespace Orchestrion

/-- Why a file cannot be opened or read. -/
inductive FileError where
  | absent
  | notDirectory
  | isDirectory
  | nameTooLong
  | other (reason : Text)
deriving DecidableEq, Repr

def FileError.message : FileError → Text
  | absent => "no such file or directory"
  | notDirectory => "not a directory"
  | isDirectory => "is a directory"
  | nameTooLong => "file name too long"
  | other reason => reason

/-- What a path can lead to. -/
inductive FileEntry where
  | file (content : Text)
  /-- A device that is always empty, whatever is written to it. -/
  | void
  | directory (entries : List (Text × FileEntry))

namespace FileEntry

def at? : List Text → FileEntry → Option FileEntry
  | [], e => some e
  | name :: names, directory entries => (entries.lookup name).bind (at? names)
  | _ :: _, _ => none

def replaceIn (name : Text) (e : FileEntry) (entries : List (Text × FileEntry)) :
    List (Text × FileEntry) :=
  (name, e) :: entries.filter fun other => other.1 ≠ name

def write (content : Text) : List Text → FileEntry → FileEntry
  | [], void => void
  | [], _ => file content
  | name :: names, directory entries =>
    directory (replaceIn name (write content names ((entries.lookup name).getD (file []))) entries)
  | _ :: _, e => e

end FileEntry

/-- The files that a program sees. -/
structure FileTree where
  root : FileEntry
  /-- The names that lead from the root to the working directory. -/
  here : List Text

namespace FileTree

def maxName : Nat := 255

def maxPath : Nat := 4096

def same : Text := "."

def parent : Text := ".."

def names (path : Text) : List Text := path.splitOn 47

def start (t : FileTree) (path : Text) : List Text := if path.head? = some 47 then [] else t.here

def follow (t : FileTree) (place : List Text) (name : Text) : Except FileError (List Text) :=
  match t.root.at? place with
  | some (.directory entries) =>
    if name.isEmpty || name = same then .ok place
    else if name = parent then .ok place.dropLast
    else if maxName < name.length then .error .nameTooLong
    else if (entries.lookup name).isSome then .ok (place ++ [name])
    else .error .absent
  | _ => .error .notDirectory

def pathFault? (path : Text) : Option FileError :=
  if path.isEmpty then some .absent
  else if maxPath ≤ path.length then some .nameTooLong
  else none

def locate (t : FileTree) (path : Text) : Except FileError (List Text) :=
  match pathFault? path with
  | some e => .error e
  | none => (names path).foldlM t.follow (t.start path)

def read (t : FileTree) (path : Text) : Except FileError (Except FileError Text) := do
  match t.root.at? (← t.locate path) with
  | some (.file content) => return .ok content
  | some .void => return .ok []
  | some (.directory _) => return .error .isDirectory
  | none => throw .absent

def create (t : FileTree) (path : Text) : Except FileError (List Text) := do
  if let some e := pathFault? path then throw e
  let all := names path
  match (all.reverse.dropWhile List.isEmpty) with
  | [] => throw .isDirectory
  | last :: before =>
    let place ← before.reverse.foldlM t.follow (t.start path)
    match t.root.at? place with
    | some (.directory entries) =>
      if last = same || last = parent || all.getLast? = some [] then throw .isDirectory
      else if maxName < last.length then throw .nameTooLong
      else
        match entries.lookup last with
        | some (.directory _) => throw .isDirectory
        | _ => return place ++ [last]
    | _ => throw .notDirectory

def write (t : FileTree) (path content : Text) : FileTree :=
  match t.create path with
  | .ok place => { t with root := t.root.write content place }
  | .error _ => t

def isSame (t : FileTree) (readPath createPath : Text) : Bool :=
  match t.locate readPath, t.create createPath with
  | .ok p, .ok q => p = q
  | _, _ => false

end FileTree

end Orchestrion
