/-!
# Search for a file

Directories are searched in order for a file or directory with a given relative
path.  A path is a list of names below a root, in which `..` leads to the parent.
-/

namespace ExactAlgebra.Configuration

/-- A path below the root. -/
abbrev Location := List String

/-- The directories and files below a root. -/
structure FileTree where
  directories : List Location
  files : List Location
  deriving DecidableEq, Repr

namespace FileTree

/-! ## Paths -/

/-- The names in a path; empty ones and single points are left out. -/
def names (path : String) : List String :=
  (path.splitOn "/").filter fun name => name != "" && name != "."

/-- The location that a path leads to by its names alone. -/
def resolve (path : List String) : Option Location :=
  path.foldlM (fun location name =>
    if name = ".." then (if location.isEmpty then none else some location.dropLast)
    else some (location ++ [name])) []

/-- The tree with some directories and files, and the directories above them. -/
def ofPaths (directories files : List String) : FileTree :=
  let ancestors (path : Location) : List Location :=
    (List.range path.length).map path.take
  let named := directories.map names
  let files := files.map names
  ⟨[] :: named ++ named.flatMap ancestors ++ files.flatMap ancestors, files⟩

/-! ## Search -/

def isDirectory (tree : FileTree) (location : Location) : Bool :=
  tree.directories.contains location

/-- True for a path that can be followed from a directory, step by step. -/
def canFollow (tree : FileTree) (start : Location) : List String → Bool
  | [] => tree.isDirectory start || tree.files.contains start
  | name :: rest =>
      tree.isDirectory start &&
        if name = ".." then !start.isEmpty && canFollow tree start.dropLast rest
        else canFollow tree (start ++ [name]) rest

/-- The path of a file below the first of several directories that has it.  Empty
paths are skipped. -/
def search (tree : FileTree) (paths : List (Option String)) (file : String) :
    Option String :=
  paths.findSome? fun path => do
    let path ← path
    if path.isEmpty then none
    else
      let directory ← resolve (names path)
      if tree.isDirectory directory && tree.canFollow directory (names file) then
        match directory ++ names file with
        | [] => some "."
        | found => some ("/".intercalate found)
      else none

end FileTree

end ExactAlgebra.Configuration
