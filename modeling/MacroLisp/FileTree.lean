import MacroLisp.Fault
import MacroLisp.Text.ByteOrder

/-!
# Paths and file trees

A path is split into components at its slashes. Paths are ordered by their components, so the files
in a directory come before a file whose name merely begins like the directory's.

`Files` is what a command needs of the files around it: the text of a file, and the regular files
below a path. A `FileTree` is a tree of directories and files; `FileTree.files` looks paths up in
one: an empty component and a dot stay in a directory, two dots leave it, and any other component
names an entry. A path that is too long leads nowhere, so a walk fails at a directory whose path has
grown too long, while the files of the directory above it are still listed.
-/

namespace MacroLisp

namespace Path

def split (path : String) : List String := path.splitOn "/"

def components (path : String) : List String :=
  (split path).filter fun part => part ≠ "" && part ≠ "."

def join (directory name : String) : String :=
  if directory.toList.getLast? = some '/' then directory ++ name else directory ++ "/" ++ name

/-- Paths are ordered component by component, each by its bytes. -/
def sortKey (path : String) : List (List UInt8) := (components path).map Text.bytes

def sort (paths : List String) : List String :=
  paths.mergeSort fun a b => decide (sortKey a ≤ sortKey b)

def maxComponent : Nat := 255

def maxLength : Nat := 4095

def isTooLong (path : String) : Bool := maxLength < path.utf8ByteSize

end Path

structure WalkError where
  path : String
  error : FileError
deriving DecidableEq

structure Files where
  /-- The text of a file. -/
  readText : String → Except FileError String
  /-- Every regular file at or below a path, by its own path, in any order. -/
  walk : String → Except WalkError (List String)

inductive FileTree where
  | file (contents : ByteArray)
  | directory (entries : List (String × FileTree))

namespace FileTree

def empty : FileTree := directory []

def entries : FileTree → List (String × FileTree)
  | file _ => []
  | directory entries => entries

def put (name : String) (tree : FileTree) : List (String × FileTree) → List (String × FileTree)
  | [] => [(name, tree)]
  | (other, old) :: entries =>
    if other = name then (name, tree) :: entries else (other, old) :: put name tree entries

/-- Adds a file, or a directory where no contents are given, and the directories above it. -/
def insert (contents : Option ByteArray) : FileTree → List String → FileTree
  | tree, [] =>
    match contents with
    | some bytes => file bytes
    | none => tree
  | tree, name :: rest =>
    let below := (tree.entries.lookup name).getD empty
    directory (put name (insert contents below rest) tree.entries)

def ofList (files : List (String × Option ByteArray)) : FileTree :=
  files.foldl (fun tree f => insert f.2 tree (Path.components f.1)) empty

/-- Follows components from a directory; the trees above it, innermost first, are for two dots.
Above the outermost directory there is nothing to be found. -/
def follow : List FileTree → FileTree → List String → Except FileError FileTree
  | _, tree, [] => .ok tree
  | _, file _, _ :: _ => .error .notDirectory
  | above, directory entries, part :: parts =>
    if part = "" ∨ part = "." then follow above (directory entries) parts
    else if part = ".." then follow above.tail (above.head?.getD empty) parts
    else if Path.maxComponent < part.utf8ByteSize then .error .nameTooLong
    else
      match entries.lookup part with
      | none => .error .notFound
      | some tree => follow (directory entries :: above) tree parts

def hasNul (path : String) : Bool := path.toList.any fun c => c.toNat = 0

/-- What a path leads to; an absolute path leads out of the tree. -/
def find (tree : FileTree) (path : String) : Except FileError FileTree :=
  if hasNul path then .error .nulInPath
  else if Path.isTooLong path then .error .nameTooLong
  else if path = "" then .error .notFound
  else if path.toList.head? = some '/' then follow [] empty (Path.split path)
  else follow [] tree (Path.split path)

def readText (tree : FileTree) (path : String) : Except FileError String :=
  match tree.find path with
  | .error e => .error e
  | .ok (directory _) => .error .isDirectory
  | .ok (file contents) =>
    match String.fromUTF8? contents with
    | some text => .ok text
    | none => .error .notUtf8

mutual

def filePaths (path : String) : FileTree → Except WalkError (List String)
  | file _ => .ok [path]
  | directory entries =>
    if Path.isTooLong path then .error ⟨path, .nameTooLong⟩ else entryPaths path entries

def entryPaths (path : String) : List (String × FileTree) → Except WalkError (List String)
  | [] => .ok []
  | (name, tree) :: entries =>
    match filePaths (Path.join path name) tree with
    | .error e => .error e
    | .ok paths => (entryPaths path entries).map (paths ++ ·)

end

def walk (tree : FileTree) (path : String) : Except WalkError (List String) :=
  match tree.find path with
  | .error e => .error ⟨path, e⟩
  | .ok found => filePaths path found

def files (tree : FileTree) : Files := ⟨tree.readText, tree.walk⟩

end FileTree

end MacroLisp
