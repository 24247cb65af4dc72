import Stencil.Path
import Stencil.ReadError
import Stencil.Text.Utf8

set_option relaxedAutoImplicit false
set_option autoImplicit false

/-!
# File trees

Files and directories as one tree, and what happens when a file in it is read by its path.

## Main definitions

* `Stencil.FileTree` — a file, or a directory of named trees.
* `Stencil.FileTree.put` — puts a tree into a tree.
* `Stencil.FileTree.find` — the tree at a path.
* `Stencil.FileTree.readText` — the text of the file at a path.
-/

namespace Stencil

/-- A file with its bytes, or a directory of named files and directories. -/
inductive FileTree where
  | file (bytes : ByteArray)
  | directory (entries : List (String × FileTree))

namespace FileTree

instance : Inhabited FileTree := ⟨directory []⟩

/-- The entries of a directory; a file has none. -/
def entries : FileTree → List (String × FileTree)
  | file _ => []
  | directory entries => entries

/-- The tree with a file or directory at the end of a list of names; directories on the way are
made. A directory that is there already stays. -/
def put (node : FileTree) : List String → FileTree → FileTree
  | [], tree =>
    match node, tree with
    | directory [], directory entries => directory entries
    | _, _ => node
  | name :: names, tree =>
    let old := (tree.entries.lookup name).getD (directory [])
    directory ((name, put node names old) :: tree.entries.filter fun entry => entry.1 != name)

/-- The greatest number of bytes of a part of a path. -/
def maxNameLength : Nat := 255

/-- The greatest number of bytes of a path. -/
def maxPathLength : Nat := 4095

/-- Follows the parts of a path from a tree, below the given trees, the innermost first. Two points
step up, the empty part and a single point stay, and only a directory can be left. -/
def follow (above : List FileTree) (tree : FileTree) :
    List (List Char) → Except ReadError FileTree
  | [] => .ok tree
  | part :: parts =>
    match tree with
    | file _ => .error .notDirectory
    | directory entries =>
      if part = [] ∨ part = ['.'] then follow above tree parts
      else if part = ['.', '.'] then
        match above with
        | [] => follow [] tree parts
        | parent :: above => follow above parent parts
      else if maxNameLength < Text.byteLength part then .error .nameTooLong
      else
        match entries.lookup (String.ofList part) with
        | none => .error .notFound
        | some child => follow (tree :: above) child parts

/-- The tree at a path, which starts at the root of the tree. -/
def find (tree : FileTree) (path : String) : Except ReadError FileTree :=
  let cs := path.toList
  if '\x00' ∈ cs then .error .nullInName
  else if path = "" then .error .notFound
  else if maxPathLength < Text.byteLength cs then .error .nameTooLong
  else
    match Path.parts cs with
    | [] :: parts => follow [] tree parts
    | parts => follow [] tree parts

/-- The text of the file at a path. -/
def readText (tree : FileTree) (path : String) : Except ReadError String :=
  match tree.find path with
  | .error e => .error e
  | .ok (directory _) => .error .isDirectory
  | .ok (file bytes) =>
    match String.fromUTF8? bytes with
    | some text => .ok text
    | none => .error .notText

end FileTree

end Stencil
