import Stencil.FileTree
import Stencil.Loader

set_option relaxedAutoImplicit false
set_option autoImplicit false

/-!
# Loading from a directory

Identifiers may be paths, relative to a base directory. With a default extension, an identifier
without extension of its own gets it.

## Main definitions

* `Stencil.DirectoryLoader` — a base directory and a default extension.
* `Stencil.DirectoryLoader.resolve?` — the path that an identifier refers to.
* `Stencil.DirectoryLoader.loader` — the loader that reads the files of a tree.
-/

namespace Stencil

/-- Where the texts with identifiers lie. -/
structure DirectoryLoader where
  /-- The directory that identifiers are relative to. -/
  base : String
  /-- The extension of identifiers that have none. -/
  ext : Option String
  deriving DecidableEq, Repr

namespace DirectoryLoader

/-- The loader for the partials of a template, which lie in the same directory. -/
def forTemplate (path : String) (ext : Option String) : DirectoryLoader :=
  ⟨(Path.parent? path).getD ".", ext⟩

/-- The path that an identifier refers to. There is none if a default extension is called for that
contains a slash. -/
def resolve? (d : DirectoryLoader) (id : String) : Option String :=
  let path := Path.join d.base id
  match d.ext with
  | none => some path
  | some ext =>
    if ext = "" ∨ (Path.extension? id).isSome then some path
    else if '/' ∈ ext.toList then none
    else some (Path.withExtension path ext)

/-- The text of the file that an identifier refers to. If there is no path for the identifier, since
the default extension contains a slash, then asking for the text ends the program. This is written
as a failure to read here, and its wording is made up. -/
def load (d : DirectoryLoader) (files : FileTree) (id : String) : Except LoadError String :=
  match d.resolve? id with
  | none => .error (.unreadable id (.other "extension contains a separator"))
  | some path =>
    match files.readText path with
    | .ok text => .ok text
    | .error .notFound => .error (.notFound id)
    | .error cause => .error (.unreadable id cause)

/-- The loader that reads the files of a tree. -/
def loader (d : DirectoryLoader) (files : FileTree) : Loader := ⟨d.load files⟩

end DirectoryLoader

end Stencil
