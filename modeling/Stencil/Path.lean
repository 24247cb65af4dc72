set_option relaxedAutoImplicit false
set_option autoImplicit false

/-!
# Paths

A path is a text whose parts are separated by slashes. Empty parts and parts that are a single
point do not count, with one exception: a point at the start of a relative path is a part of its
own. What follows the last part that counts, slashes and points, is the tail of the path.

## Main definitions

* `Stencil.Path.join` — a path inside another one.
* `Stencil.Path.parent?` — the path without its last part.
* `Stencil.Path.fileName?` — the last part, if it names something.
* `Stencil.Path.extension?` — what follows the last point of the file name.
* `Stencil.Path.withExtension` — the path with another extension.
-/

namespace Stencil.Path

/-- The start of a path, which is a part of its own, and what follows it: the slash of an absolute
path, or the point at the start of a relative one. -/
def splitStart : List Char → List Char × List Char
  | '/' :: s => (['/'], s)
  | ['.'] => (['.'], [])
  | '.' :: '/' :: s => (['.'], '/' :: s)
  | s => ([], s)

/-- Drops the tail of a path, whose characters are given from the end on. -/
def dropTail : List Char → List Char
  | '/' :: s => dropTail s
  | ['.'] => []
  | '.' :: '/' :: s => dropTail s
  | s => s

/-- The character is no slash. -/
def inPart (c : Char) : Bool := c != '/'

/-- A path inside another one. An absolute path replaces the other one; a slash is put between the
two unless there is one. -/
def join (base path : String) : String :=
  if path.toList.head? = some '/' then path
  else if base = "" ∨ base.toList.getLast? = some '/' then base ++ path
  else base ++ "/" ++ path

/-- The path without its last part, and without the tail of what is left. The root of all paths and
the empty path have no last part to leave out. -/
def parent? (path : String) : Option String :=
  let (start, body) := splitStart path.toList
  match dropTail body.reverse with
  | [] => if start = ['.'] then some "" else none
  | last => some (String.ofList (start ++ (dropTail ((last.dropWhile inPart).drop 1)).reverse))

/-- The last part of a path, between what precedes it and the tail. There is none if the path ends
at its start or steps up. -/
def splitLast? (path : List Char) : Option (List Char × List Char) :=
  let (start, body) := splitStart path
  match dropTail body.reverse with
  | [] => none
  | last =>
    let name := (last.takeWhile inPart).reverse
    if name = ['.', '.'] then none
    else some (start ++ (last.dropWhile inPart).reverse, name)

/-- The last part of a path, if it names something. -/
def fileName? (path : String) : Option String :=
  (splitLast? path.toList).map fun split => String.ofList split.2

/-- The stem of a file name, and what follows its last point. A point at the start does not count,
and a name without point has no extension. -/
def splitName (name : List Char) : List Char × Option (List Char) :=
  let ext := (name.reverse.takeWhile fun c => c != '.').reverse
  match name.reverse.dropWhile fun c => c != '.' with
  | [] => (name, none)
  | _ :: stem => if stem = [] then (name, none) else (stem.reverse, some ext)

/-- What follows the last point of the file name. -/
def extension? (path : String) : Option String :=
  (splitLast? path.toList).bind fun split => (splitName split.2).2.map String.ofList

/-- The path with another extension, which takes the place of the old one and of the tail. The
empty extension is none. A path that names nothing is left as it is. -/
def withExtension (path ext : String) : String :=
  match splitLast? path.toList with
  | none => path
  | some (front, name) =>
    String.ofList (front ++ (splitName name).1) ++ (if ext = "" then "" else "." ++ ext)

/-- The parts of a path between its slashes, the empty ones included. -/
def parts : List Char → List (List Char)
  | [] => [[]]
  | c :: cs =>
    if c = '/' then [] :: parts cs
    else
      match parts cs with
      | [] => [[c]]
      | part :: rest => (c :: part) :: rest

end Stencil.Path
