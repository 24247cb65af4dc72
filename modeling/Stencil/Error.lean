import Stencil.Json.Error
import Stencil.ReadError

set_option relaxedAutoImplicit false
set_option autoImplicit false

/-!
# Failures of the engine

Unknown names and malformed tags are no failures: they are left as written or dropped. What stops
a compilation or a rendering is listed here.

One cause is missing. Markers can be so long that what recognizes tags grows too large to be built,
and a compilation with them fails. Here markers of every length can be compiled with.

## Main definitions

* `Stencil.Error` — the causes.
* `Stencil.Error.message` — their wording.
-/

namespace Stencil

/-- Why a template could not be compiled or rendered, or its data could not be read. -/
inductive Error where
  /-- A marker of the delimiters is empty. -/
  | emptyMarker (opening closing : String)
  /-- The data is no JSON object. -/
  | notAnObject (found : String)
  /-- A variable has no value, in a strict rendering. -/
  | undefinedVariable (name : String)
  /-- The text of a partial does not exist, in a strict rendering. -/
  | partialNotFound (name : String)
  /-- The text of a partial could not be read, in a strict rendering. -/
  | partialUnreadable (name : String) (cause : ReadError)
  /-- Blocks nest deeper than the limit. -/
  | nestingTooDeep (limit : Nat)
  /-- Partials include each other deeper than the limit; `name` is the one that is too deep. -/
  | recursivePartial (name : String) (limit : Nat)
  /-- A JSON text was refused. -/
  | json (cause : Json.Error)
  /-- The text of a template could not be read. -/
  | read (cause : ReadError)
  deriving Repr

/-- The wording of the failure. A JSON text that is not JSON has no wording of its own. -/
def Error.message : Error → String
  | emptyMarker opening closing =>
    "Invalid delimiters: delimiters must be non-empty (open: " ++ Text.quoted opening ++
      ", close: " ++ Text.quoted closing ++ ")"
  | notAnObject found => "Invalid context: expected a JSON object, found " ++ found
  | undefinedVariable name => "Undefined variable: " ++ name
  | partialNotFound name => "Partial not found: " ++ name
  | partialUnreadable name cause =>
    "Partial '" ++ name ++ "' could not be read: " ++ cause.message
  | nestingTooDeep limit => "Sections nested deeper than " ++ Nat.repr limit ++ " levels"
  | recursivePartial name limit =>
    "Recursive partial inclusion detected (depth > " ++ Nat.repr limit ++ "): " ++ name
  | json (.mismatch cause) => "JSON error: " ++ cause.message
  | json .ended => "JSON error: unexpected end"
  | json .malformed => "JSON error: malformed text"
  | read cause => "I/O error: " ++ cause.message

end Stencil
