import Stencil.Json.Number
import Stencil.Text.Quoted

set_option relaxedAutoImplicit false
set_option autoImplicit false

/-!
# Failures of reading JSON

A text is refused because it ends too early, because it is not JSON, or because it is JSON of
another shape than the one asked for. Only the last has something to say about the value found.

## Main definitions

* `Stencil.Json.Found` — a value met where another one was asked for.
* `Stencil.Json.Mismatch` — how a value differs from the shape asked for.
* `Stencil.Json.Error` — why a text was refused.
* `Stencil.Json.Mismatch.message` — the wording of a mismatch.
-/

namespace Stencil.Json

/-- A value met where another one was asked for. Of arrays and objects only the kind is known,
since they are not read on. -/
inductive Found where
  | null
  | boolean (b : Bool)
  | number (n : Number)
  | text (s : String)
  | array
  | object
  deriving Repr

/-- The found value in a message. -/
def Found.description : Found → String
  | null => "null"
  | boolean b => "boolean `" ++ (if b then "true" else "false") ++ "`"
  | number (.integer i) => "integer `" ++ Number.text (.integer i) ++ "`"
  | number (.double x) => "floating point `" ++ Number.text (.double x) ++ "`"
  | text s => "string " ++ Text.quoted s
  | array => "sequence"
  | object => "map"

/-- How a well-formed value differs from the shape asked for. -/
inductive Mismatch where
  /-- The value is of another kind. -/
  | kind (found : Found) (expected : String)
  /-- The value is of the right kind and out of range. -/
  | range (found : Found) (expected : String)
  /-- The record has no such field; the fields it has are listed. -/
  | unknownField (name : String) (fields : List String)
  /-- The field occurs twice. -/
  | duplicateField (name : String)
  /-- The field does not occur. -/
  | missingField (name : String)
  /-- The sequence is shorter than the record it is read into. -/
  | length (found : Nat) (expected : String)
  /-- The values have the right shape and are refused for another reason. -/
  | refused (reason : String)
  deriving Repr

/-- The wording of a mismatch. -/
def Mismatch.message : Mismatch → String
  | kind found expected => "invalid type: " ++ found.description ++ ", expected " ++ expected
  | range found expected => "invalid value: " ++ found.description ++ ", expected " ++ expected
  | unknownField name fields =>
    "unknown field `" ++ name ++ "`, expected " ++
      " or ".intercalate (fields.map fun field => "`" ++ field ++ "`")
  | duplicateField name => "duplicate field `" ++ name ++ "`"
  | missingField name => "missing field `" ++ name ++ "`"
  | length found expected => "invalid length " ++ Nat.repr found ++ ", expected " ++ expected
  | refused reason => reason

/-- Why a text was refused. -/
inductive Error where
  /-- The text ends too early. -/
  | ended
  /-- The text is not JSON, or exceeds a limit of the reader. -/
  | malformed
  /-- The text is JSON of another shape than the one asked for. -/
  | mismatch (cause : Mismatch)
  deriving Repr

end Stencil.Json
