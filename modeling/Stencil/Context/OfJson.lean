import Stencil.Context
import Stencil.Error
import Stencil.Json.Reader

set_option relaxedAutoImplicit false
set_option autoImplicit false

/-!
# Contexts from JSON

An object becomes a context. Its members without value, those that are null, are left out; the
elements of an array keep their number, and each of them that is no object becomes a context
without entries.

## Main definitions

* `Stencil.Context.ofJson` — the context of a JSON document.
* `Stencil.Context.ofText` — the context of a JSON text.
-/

namespace Stencil

mutual

/-- The value of a document; null has none. -/
def Value.ofJson? : Json → Option Value
  | .null => none
  | .bool b => some (.bool b)
  | .number n => some (.scalar n.text)
  | .text s => some (.scalar s)
  | .array items => some (.list (Context.ofElements items))
  | .object members => some (.map (Context.ofEntries (Context.entriesOfMembers members)))

/-- The contexts of the elements of an array: an element that is no object has no entries. -/
def Context.ofElements : List Json → List Context
  | [] => []
  | .object members :: rest =>
    Context.ofEntries (Context.entriesOfMembers members) :: Context.ofElements rest
  | _ :: rest => Context.empty :: Context.ofElements rest

/-- The entries of the members of an object. -/
def Context.entriesOfMembers : List (String × Json) → List (String × Value)
  | [] => []
  | (key, json) :: rest =>
    match Value.ofJson? json with
    | some value => (key, value) :: Context.entriesOfMembers rest
    | none => Context.entriesOfMembers rest

end

namespace Context

/-- The context of a document, which must be an object. -/
def ofJson : Json → Except Error Context
  | .object members => .ok (ofEntries (entriesOfMembers members))
  | json => .error (.notAnObject json.kindName)

/-- The context of a JSON text. -/
def ofText (s : String) : Except Error Context :=
  match Json.ofText s with
  | .ok json => ofJson json
  | .error e => .error (.json e)

end Context

end Stencil
