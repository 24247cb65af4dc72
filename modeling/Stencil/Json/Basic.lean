import Stencil.Json.Error

set_option relaxedAutoImplicit false
set_option autoImplicit false

/-!
# JSON documents

The tree that a JSON text stands for.

## Main definitions

* `Stencil.Json` — a document; the members of an object are sorted by key.
* `Stencil.Json.insertMember` — puts a member into a sorted list of members.
* `Stencil.Json.kindName` — what kind of value a document is, in words.
-/

namespace Stencil

/-- A JSON document. -/
inductive Json where
  | null
  | bool (b : Bool)
  | number (n : Json.Number)
  | text (s : String)
  | array (items : List Json)
  | object (members : List (String × Json))
  deriving Repr

namespace Json

/-- Puts a member into a list of members sorted by key. A member with the same key is replaced. The
order of keys is that of their code points, which is also the order of their UTF-8 bytes. -/
def insertMember (key : String) (value : Json) : List (String × Json) → List (String × Json)
  | [] => [(key, value)]
  | member :: rest =>
    if key = member.1 then (key, value) :: rest
    else if key < member.1 then (key, value) :: member :: rest
    else member :: insertMember key value rest

/-- What kind of value a document is, in words. -/
def kindName : Json → String
  | null => "null"
  | bool _ => "a boolean"
  | number _ => "a number"
  | text _ => "a string"
  | array _ => "an array"
  | object _ => "an object"

end Json

end Stencil
