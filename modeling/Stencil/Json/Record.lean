import Stencil.Json.Reader

set_option relaxedAutoImplicit false
set_option autoImplicit false

/-!
# Reading records from JSON

Values of known shape are read straight from the text, so that a fault in the shape and a fault
in the text are reported in the order in which they are met.

## Main definitions

* `Stencil.Json.Reader.mismatch` — the failure of a value of the wrong kind.
* `Stencil.Json.Reader.boolean`, `Stencil.Json.Reader.word`, `Stencil.Json.Reader.string` — values
  of one kind.
* `Stencil.Json.Reader.record` — a record, written as an object or as an array of its fields.
-/

namespace Stencil.Json.Reader

/-- The failure at a value of another kind than the expected one. Numbers, strings and names are
read to the end, and a fault in them comes first; arrays and objects are not read. -/
def mismatch (expected : String) (s : List Char) : Error :=
  match s with
  | 'n' :: s => named ['u', 'l', 'l'] .null s
  | 't' :: s => named ['r', 'u', 'e'] (.boolean true) s
  | 'f' :: s => named ['a', 'l', 's', 'e'] (.boolean false) s
  | '"' :: s =>
    match text s with
    | .ok (t, _) => .mismatch (.kind (.text t) expected)
    | .error e => e
  | '[' :: _ => .mismatch (.kind .array expected)
  | '\x7b' :: _ => .mismatch (.kind .object expected)
  | c :: s =>
    if c = '-' ∨ c.isDigit then
      match number (c :: s) with
      | .ok (n, _) => .mismatch (.kind (.number n) expected)
      | .error e => e
    else .malformed
  | [] => .ended
where
  /-- The failure at a value with a name of its own, of which the first letter has been read. -/
  named (rest : List Char) (found : Found) (s : List Char) : Error :=
    match letters rest s with
    | .ok _ => .mismatch (.kind found expected)
    | .error e => e

/-- A truth value. -/
def boolean (s : List Char) : Except Error (Bool × List Char) :=
  match skipSpace s with
  | [] => .error .ended
  | 't' :: s => (letters ['r', 'u', 'e'] s).map fun s => (true, s)
  | 'f' :: s => (letters ['a', 'l', 's', 'e'] s).map fun s => (false, s)
  | s => .error (mismatch "a boolean" s)

/-- A natural number of 64 bits. -/
def word (s : List Char) : Except Error (Nat × List Char) :=
  match skipSpace s with
  | [] => .error .ended
  | c :: s =>
    if c = '-' ∨ c.isDigit then do
      match ← number (c :: s) with
      | (.integer (.ofNat n), s) => return (n, s)
      | (.integer i, _) => throw (.mismatch (.range (.number (.integer i)) "usize"))
      | (.double x, _) => throw (.mismatch (.kind (.number (.double x)) "usize"))
    else .error (mismatch "usize" (c :: s))

/-- A string. -/
def string (s : List Char) : Except Error (String × List Char) :=
  match skipSpace s with
  | [] => .error .ended
  | '"' :: s => text s
  | s => .error (mismatch "a string" s)

/-- The next element of an array, if there is one. -/
def element? {α : Type} (item : Reader α) (first : Bool) (s : List Char) :
    Except Error (Option α × List Char) := do
  match ← nextElement? first s with
  | none => return (none, s)
  | some s =>
    let (a, s) ← item s
    return (some a, s)

/-- The value of a field, behind the colon. A field that has been read before is refused before
its value is looked at. -/
def field {α : Type} (name : String) (item : Reader α) (earlier : Option α) (s : List Char) :
    Except Error (Option α × List Char) := do
  if earlier.isSome then throw (.mismatch (.duplicateField name))
  let (a, s) ← item (← colon s)
  return (some a, s)

/-- A record of the given name: an array, of which `fromArray` reads the elements, or an object, of
which `fromObject` reads the members and the closing brace. -/
def record {α : Type} (name : String) (fromArray fromObject : Reader α) (s : List Char) :
    Except Error (α × List Char) :=
  match skipSpace s with
  | [] => .error .ended
  | '[' :: s => do
    let (a, s) ← fromArray s
    return (a, ← closeArray s)
  | '\x7b' :: s => fromObject s
  | s => .error (mismatch ("struct " ++ name) s)

end Stencil.Json.Reader
