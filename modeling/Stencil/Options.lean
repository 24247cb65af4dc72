import Stencil.Error
import Stencil.Json.Record

set_option relaxedAutoImplicit false
set_option autoImplicit false

/-!
# Options of a rendering

## Main definitions

* `Stencil.Options` — whether warnings are failures, and how deep partials may include partials.
* `Stencil.Options.ofText` — the options that a JSON text holds.
-/

namespace Stencil

/-- How a template is rendered. -/
structure Options where
  /-- What would be a warning is a failure. -/
  strict : Bool := false
  /-- How deep partials may include partials. -/
  maxPartialDepth : Nat := 50
  deriving DecidableEq, Repr, Inhabited

namespace Options

open Json.Reader

/-- The options as a record in JSON. Every field may be left out, and there are no other fields. -/
def reader : Json.Reader Options :=
  record "RenderOptions"
    (fun s => do
      let (strict, s) ← element? boolean true s
      let (depth, s) ← element? word false s
      return (fromFields strict depth, s))
    (fun s => do
      let ((strict, depth), s) ← members text step (s.length + 1) true (none, none) s
      return (fromFields strict depth, s))
where
  /-- The options with the given fields; a field that is missing keeps its default. -/
  fromFields (strict : Option Bool) (depth : Option Nat) : Options :=
    let defaults : Options := {}
    ⟨strict.getD defaults.strict, depth.getD defaults.maxPartialDepth⟩
  /-- Reads the field with the given key. -/
  step (fields : Option Bool × Option Nat) (key : String) :
      Json.Reader (Option Bool × Option Nat) := fun s => do
    if key = "strict" then
      let (strict, s) ← field key boolean fields.1 s
      return ((strict, fields.2), s)
    else if key = "max-partial-depth" then
      let (depth, s) ← field key word fields.2 s
      return ((fields.1, depth), s)
    else
      throw (.mismatch (.unknownField key ["strict", "max-partial-depth"]))

/-- The options that a JSON text holds. -/
def ofText (s : String) : Except Error Options :=
  (whole reader s).mapError .json

end Options

end Stencil
