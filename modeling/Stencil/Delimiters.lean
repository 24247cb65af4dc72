import Stencil.Error
import Stencil.Json.Record

set_option relaxedAutoImplicit false
set_option autoImplicit false

/-!
# Delimiters

Every tag stands between an opening and a closing marker, two texts that are not empty. They may
hold any characters, also some that occur inside tags.

## Main definitions

* `Stencil.Delimiters` — a pair of markers.
* `Stencil.Delimiters.ofMarkers` — the pair, unless a marker is empty.
* `Stencil.Delimiters.ofText` — the pair that a JSON text holds.
* `Stencil.Delimiters.escaped` — a marker as a pattern of a regular expression.
-/

namespace Stencil

/-- The markers around a tag. -/
structure Delimiters where
  /-- The text that starts a tag. -/
  opening : String
  /-- The text that ends a tag. -/
  closing : String
  /-- Something starts a tag. -/
  opening_ne : opening ≠ ""
  /-- Something ends a tag. -/
  closing_ne : closing ≠ ""
  deriving DecidableEq, Repr

namespace Delimiters

/-- Two braces on either side. -/
def standard : Delimiters := ⟨"\x7b\x7b", "\x7d\x7d", by decide, by decide⟩

instance : Inhabited Delimiters := ⟨standard⟩

/-- The pair of markers, unless one is empty. -/
def ofMarkers (opening closing : String) : Except Error Delimiters :=
  if h : opening = "" ∨ closing = "" then .error (.emptyMarker opening closing)
  else .ok ⟨opening, closing, fun e => h (.inl e), fun e => h (.inr e)⟩

/-! ### Reading from JSON -/

open Json.Reader

/-- The two markers as a record in JSON. Other fields of an object are skipped. -/
def markersReader : Json.Reader (String × String) :=
  record name
    (fun s => do
      let (opening, s) ← element? string true s
      let opening ← opening.elim (throw (tooShort 0)) pure
      let (closing, s) ← element? string false s
      let closing ← closing.elim (throw (tooShort 1)) pure
      return ((opening, closing), s))
    (fun s => do
      let ((opening, closing), s) ← members text step (s.length + 1) true (none, none) s
      let opening ← opening.elim (throw (.mismatch (.missingField "open"))) pure
      let closing ← closing.elim (throw (.mismatch (.missingField "close"))) pure
      return ((opening, closing), s))
where
  /-- What the record is called in messages. -/
  name : String := "RawDelimiters"
  /-- An array with fewer than two elements. -/
  tooShort (n : Nat) : Json.Error :=
    .mismatch (.length n ("struct " ++ name ++ " with 2 elements"))
  /-- Reads the field with the given key. -/
  step (fields : Option String × Option String) (key : String) :
      Json.Reader (Option String × Option String) := fun s => do
    if key = "open" then
      let (opening, s) ← field key string fields.1 s
      return ((opening, fields.2), s)
    else if key = "close" then
      let (closing, s) ← field key string fields.2 s
      return ((fields.1, closing), s)
    else
      let (_, s) ← skip (← colon s)
      return (fields, s)

/-- The pair of markers that a JSON text holds. An empty marker is refused as soon as the record
has been read. -/
def ofText (s : String) : Except Error Delimiters :=
  let reader : Json.Reader Delimiters := fun s => do
    let ((opening, closing), s) ← markersReader s
    match ofMarkers opening closing with
    | .ok d => return (d, s)
    | .error e => throw (.mismatch (.refused e.message))
  (whole reader s).mapError .json

/-! ### Patterns -/

/-- The characters that mean something in a regular expression. -/
def special : List Char :=
  ['\\', '.', '+', '*', '?', '(', ')', '|', '[', ']', '\x7b', '\x7d', '^', '$', '#', '&', '-', '~']

/-- The text as a pattern that matches just this text: a backslash stands before every character
that would mean something else. -/
def escaped (marker : String) : String :=
  String.ofList (marker.toList.flatMap fun c => if c ∈ special then ['\\', c] else [c])

end Delimiters

end Stencil
