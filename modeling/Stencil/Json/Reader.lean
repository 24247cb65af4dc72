import Stencil.Json.Basic
import Stencil.Text.Utf8

set_option relaxedAutoImplicit false
set_option autoImplicit false

/-!
# Reading JSON

A JSON text is read from left to right, and the first fault met decides the failure: the text
ends too early, or it is malformed. Arrays and objects may nest up to a given depth.

A value of which nothing is kept can be skipped. Skipping checks the outline only: any number
and any code unit will do, and nesting has no limit.

## Main definitions

* `Stencil.Json.Reader` — a function from a text to a value and the text after it.
* `Stencil.Json.Reader.literal`, `Stencil.Json.Reader.text` — a number, a string.
* `Stencil.Json.Reader.members`, `Stencil.Json.Reader.elements` — the members of an object, the
  elements of an array, folded as they are met.
* `Stencil.Json.Reader.value` — any value.
* `Stencil.Json.Reader.skip` — any value, of which only the outline is checked.
* `Stencil.Json.Reader.whole` — a text that holds one value and nothing else.
-/

namespace Stencil.Json

/-- Reads a value from the front of a text and returns it with the text after it. -/
abbrev Reader (α : Type) := List Char → Except Error (α × List Char)

namespace Reader

/-- The characters that may stand between two parts of a JSON text. -/
def isSpace (c : Char) : Bool := c = ' ' ∨ c = '\n' ∨ c = '\t' ∨ c = '\r'

/-- The text from its first character that is no space. -/
def skipSpace (s : List Char) : List Char := s.dropWhile isSpace

/-- The text after the given letters. -/
def letters : List Char → List Char → Except Error (List Char)
  | [], s => .ok s
  | _ :: _, [] => .error .ended
  | w :: ws, c :: s => if w = c then letters ws s else .error .malformed

/-! ### Numbers -/

/-- The value of a decimal digit. -/
def digitValue (c : Char) : Nat := c.toNat - '0'.toNat

/-- The digits at the front of a text. -/
def digits (s : List Char) : List Nat × List Char :=
  ((s.takeWhile Char.isDigit).map digitValue, s.dropWhile Char.isDigit)

/-- The digits before the point: a single zero, or digits that do not start with one. `cut` is the
failure of a number that breaks off. -/
def wholeDigits (cut : Error) : Reader (List Nat)
  | [] => .error cut
  | '0' :: s =>
    match s with
    | c :: _ => if c.isDigit then .error .malformed else .ok ([0], s)
    | [] => .ok ([0], s)
  | c :: s => if c.isDigit then .ok (digits (c :: s)) else .error .malformed

/-- The digits after the point, of which there must be one. -/
def fractionDigits (cut : Error) : Reader (Option (List Nat))
  | '.' :: s =>
    match digits s with
    | ([], []) => .error cut
    | ([], _ :: _) => .error .malformed
    | (ds, rest) => .ok (some ds, rest)
  | s => .ok (none, s)

/-- The digits of an exponent, of which there must be one, as a number. -/
def exponentDigits (cut : Error) : Reader Nat
  | [] => .error cut
  | c :: s =>
    if c.isDigit then
      let (ds, rest) := digits (c :: s)
      .ok (ds.foldl (fun n d => n * 10 + d) 0, rest)
    else .error .malformed

/-- The exponent, if there is one. -/
def exponentPart (cut : Error) : Reader (Option Int)
  | [] => .ok (none, [])
  | e :: s =>
    if e = 'e' ∨ e = 'E' then
      match s with
      | '-' :: s => (exponentDigits cut s).map fun (n, rest) => (some (-n), rest)
      | '+' :: s => (exponentDigits cut s).map fun (n, rest) => (some n, rest)
      | s => (exponentDigits cut s).map fun (n, rest) => (some n, rest)
    else .ok (none, e :: s)

/-- A number as written. The text starts with a digit or a minus sign. -/
def literal (cut : Error) (s : List Char) : Except Error (Literal × List Char) := do
  let negative := s.head? = some '-'
  let (whole, s) ← wholeDigits cut (if negative then s.tail else s)
  let (fraction, s) ← fractionDigits cut s
  let (exponent, s) ← exponentPart cut s
  return (⟨negative, whole, fraction, exponent⟩, s)

/-- A number. One that is too great for a floating-point number is malformed. -/
def number (s : List Char) : Except Error (Number × List Char) := do
  let (l, s) ← literal .ended s
  match l.value? with
  | some n => return (n, s)
  | none => throw .malformed

/-! ### Strings -/

/-- The value of a hexadecimal digit. -/
def hexValue? (c : Char) : Option Nat :=
  if '0' ≤ c ∧ c ≤ '9' then some (c.toNat - '0'.toNat)
  else if 'a' ≤ c ∧ c ≤ 'f' then some (c.toNat - 'a'.toNat + 10)
  else if 'A' ≤ c ∧ c ≤ 'F' then some (c.toNat - 'A'.toNat + 10)
  else none

/-- The code unit written by four hexadecimal digits. -/
def codeUnit? (a b c d : Char) : Option Nat := do
  return (((← hexValue? a) * 16 + (← hexValue? b)) * 16 + (← hexValue? c)) * 16 + (← hexValue? d)

/-- The failure of four hexadecimal digits that are not there. The text has ended if fewer than
four bytes of it are left. -/
def codeUnitFailure (s : List Char) : Error :=
  if Text.byteLength s < 4 then .ended else .malformed

/-- The character that an escape with a single letter stands for. -/
def escape? : Char → Option Char
  | '"' => some '"'
  | '\\' => some '\\'
  | '/' => some '/'
  | 'b' => some '\x08'
  | 'f' => some '\x0c'
  | 'n' => some '\n'
  | 'r' => some '\r'
  | 't' => some '\t'
  | _ => none

/-- The rest of a string, up to its closing quote. A code unit of the first half of a surrogate
pair, `high`, must be followed by the escape of a unit of the second half, and such a unit
follows nothing else. If `anyUnit` is set, every code unit is accepted. -/
def textFrom (anyUnit : Bool) : Option Nat → Reader (List Char)
  | none, [] => .error .ended
  | none, '"' :: s => .ok ([], s)
  | none, '\\' :: 'u' :: a :: b :: c :: d :: s =>
    match codeUnit? a b c d with
    | none => .error .malformed
    | some n =>
      if anyUnit then (textFrom anyUnit none s).map fun (cs, rest) => ('?' :: cs, rest)
      else if 0xD800 ≤ n ∧ n ≤ 0xDBFF then textFrom anyUnit (some n) s
      else if 0xDC00 ≤ n ∧ n ≤ 0xDFFF then .error .malformed
      else (textFrom anyUnit none s).map fun (cs, rest) => (Char.ofNat n :: cs, rest)
  | none, '\\' :: 'u' :: s => .error (codeUnitFailure s)
  | none, '\\' :: [] => .error .ended
  | none, '\\' :: e :: s =>
    match escape? e with
    | none => .error .malformed
    | some c => (textFrom anyUnit none s).map fun (cs, rest) => (c :: cs, rest)
  | none, c :: s =>
    if c.toNat < 0x20 then .error .malformed
    else (textFrom anyUnit none s).map fun (cs, rest) => (c :: cs, rest)
  | some high, '\\' :: 'u' :: a :: b :: c :: d :: s =>
    match codeUnit? a b c d with
    | none => .error .malformed
    | some low =>
      if 0xDC00 ≤ low ∧ low ≤ 0xDFFF then
        let n := 0x10000 + (high - 0xD800) * 0x400 + (low - 0xDC00)
        (textFrom anyUnit none s).map fun (cs, rest) => (Char.ofNat n :: cs, rest)
      else .error .malformed
  | some _, '\\' :: 'u' :: s => .error (codeUnitFailure s)
  | some _, [] => .error .ended
  | some _, ['\\'] => .error .ended
  | some _, _ :: _ => .error .malformed

/-- The rest of a string, up to its closing quote. -/
def text (s : List Char) : Except Error (String × List Char) :=
  (textFrom false none s).map fun (cs, rest) => (String.ofList cs, rest)

/-! ### Arrays and objects -/

/-- The text of the next element of an array, or nothing before the closing bracket. A comma stands
between two elements. -/
def nextElement? (first : Bool) (s : List Char) : Except Error (Option (List Char)) :=
  match skipSpace s with
  | [] => .error .ended
  | ']' :: _ => .ok none
  | c :: s =>
    if first then .ok (some (c :: s))
    else if c = ',' then
      match skipSpace s with
      | [] => .error .ended
      | ']' :: _ => .error .malformed
      | s => .ok (some s)
    else .error .malformed

/-- The text after the closing bracket of an array. -/
def closeArray (s : List Char) : Except Error (List Char) :=
  match skipSpace s with
  | [] => .error .ended
  | ']' :: s => .ok s
  | _ => .error .malformed

/-- The elements of an array whose opening bracket has been read. Every element takes a character,
so the length of the text bounds their number. -/
def elements {α : Type} (item : Reader α) : Nat → Bool → Reader (List α)
  | 0, _, _ => .error .malformed
  | fuel + 1, first, s => do
    match ← nextElement? first s with
    | none => return ([], ← closeArray s)
    | some s =>
      let (a, s) ← item s
      let (as, s) ← elements item fuel false s
      return (a :: as, s)

/-- The next key of an object with the text after it, or the text after the closing brace. A comma
stands between two members. -/
def nextKey (key : Reader String) (first : Bool) (s : List Char) :
    Except Error (Option String × List Char) :=
  match skipSpace s with
  | [] => .error .ended
  | '\x7d' :: s => .ok (none, s)
  | c :: s =>
    if first then
      if c = '"' then (key s).map fun (k, rest) => (some k, rest) else .error .malformed
    else if c = ',' then
      match skipSpace s with
      | [] => .error .ended
      | '"' :: s => (key s).map fun (k, rest) => (some k, rest)
      | _ => .error .malformed
    else .error .malformed

/-- The text after the colon between a key and its value. -/
def colon (s : List Char) : Except Error (List Char) :=
  match skipSpace s with
  | [] => .error .ended
  | ':' :: s => .ok s
  | _ => .error .malformed

/-- The members of an object whose opening brace has been read, folded from left to right. `step`
gets each key with the text right after it. Every member takes a character, so the length of the
text bounds their number. -/
def members {σ : Type} (key : Reader String) (step : σ → String → Reader σ) :
    Nat → Bool → σ → Reader σ
  | 0, _, _, _ => .error .malformed
  | fuel + 1, first, acc, s => do
    match ← nextKey key first s with
    | (none, s) => return (acc, s)
    | (some k, s) =>
      let (acc, s) ← step acc k s
      members key step fuel false acc s

/-! ### Values -/

/-- A value whose parts are read by `inner`; without it, neither arrays nor objects are
accepted. -/
def valueOver (inner : Option (Reader Json)) (s : List Char) : Except Error (Json × List Char) :=
  match skipSpace s with
  | [] => .error .ended
  | 'n' :: s => (letters ['u', 'l', 'l'] s).map fun s => (.null, s)
  | 't' :: s => (letters ['r', 'u', 'e'] s).map fun s => (.bool true, s)
  | 'f' :: s => (letters ['a', 'l', 's', 'e'] s).map fun s => (.bool false, s)
  | '"' :: s => (text s).map fun (t, s) => (.text t, s)
  | '[' :: s =>
    match inner with
    | none => .error .malformed
    | some item => (elements item (s.length + 1) true s).map fun (items, s) => (.array items, s)
  | '\x7b' :: s =>
    match inner with
    | none => .error .malformed
    | some item =>
      let member (acc : List (String × Json)) (k : String) : Reader (List (String × Json)) :=
        fun s => do
          let (v, s) ← item (← colon s)
          return (insertMember k v acc, s)
      (members text member (s.length + 1) true [] s).map fun (ms, s) => (.object ms, s)
  | c :: s =>
    if c = '-' ∨ c.isDigit then (number (c :: s)).map fun (n, s) => (.number n, s)
    else .error .malformed

/-- A value in which arrays and objects nest at most to the given depth. -/
def value : Nat → Reader Json
  | 0 => valueOver none
  | depth + 1 => valueOver (some (value depth))

/-- A value whose parts are skipped by `inner`. -/
def skipOver (inner : Option (Reader Unit)) (s : List Char) : Except Error (Unit × List Char) :=
  match skipSpace s with
  | [] => .error .ended
  | 'n' :: s => (letters ['u', 'l', 'l'] s).map fun s => ((), s)
  | 't' :: s => (letters ['r', 'u', 'e'] s).map fun s => ((), s)
  | 'f' :: s => (letters ['a', 'l', 's', 'e'] s).map fun s => ((), s)
  | '"' :: s => (textFrom true none s).map fun (_, s) => ((), s)
  | '[' :: s =>
    match inner with
    | none => .error .malformed
    | some item => (elements item (s.length + 1) true s).map fun (_, s) => ((), s)
  | '\x7b' :: s =>
    match inner with
    | none => .error .malformed
    | some item =>
      let key : Reader String := fun s => (textFrom true none s).map fun (_, s) => ("", s)
      members key (fun _ _ s => do item (← colon s)) (s.length + 1) true () s
  | c :: s =>
    if c = '-' ∨ c.isDigit then (literal .malformed (c :: s)).map fun (_, s) => ((), s)
    else .error .malformed

/-- Skips a value in which arrays and objects nest at most to the given depth. -/
def skipTo : Nat → Reader Unit
  | 0 => skipOver none
  | depth + 1 => skipOver (some (skipTo depth))

/-- Skips a value. Every level of nesting takes a character, so the length of the text bounds the
depth. -/
def skip : Reader Unit := fun s => skipTo s.length s

/-- Reads a text that holds one value and nothing else but space. -/
def whole {α : Type} (reader : Reader α) (s : String) : Except Error α := do
  let (a, rest) ← reader s.toList
  if skipSpace rest = [] then return a else throw .malformed

end Reader

/-- How deeply arrays and objects may nest. -/
def maxNesting : Nat := 127

/-- The document that a text holds. -/
def ofText (s : String) : Except Error Json := Reader.whole (Reader.value maxNesting) s

end Stencil.Json
