import Stencil.Text.Extending
import Stencil.Text.Printable

set_option relaxedAutoImplicit false
set_option autoImplicit false

/-!
# Quoted text

Messages quote the text they speak about between double quotes, in a form that shows every
character: quotes, backslashes and line breaks are escaped, and so is whatever would not show or
would attach to its neighbour.

## Main definitions

* `Stencil.Text.escaped` — a character inside a quotation.
* `Stencil.Text.quoted` — a text as a quotation.
-/

namespace Stencil.Text

/-- A character inside a quotation. The null character, tab, the two line breaks, backslash and
double quote have a short escape; another extending or unprintable character is written by its
code point in hexadecimal; every other character stands for itself. -/
def escaped (c : Char) : List Char :=
  if c = '\x00' then ['\\', '0']
  else if c = '\t' then ['\\', 't']
  else if c = '\r' then ['\\', 'r']
  else if c = '\n' then ['\\', 'n']
  else if c = '\\' ∨ c = '"' then ['\\', c]
  else if isExtending c || !isPrintable c then
    ['\\', 'u', '\x7b'] ++ Nat.toDigits 16 c.toNat ++ ['\x7d']
  else [c]

/-- The text between double quotes, with every character that would not show escaped. -/
def quoted (s : String) : String :=
  String.ofList ('"' :: s.toList.flatMap escaped ++ ['"'])

end Stencil.Text
