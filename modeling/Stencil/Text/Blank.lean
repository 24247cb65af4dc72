set_option relaxedAutoImplicit false
set_option autoImplicit false

/-!
# Blank characters

The characters that may stand between the parts of a tag: those with the Unicode property
`White_Space`.

## Main definitions

* `Stencil.Text.isBlank` — the character has the property.
-/

namespace Stencil.Text

/-- The character has the Unicode property `White_Space`. The property holds of exactly
25 characters, the six ASCII ones included. -/
def isBlank (c : Char) : Bool :=
  let n := c.toNat
  (0x09 ≤ n && n ≤ 0x0D) || n == 0x20 || n == 0x85 || n == 0xA0 || n == 0x1680 ||
    (0x2000 ≤ n && n ≤ 0x200A) || n == 0x2028 || n == 0x2029 || n == 0x202F || n == 0x205F ||
    n == 0x3000

end Stencil.Text
