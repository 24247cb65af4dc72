set_option relaxedAutoImplicit false
set_option autoImplicit false

/-!
# Lengths in UTF-8

Positions in a text are counted in bytes of its UTF-8 form, while the readers of this library
walk over characters. This module measures characters in bytes.

## Main definitions

* `Stencil.Text.byteLength` — the number of bytes that a list of characters takes in UTF-8.

## Main results

* `Stencil.Text.byteLength_append` — the length of a concatenation is the sum of the lengths.
-/

namespace Stencil.Text

/-- The number of bytes that the characters take in UTF-8. -/
def byteLength : List Char → Nat
  | [] => 0
  | c :: cs => c.utf8Size + byteLength cs

@[simp]
theorem byteLength_nil : byteLength [] = 0 := rfl

@[simp]
theorem byteLength_cons (c : Char) (cs : List Char) :
    byteLength (c :: cs) = c.utf8Size + byteLength cs := rfl

/-- The length of a concatenation is the sum of the lengths. -/
@[simp]
theorem byteLength_append (cs ds : List Char) :
    byteLength (cs ++ ds) = byteLength cs + byteLength ds := by
  induction cs with
  | nil => simp
  | cons c cs ih => simp [ih, Nat.add_assoc]

/-- Every character takes at least one byte, so a text that is not empty has positive length. -/
theorem byteLength_pos {cs : List Char} (h : cs ≠ []) : 0 < byteLength cs := by
  cases cs with
  | nil => exact absurd rfl h
  | cons c cs => have := Char.utf8Size_pos c; simp only [byteLength_cons]; omega

end Stencil.Text
