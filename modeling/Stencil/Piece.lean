import Stencil.Tag

set_option relaxedAutoImplicit false
set_option autoImplicit false

/-!
# The pieces of a text

A text falls into tags and the stretches of plain text between them. Tags are looked for from
left to right: the leftmost one is taken, and the search goes on behind it.

## Main definitions

* `Stencil.Piece` — a tag, or a stretch of plain text.
* `Stencil.Piece.scan` — the pieces of a text.

## Main results

* `Stencil.Piece.flatMap_write_scan` — the pieces, written one after the other, are the text.
-/

namespace Stencil

/-- A part of a text: plain text, or a tag. -/
inductive Piece where
  | text (content : List Char)
  | tag (form : TagForm)
  deriving DecidableEq, Repr

namespace Piece

/-- The piece as it stands in the text. -/
def write (d : Delimiters) : Piece → List Char
  | text content => content
  | tag form => form.write d

/-- Puts a character of plain text in front of the pieces. -/
def consText (c : Char) : List Piece → List Piece
  | text content :: rest => text (c :: content) :: rest
  | rest => text [c] :: rest

/-- The pieces of a text. -/
def scan (d : Delimiters) : List Char → List Piece
  | [] => []
  | c :: s =>
    match h : TagForm.read? d (c :: s) with
    | some (form, rest) =>
      have : rest.length < (c :: s).length := TagForm.read?_length h
      tag form :: scan d rest
    | none => consText c (scan d s)
termination_by s => s.length
decreasing_by
  · exact this
  · exact Nat.lt_succ_self s.length

theorem flatMap_write_consText (d : Delimiters) (c : Char) (ps : List Piece) :
    (consText c ps).flatMap (write d) = c :: ps.flatMap (write d) := by
  unfold consText
  split <;> simp [write]

/-- The pieces, written one after the other, are the text. -/
theorem flatMap_write_scan (d : Delimiters) (s : List Char) :
    (scan d s).flatMap (write d) = s := by
  fun_induction scan d s with
  | case1 => rfl
  | case2 c s form rest h _ ih =>
    rw [List.flatMap_cons, ih]
    exact (TagForm.read?_sound h).2.symm
  | case3 c s h ih => rw [flatMap_write_consText, ih]

end Piece

end Stencil
