import Stencil.Piece
import Stencil.Span
import Stencil.Text.Utf8

set_option relaxedAutoImplicit false
set_option autoImplicit false

/-!
# Tokens

A token is a piece of a text together with its place there. Tokens of several texts meet when
partials are put in, so each tag also knows how many inclusions its own text is away from the
template.

## Main definitions

* `Stencil.Tag` — a tag with its place.
* `Stencil.Token` — a tag, or a stretch of plain text with its place.
* `Stencil.Token.ofPieces` — the tokens of consecutive pieces.
* `Stencil.Token.ofText` — the tokens of a text.
-/

namespace Stencil

/-- A tag with its place. -/
structure Tag where
  /-- What the tag is for. -/
  role : Role
  /-- The name between the markers. -/
  name : String
  /-- The tag as written, markers included. -/
  raw : String
  /-- Where the tag stands in its text. -/
  span : Span
  /-- How many inclusions lie between the template and the text of the tag. -/
  level : Nat
  deriving DecidableEq, Repr, Inhabited

/-- A tag, or a stretch of plain text with its place. -/
inductive Token where
  | text (content : String) (span : Span)
  | tag (tag : Tag)
  deriving DecidableEq, Repr, Inhabited

namespace Token

/-- The token of a piece that starts at the given byte. -/
def ofPiece (d : Delimiters) (level start : Nat) (p : Piece) : Token :=
  let span : Span := ⟨start, start + Text.byteLength (p.write d)⟩
  match p with
  | .text content => text (String.ofList content) span
  | .tag form =>
    tag ⟨form.role, String.ofList form.name, String.ofList (form.write d), span, level⟩

/-- The tokens of consecutive pieces, of which the first one starts at the given byte. -/
def ofPieces (d : Delimiters) (level : Nat) : Nat → List Piece → List Token
  | _, [] => []
  | start, p :: ps =>
    ofPiece d level start p :: ofPieces d level (start + Text.byteLength (p.write d)) ps

/-- The tokens of a text that is `level` inclusions away from the template. -/
def ofText (d : Delimiters) (level : Nat) (source : String) : List Token :=
  ofPieces d level 0 (Piece.scan d source.toList)

/-- The tags among the tokens. -/
def tags : List Token → List Tag
  | [] => []
  | text _ _ :: rest => tags rest
  | tag t :: rest => t :: tags rest

end Token

end Stencil
