import Stencil.Error
import Stencil.Node

set_option relaxedAutoImplicit false
set_option autoImplicit false

/-!
# Pairing of blocks

A closing tag belongs to the latest opening tag of its name that is still open. What was opened
in between never closes: such an opening tag is plain text, and so are the values directly
behind it, while blocks that did close stay blocks. A closing tag without opening tag is plain
text as well.

The tokens are read from left to right. The blocks that are open form a stack of frames, each
with the nodes read since its opening tag.

## Main definitions

* `Stencil.Frame` — a block that is open.
* `Stencil.Builder` — the nodes read so far and the blocks that are open.
* `Stencil.Builder.step` — reads a token.
* `Stencil.Node.ofTokens` — the nodes of a list of tokens.
-/

namespace Stencil

/-- How many blocks may be open at a time. -/
def maxBlockDepth : Nat := 256

/-- A block that is open. -/
structure Frame where
  /-- The kind of the block. -/
  kind : BlockKind
  /-- The opening tag. -/
  opener : Tag
  /-- The position of the opening tag among the tokens. -/
  index : Nat
  /-- The nodes read since the opening tag, the newest first. -/
  nodes : List Node
  deriving Repr

namespace Frame

/-- The block that ends with the given closing tag at the given position. -/
def close (f : Frame) (closer : Tag) (index : Nat) : Node :=
  .block f.kind f.opener.name (f.opener.span.cover closer.span) ⟨f.index + 1, index⟩
    f.nodes.reverse

/-- A node of a block that never closes: a value is kept as written. -/
def pushUnclosed (nodes : List Node) : Node → List Node
  | .value _ raw span => Node.pushText nodes raw span
  | n => Node.push nodes n

/-- Puts a block that never closes behind the nodes: the opening tag as written, and the nodes
read since. -/
def flattenOnto (f : Frame) (nodes : List Node) : List Node :=
  f.nodes.reverse.foldl pushUnclosed (Node.pushText nodes f.opener.raw f.opener.span)

end Frame

/-- The nodes read so far and the blocks that are open. -/
structure Builder where
  /-- The nodes outside all open blocks, the newest first. -/
  root : List Node
  /-- The open blocks, the innermost first. -/
  frames : List Frame
  deriving Repr

namespace Builder

/-- Nothing has been read. -/
def empty : Builder := ⟨[], []⟩

/-- Changes the nodes of the innermost open block, or those outside all blocks. -/
def modifyNodes (b : Builder) (f : List Node → List Node) : Builder :=
  match b.frames with
  | [] => ⟨f b.root, []⟩
  | frame :: frames => ⟨b.root, { frame with nodes := f frame.nodes } :: frames⟩

/-- Puts plain text behind the nodes. -/
def pushText (b : Builder) (content : String) (span : Span) : Builder :=
  b.modifyNodes fun nodes => Node.pushText nodes content span

/-- Puts a node behind the nodes. -/
def push (b : Builder) (n : Node) : Builder :=
  b.modifyNodes fun nodes => Node.push nodes n

/-- Gives up the `n` innermost open blocks. -/
def giveUp : Nat → Builder → Builder
  | 0, b => b
  | n + 1, b =>
    match b.frames with
    | [] => b
    | frame :: frames => giveUp n ((⟨b.root, frames⟩ : Builder).modifyNodes frame.flattenOnto)

/-- Closes the innermost open block. -/
def closeInnermost (b : Builder) (closer : Tag) (index : Nat) : Builder :=
  match b.frames with
  | [] => b
  | frame :: frames => (⟨b.root, frames⟩ : Builder).push (frame.close closer index)

/-- Reads a closing tag. The blocks opened after the one it closes are given up. -/
def close (b : Builder) (closer : Tag) (index : Nat) : Builder :=
  match b.frames.findIdx? (fun frame => frame.opener.name == closer.name) with
  | some n => (b.giveUp n).closeInnermost closer index
  | none => b.pushText closer.raw closer.span

/-- Reads the token at the given position. -/
def step (b : Builder) (index : Nat) : Token → Except Error Builder
  | .text content span => .ok (b.pushText content span)
  | .tag t =>
    match t.role with
    | .value => .ok (b.push (.value t.name t.raw t.span))
    | .includes => .ok (b.push (.inclusion t.name t.span))
    | .opens kind =>
      if maxBlockDepth ≤ b.frames.length then .error (.nestingTooDeep maxBlockDepth)
      else .ok { b with frames := ⟨kind, t, index, []⟩ :: b.frames }
    | .closes => .ok (b.close t index)

/-- Reads the tokens, of which the first one has the given position. -/
def run (b : Builder) (index : Nat) : List Token → Except Error Builder
  | [] => .ok b
  | t :: ts =>
    match b.step index t with
    | .ok b => run b (index + 1) ts
    | .error e => .error e

/-- All nodes, when the tokens have ended: no open block will close. -/
def finish (b : Builder) : List Node := (b.giveUp b.frames.length).root.reverse

end Builder

/-- The nodes of a list of tokens. The only failure is that too many blocks are open. -/
def Node.ofTokens (tokens : List Token) : Except Error (List Node) :=
  (Builder.empty.run 0 tokens).map Builder.finish

end Stencil
