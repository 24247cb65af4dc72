import Stencil.Token

set_option relaxedAutoImplicit false
set_option autoImplicit false

/-!
# Nodes

A template is a list of nodes, and a block has a list of nodes of its own, so that nesting is
explicit. A block also knows which tokens its body was read from: a partial may open or close
blocks of the text around it, and then the tokens are paired anew.

## Main definitions

* `Stencil.TokenRange` — a range of positions in a list of tokens.
* `Stencil.Node` — plain text, a value, a block or a partial.
* `Stencil.Node.containsPartial` — there is a partial in the node or in its body.
* `Stencil.Node.pushText`, `Stencil.Node.push` — put a node behind others.
-/

namespace Stencil

/-- A range of positions in a list of tokens: `start` is the first position inside it, `stop` the
first one after it. -/
structure TokenRange where
  /-- The first position. -/
  start : Nat
  /-- The position just past the last one. -/
  stop : Nat
  deriving DecidableEq, Repr, Inhabited

/-- The tokens in a range. -/
def TokenRange.slice (r : TokenRange) (tokens : List Token) : List Token :=
  (tokens.drop r.start).take (r.stop - r.start)

/-- A part of a template. -/
inductive Node where
  /-- Plain text, which may stem from several places. -/
  | text (content : String) (span : Span)
  /-- A tag that is replaced by the value of its name. -/
  | value (name raw : String) (span : Span)
  /-- A block. Its span runs from the opening to the closing tag, `inner` is the range of the
  tokens between the two, and `body` are the nodes of these tokens. -/
  | block (kind : BlockKind) (name : String) (span : Span) (inner : TokenRange)
    (body : List Node)
  /-- A tag that is replaced by the text of a partial. -/
  | inclusion (name : String) (span : Span)
  deriving Repr, Inhabited

namespace Node

/-- Where the node was read. -/
def span : Node → Span
  | text _ span => span
  | value _ _ span => span
  | block _ _ span _ _ => span
  | inclusion _ span => span

mutual

/-- The node is a partial, or a block with a partial somewhere in its body. -/
def containsPartial : Node → Bool
  | text _ _ => false
  | value _ _ _ => false
  | block _ _ _ _ body => anyContainsPartial body
  | inclusion _ _ => true

/-- One of the nodes is or holds a partial. -/
def anyContainsPartial : List Node → Bool
  | [] => false
  | n :: ns => containsPartial n || anyContainsPartial ns

end

/-! ### Lists of nodes under construction

While nodes are read, they are kept in lists whose newest node comes first. -/

/-- Puts plain text behind the nodes. It is joined to plain text that is already there, and an
empty text leaves no trace. -/
def pushText (nodes : List Node) (content : String) (span : Span) : List Node :=
  if content = "" then nodes
  else
    match nodes with
    | text before place :: rest => text (before ++ content) (place.cover span) :: rest
    | _ => text content span :: nodes

/-- Puts a node behind the nodes; plain text is joined to plain text. -/
def push (nodes : List Node) : Node → List Node
  | text content span => pushText nodes content span
  | n => n :: nodes

end Node

end Stencil
