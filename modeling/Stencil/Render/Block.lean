import Stencil.Node.Pairing
import Stencil.Render.Expansion

set_option relaxedAutoImplicit false
set_option autoImplicit false

/-!
# Rendering of blocks

The nodes of a block are rendered one after the other: plain text as it stands, a value by its
text, a block by rendering its body in each scope that its value calls for. If the block holds
partials, they are expanded first and the tokens paired anew, since a partial may open or close a
block of the text around it.

How deep the bodies of blocks may nest during a rendering is granted from outside: partials bound
inside blocks can bring in further blocks without end.

## Main definitions

* `Stencil.Value.scopes` — the scopes in which the body of a block is rendered.
* `Stencil.Setting.prepare` — the nodes of a block with its partials put in.
* `Stencil.Setting.renderNode` — renders a node.
* `Stencil.Setting.renderBlock` — renders the nodes of a block.
-/

namespace Stencil

/-- The scopes in which a block with the given value is rendered. A plain block goes through the
contexts of a list, or into a context, and appears once for any other value that is not false. An
inverted block appears once if the value is false. -/
def Value.scopes (scope : Scope) : BlockKind → Value → List Scope
  | .plain, .list items => items.map scope.overlay
  | .plain, .map context => [scope.overlay context]
  | .plain, value => if value.isTruthy then [scope] else []
  | .inverted, value => if value.isTruthy then [] else [scope]

namespace Setting

/-- The nodes of a block and the tokens that they were read from, after its partials have been put
in. The nodes are those of the tokens in the range; without partials nothing has to be read
again. -/
def prepare (set : Setting) (scope : Scope) (nodes : List Node) (tokens : List Token)
    (range : TokenRange) : Run (List Node × List Token) :=
  if Node.anyContainsPartial nodes then do
    let tokens ← set.expand scope (range.slice tokens)
    let nodes ← Run.ofExcept (Node.ofTokens tokens)
    return (nodes, tokens)
  else return (nodes, tokens)

/-- Renders a node; `renderBody` renders the body of a block. A value without text is kept as
written. A partial that is still there has no text. -/
def renderNode (set : Setting) (renderBody : List Node → TokenRange → Scope → Run Unit)
    (scope : Scope) : Node → Run Unit
  | .text content _ => Run.emit (.text content)
  | .value name raw span =>
    match scope.resolve name with
    | some value => Run.emit (.value value)
    | none => do
      set.warn (.undefinedVariable name) span
      Run.emit (.text raw)
  | .block kind name _ inner body =>
    match scope.resolve name with
    | some value => (value.scopes scope kind).forM (renderBody body inner)
    | none => return ()
  | .inclusion _ _ => return ()

/-- Renders the nodes of a block, which were read from the given range of the tokens; bodies are
rendered by `renderBody`. -/
def renderWith (set : Setting)
    (renderBody : List Node → List Token → TokenRange → Scope → Run Unit)
    (nodes : List Node) (tokens : List Token) (range : TokenRange) (scope : Scope) :
    Run Unit := do
  let (nodes, tokens) ← set.prepare scope nodes tokens range
  nodes.forM (set.renderNode (fun body inner => renderBody body tokens inner) scope)

/-- Renders the nodes of a block, which were read from the given range of the tokens. Bodies of
blocks may nest in it to the given depth. -/
def renderBlock (set : Setting) :
    Nat → List Node → List Token → TokenRange → Scope → Run Unit
  | 0 => set.renderWith fun _ _ _ _ => Run.exhausted
  | depth + 1 => set.renderWith (set.renderBlock depth)

end Setting

end Stencil
