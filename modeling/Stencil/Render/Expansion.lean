import Stencil.Options
import Stencil.Render.Run

set_option relaxedAutoImplicit false
set_option autoImplicit false

/-!
# Expansion of partials

Before the nodes of a block are rendered, the partials among its tokens are replaced by the
tokens of their texts, and the partials among those again. A partial whose name has no value in
the scope stays: it may get one inside a block. A partial whose text cannot be loaded is dropped.

## Main definitions

* `Stencil.Setting` — what is fixed during a rendering.
* `Stencil.Setting.warn` — a warning, which a strict rendering fails on.
* `Stencil.Setting.partialText` — the text of a partial.
* `Stencil.Setting.expand` — the tokens with all partials replaced that have a value.
-/

namespace Stencil

/-- What is fixed during a rendering. -/
structure Setting where
  /-- The markers around tags, in the template and in partials. -/
  delimiters : Delimiters
  /-- Finds the texts of partials. -/
  loader : Loader
  /-- How to render. -/
  options : Options

namespace Setting

/-- A warning about the tag at a place. A strict rendering fails instead. -/
def warn (set : Setting) (w : Warning) (span : Span) : Run Unit :=
  if set.options.strict then Run.fail w.toError else Run.emit (.warning w span)

/-- The text of the partial that a tag names: loaded, if the value is an identifier, else the text
that stands for the value. There is none if it cannot be loaded. -/
def partialText (set : Setting) (tag : Tag) (value : Value) : Run (Option String) :=
  match value with
  | .resource id => do
    Run.emit (.load id)
    match set.loader.load id with
    | .ok text => return some text
    | .error cause => do
      set.warn (.partialUnavailable tag.name cause) tag.span
      return none
  | value => return some value.display

/-- The tokens that a token is replaced by. `inclusion` gives those of a partial with a text. -/
def expandToken (set : Setting) (scope : Scope) (inclusion : Tag → String → Run (List Token)) :
    Token → Run (List Token)
  | .text content span => return [.text content span]
  | .tag tag =>
    if tag.role = .includes then
      match scope.resolve tag.name with
      | none => return [.tag tag]
      | some value => do
        match ← set.partialText tag value with
        | none => return []
        | some text => inclusion tag text
    else return [.tag tag]

/-- The tokens with their partials replaced, where `depth` more partials may lie inside one
another. -/
def expandTo (set : Setting) (scope : Scope) : Nat → List Token → Run (List Token)
  | 0 =>
    Run.flatMap (set.expandToken scope fun tag _ =>
      Run.fail (.recursivePartial tag.name set.options.maxPartialDepth))
  | depth + 1 =>
    Run.flatMap (set.expandToken scope fun tag text =>
      (set.expandTo scope depth (Token.ofText set.delimiters (tag.level + 1) text)).between
        (.enter tag text) .leave)

/-- The tokens with their partials replaced. -/
def expand (set : Setting) (scope : Scope) (tokens : List Token) : Run (List Token) :=
  set.expandTo scope set.options.maxPartialDepth tokens

end Setting

end Stencil
