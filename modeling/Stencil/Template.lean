import Stencil.Context.OfJson
import Stencil.Render.Block

set_option relaxedAutoImplicit false
set_option autoImplicit false

/-!
# Templates

A template is a text with tags, read once and rendered as often as needed, each time with a
context of its own. Reading it fails only if blocks nest too deep; that markers could be too long to
be searched for is left out.

## Main definitions

* `Stencil.Template` — a text that has been read.
* `Stencil.Template.compile`, `Stencil.Template.compileWith`, `Stencil.Template.compileBytes` — read
  a template.
* `Stencil.Template.run` — renders a template, with the full trail.
* `Stencil.Template.report` — renders a template into its output and the diagnostics.
* `Stencil.Template.render`, `Stencil.Template.renderWith`,
  `Stencil.Template.renderWithOptions` — render a template into its output.
-/

namespace Stencil

/-- A text that has been read as a template. -/
structure Template where
  /-- The markers around tags. -/
  delimiters : Delimiters
  /-- The text. -/
  source : String
  /-- The tokens of the text. -/
  tokens : List Token
  /-- The nodes of the tokens. -/
  nodes : List Node

/-- What a rendering gives. -/
structure Report where
  /-- The text written. -/
  output : String
  /-- The warnings on the way. -/
  diagnostics : DiagnosticLog
  deriving DecidableEq, Repr

namespace Template

/-- Reads a text whose tags stand between the given markers. -/
def compileWith (d : Delimiters) (source : String) : Except Error Template := do
  let tokens := Token.ofText d 0 source
  let nodes ← Node.ofTokens tokens
  return ⟨d, source, tokens, nodes⟩

/-- Reads a text whose tags stand between double braces. -/
def compile (source : String) : Except Error Template := compileWith .standard source

/-- Reads a template from the bytes of its text. -/
def compileBytes (bytes : ByteArray) : Except Error Template :=
  match String.fromUTF8? bytes with
  | some source => compile source
  | none => .error (.read .notText)

/-- Reads a template from a text that was read from elsewhere. -/
def compileRead (text : Except ReadError String) : Except Error Template :=
  match text with
  | .ok source => compile source
  | .error cause => .error (.read cause)

/-- Renders the template. Bodies of blocks may nest to the given depth. -/
def run (t : Template) (context : Context) (loader : Loader) (options : Options) (depth : Nat) :
    Run Unit :=
  (⟨t.delimiters, loader, options⟩ : Setting).renderBlock depth t.nodes t.tokens
    ⟨0, t.tokens.length⟩ (Scope.root context)

/-- How deep the bodies of blocks may nest in a rendering that is not told otherwise. -/
def defaultDepth : Nat := 65536

/-- What a run gives. -/
def reportOf (r : Run Unit) : Outcome Report :=
  r.outcome.map fun _ => ⟨r.output, r.diagnostics⟩

/-- Renders the template into its output and the diagnostics. -/
def report (t : Template) (context : Context) (loader : Loader) (options : Options) :
    Outcome Report :=
  reportOf (t.run context loader options defaultDepth)

/-- Renders the template. -/
def renderWithOptions (t : Template) (context : Context) (loader : Loader) (options : Options) :
    Outcome String :=
  (t.report context loader options).map Report.output

/-- Renders the template with the default options. -/
def renderWith (t : Template) (context : Context) (loader : Loader) : Outcome String :=
  t.renderWithOptions context loader {}

/-- Renders the template with the default options and no texts to load. -/
def render (t : Template) (context : Context) : Outcome String :=
  t.renderWith context .empty

end Template

/-- Renders a text as a template whose tags stand between double braces. -/
def render (source : String) (context : Context) : Outcome String :=
  match Template.compile source with
  | .ok t => t.render context
  | .error e => .failed e

end Stencil
