import Stencil.Loader
import Stencil.Span

set_option relaxedAutoImplicit false
set_option autoImplicit false

/-!
# Diagnostics

A rendering goes on when a name has no value or the text of a partial is missing, and says so. In
a strict rendering the same causes are failures.

## Main definitions

* `Stencil.Warning` — what a rendering warns about.
* `Stencil.Warning.toError` — the failure that a warning is in a strict rendering.
* `Stencil.Diagnostic` — a warning in words, with its place.
* `Stencil.DiagnosticLog` — diagnostics in the order in which they were recorded.
-/

namespace Stencil

/-- What a rendering warns about. -/
inductive Warning where
  /-- A variable has no value. -/
  | undefinedVariable (name : String)
  /-- The text of a partial could not be loaded. -/
  | partialUnavailable (name : String) (cause : LoadError)
  deriving DecidableEq, Repr

/-- The kinds of warnings. -/
inductive DiagnosticCode where
  | undefinedVariable
  | partialNotFound
  | partialUnreadable
  deriving DecidableEq, Repr

/-- The code as written. -/
def DiagnosticCode.text : DiagnosticCode → String
  | undefinedVariable => "M-1"
  | partialNotFound => "M-2"
  | partialUnreadable => "M-3"

namespace Warning

/-- The kind of the warning. -/
def code : Warning → DiagnosticCode
  | undefinedVariable _ => .undefinedVariable
  | partialUnavailable _ (.notFound _) => .partialNotFound
  | partialUnavailable _ (.unreadable _ _) => .partialUnreadable

/-- The wording of the warning. -/
def message : Warning → String
  | undefinedVariable name => "Undefined variable: " ++ name
  | partialUnavailable name cause => "Partial '" ++ name ++ "' skipped: " ++ cause.message

/-- The failure that the warning is in a strict rendering. -/
def toError : Warning → Error
  | undefinedVariable name => .undefinedVariable name
  | partialUnavailable name cause => cause.toError name

end Warning

/-- A warning in words, with the place of the tag it is about. -/
structure Diagnostic where
  code : DiagnosticCode
  message : String
  span : Span
  deriving DecidableEq, Repr

/-- The warning about the tag at the given place. -/
def Warning.diagnose (w : Warning) (span : Span) : Diagnostic := ⟨w.code, w.message, span⟩

/-- Diagnostics in the order in which they were recorded. -/
structure DiagnosticLog where
  diagnostics : List Diagnostic
  deriving DecidableEq, Repr

namespace DiagnosticLog

/-- Nothing has been recorded. -/
def empty : DiagnosticLog := ⟨[]⟩

/-- Records a diagnostic after the others. -/
def warn (log : DiagnosticLog) (code : DiagnosticCode) (message : String) (span : Span) :
    DiagnosticLog :=
  ⟨log.diagnostics ++ [⟨code, message, span⟩]⟩

end DiagnosticLog

end Stencil
