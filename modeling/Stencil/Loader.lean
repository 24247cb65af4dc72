import Stencil.Error

set_option relaxedAutoImplicit false
set_option autoImplicit false

/-!
# Loaders

The text of a partial may lie outside the context, under an identifier. A loader finds it.

## Main definitions

* `Stencil.LoadError` — why a text could not be loaded.
* `Stencil.LoadError.toError` — the failure of a strict rendering that needs the text.
* `Stencil.Loader` — a function from identifiers to texts.
* `Stencil.Library` — texts kept in memory.
-/

namespace Stencil

/-- Why a text could not be loaded. -/
inductive LoadError where
  /-- There is no text with the identifier. -/
  | notFound (id : String)
  /-- The text with the identifier could not be read. -/
  | unreadable (id : String) (cause : ReadError)
  deriving DecidableEq, Repr

namespace LoadError

/-- The wording of the failure. -/
def message : LoadError → String
  | notFound id => "resource not found: " ++ id
  | unreadable id cause => "failed to read " ++ id ++ ": " ++ cause.message

/-- The failure of a strict rendering that needs the text for the partial of the given name. -/
def toError (name : String) : LoadError → Error
  | notFound _ => .partialNotFound name
  | unreadable _ cause => .partialUnreadable name cause

end LoadError

/-- Finds texts by their identifiers. The same identifier always has the same outcome. -/
structure Loader where
  load : String → Except LoadError String

/-- The loader that finds nothing. -/
def Loader.empty : Loader := ⟨fun id => .error (.notFound id)⟩

instance : Inhabited Loader := ⟨Loader.empty⟩

/-- Texts kept in memory, each under an identifier. -/
structure Library where
  /-- Identifiers and texts; of two texts with the same identifier the first one counts. -/
  texts : List (String × String)
  deriving DecidableEq, Repr

namespace Library

/-- No texts. -/
def empty : Library := ⟨[]⟩

/-- Puts a text into the library, in place of one with the same identifier. -/
def add (l : Library) (id text : String) : Library := ⟨(id, text) :: l.texts⟩

/-- The text with the identifier. -/
def load (l : Library) (id : String) : Except LoadError String :=
  match l.texts.lookup id with
  | some text => .ok text
  | none => .error (.notFound id)

/-- The loader that finds the texts of the library. -/
def loader (l : Library) : Loader := ⟨l.load⟩

end Library

end Stencil
