import Stencil.Context

set_option relaxedAutoImplicit false
set_option autoImplicit false

/-!
# Scopes

Inside a block that goes through contexts, each context is laid over the ones around it. A scope
is this stack of contexts, and names are looked up in it from the inside out.

## Main definitions

* `Stencil.Scope` — a stack of contexts, the innermost first.
* `Stencil.Scope.get?` — the value of a key.
* `Stencil.Scope.resolve` — the value of a name, which may be a path of keys.
-/

namespace Stencil

/-- A stack of contexts, the innermost first. -/
structure Scope where
  frames : List Context

namespace Scope

/-- The scope of a single context. -/
def root (c : Context) : Scope := ⟨[c]⟩

/-- The scope with one more context laid over it. -/
def overlay (s : Scope) (c : Context) : Scope := ⟨c :: s.frames⟩

/-- The value of a key: that of the innermost context that has it. -/
def get? (s : Scope) (key : String) : Option Value :=
  s.frames.findSome? fun c => c.get? key

/-- The parts of a name between its points. There is always at least one. -/
def segments : List Char → List (List Char)
  | [] => [[]]
  | c :: cs =>
    if c = '.' then [] :: segments cs
    else
      match segments cs with
      | [] => [[c]]
      | part :: parts => (c :: part) :: parts

/-- The value of a name. A key that is the whole name comes first. Otherwise the name is a path:
its first part is looked up in the scope, the others inside the values found on the way. -/
def resolve (s : Scope) (name : String) : Option Value :=
  match s.get? name with
  | some v => some v
  | none =>
    match (segments name.toList).map String.ofList with
    | [] => none
    | key :: keys => (s.get? key).bind fun v => v.follow keys

end Scope

end Stencil
