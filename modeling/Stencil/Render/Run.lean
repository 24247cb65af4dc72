import Stencil.Diagnostic
import Stencil.Scope
import Stencil.Token

set_option relaxedAutoImplicit false
set_option autoImplicit false

/-!
# Runs

A rendering leaves a trail: the texts it writes, the warnings it gives, the texts it loads. It
leaves the trail also when it fails in the end. A run is such a trail together with the way in
which it ends.

## Main definitions

* `Stencil.Event` — one step of the trail.
* `Stencil.Outcome` — how a run ends.
* `Stencil.Run` — a trail and its end; runs follow one another as a monad.
* `Stencil.Run.flatMap` — the concatenated results of runs over the elements of a list.
* `Stencil.Run.output`, `Stencil.Run.diagnostics`, `Stencil.Run.loads` — what the trail holds.

## Main results

* `Stencil.Run.pure_bind`, `Stencil.Run.bind_pure`, `Stencil.Run.bind_assoc` — runs follow one
  another as in a monad.
-/

namespace Stencil

/-- One step of a rendering. -/
inductive Event where
  /-- Text of the template, or of a partial, is written as it stands. -/
  | text (content : String)
  /-- The text of a value is written. -/
  | value (v : Value)
  /-- A warning is given about the tag at a place. -/
  | warning (w : Warning) (span : Span)
  /-- The text with an identifier is asked for. -/
  | load (id : String)
  /-- The text of a partial is put in for a tag. -/
  | enter (tag : Tag) (text : String)
  /-- The text of a partial has been put in, its own partials included. -/
  | leave

/-- The text that an event writes. -/
def Event.written : Event → String
  | text content => content
  | value v => v.display
  | warning _ _ | load _ | enter _ _ | leave => ""

/-- How a run ends. -/
inductive Outcome (α : Type) where
  /-- With a result. -/
  | done (a : α)
  /-- With a failure. -/
  | failed (e : Error)
  /-- Bodies of blocks nest deeper than was granted. -/
  | exhausted

/-- The outcome with another result. -/
def Outcome.map {α β : Type} (f : α → β) : Outcome α → Outcome β
  | done a => done (f a)
  | failed e => failed e
  | exhausted => exhausted

/-- A trail of events and the way in which it ends. -/
structure Run (α : Type) where
  /-- What happened, in order. -/
  events : List Event
  /-- How it ended. -/
  outcome : Outcome α

namespace Run

variable {α β γ : Type}

/-- Nothing happens, and the result is at hand. -/
protected def pure (a : α) : Run α := ⟨[], .done a⟩

/-- One run after the other; the second one happens only if the first one has a result. -/
protected def bind (r : Run α) (f : α → Run β) : Run β :=
  match r.outcome with
  | .done a => ⟨r.events ++ (f a).events, (f a).outcome⟩
  | .failed e => ⟨r.events, .failed e⟩
  | .exhausted => ⟨r.events, .exhausted⟩

instance : Monad Run where
  pure := Run.pure
  bind := Run.bind

/-- The run in which one thing happens. -/
def emit (e : Event) : Run Unit := ⟨[e], .done ()⟩

/-- The run that fails at once. -/
def fail (e : Error) : Run α := ⟨[], .failed e⟩

/-- The run that is not granted to begin. -/
def exhausted : Run α := ⟨[], .exhausted⟩

/-- The run of something that may fail. -/
def ofExcept : Except Error α → Run α
  | .ok a => ⟨[], .done a⟩
  | .error e => fail e

/-- The run between an event before it and an event after it, also if it has no result. -/
def between (before after : Event) (r : Run α) : Run α :=
  ⟨before :: (r.events ++ [after]), r.outcome⟩

/-- The concatenated results of runs over the elements of a list, from left to right. -/
def flatMap (f : α → Run (List β)) : List α → Run (List β)
  | [] => pure []
  | a :: as => do
    let bs ← f a
    let rest ← flatMap f as
    return bs ++ rest

/-! ### Laws -/

theorem pure_bind (a : α) (f : α → Run β) : (pure a >>= f) = f a := by
  change Run.bind (Run.pure a) f = f a
  simp [Run.bind, Run.pure]

theorem bind_pure (r : Run α) : (r >>= pure) = r := by
  change Run.bind r Run.pure = r
  rcases r with ⟨events, outcome⟩
  cases outcome <;> simp [Run.bind, Run.pure]

theorem bind_assoc (r : Run α) (f : α → Run β) (g : β → Run γ) :
    (r >>= f >>= g) = (r >>= fun a => f a >>= g) := by
  change Run.bind (Run.bind r f) g = Run.bind r fun a => Run.bind (f a) g
  rcases r with ⟨events, outcome⟩
  cases outcome with
  | done a =>
    cases h : (f a).outcome <;> simp [Run.bind, h, List.append_assoc]
  | failed e => simp [Run.bind]
  | exhausted => simp [Run.bind]

/-! ### What the trail holds -/

/-- All that is written. -/
def output (r : Run α) : String := String.join (r.events.map Event.written)

/-- The diagnostics of the warnings, in order. -/
def diagnostics (r : Run α) : DiagnosticLog :=
  ⟨r.events.filterMap fun
    | .warning w span => some (w.diagnose span)
    | _ => none⟩

/-- The identifiers asked for, in order. -/
def loads (r : Run α) : List String :=
  r.events.filterMap fun
    | .load id => some id
    | _ => none

end Run

end Stencil
