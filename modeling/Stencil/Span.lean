set_option relaxedAutoImplicit false
set_option autoImplicit false

/-!
# Spans

A place in a text, as a half-open range of UTF-8 byte offsets. Every tag, node and diagnostic
carries the span it was read from.

## Main definitions

* `Stencil.Span` — the bytes from `start` up to, not including, `stop`.
* `Stencil.Span.cover` — the least span that contains two given ones.

## Main results

* `Stencil.Span.cover_adjacent` — two spans that meet are covered from the start of the first
  to the stop of the second.
-/

namespace Stencil

/-- A range of UTF-8 byte offsets: `start` is the first byte inside it, `stop` the first byte
after it. -/
structure Span where
  /-- Offset of the first byte. -/
  start : Nat
  /-- Offset just past the last byte. -/
  stop : Nat
  deriving DecidableEq, Repr, Inhabited

namespace Span

/-- The least span that contains both spans. -/
def cover (a b : Span) : Span :=
  ⟨min a.start b.start, max a.stop b.stop⟩

/-- Two spans that meet are covered from the start of the first to the stop of the second. -/
theorem cover_adjacent {i j k : Nat} (hij : i ≤ j) (hjk : j ≤ k) :
    cover ⟨i, j⟩ ⟨j, k⟩ = ⟨i, k⟩ := by
  simp only [cover, Nat.min_eq_left hij, Nat.max_eq_right hjk]

end Span

end Stencil
