import Mathlib.Tactic.ByContra
import Stencil.Span
import Stencil.Text.Utf8

set_option relaxedAutoImplicit false
set_option autoImplicit false

/-!
# Spans and the text they are spans of

A span is worth something only together with the text it was read from. This module says what it
is for a part of a text to stand in a span, and for spans to divide a stretch of text without gaps.

## Main definitions

* `Stencil.Span.Reads` — the bytes of a text in a span are those of a given part.
* `Stencil.Span.Tile` — spans lie side by side.

## Main results

* `Stencil.Text.utf8ByteSize_ofList` — lengths are counted in bytes of UTF-8.
* `Stencil.Span.Reads.append` — parts that meet are one part.
* `Stencil.Span.tile_append` — a stretch that is divided can be cut at every span.
-/

namespace Stencil

namespace Text

/-- **Lengths are counted in bytes of UTF-8.** -/
theorem utf8ByteSize_ofList (cs : List Char) : (String.ofList cs).utf8ByteSize = byteLength cs := by
  induction cs with
  | nil => rfl
  | cons c cs ih =>
    rw [byteLength_cons, ← ih, String.ofList_cons, String.utf8ByteSize_append,
      String.utf8ByteSize_singleton]

lemma byteLength_toList (s : String) : byteLength s.toList = s.utf8ByteSize := by
  rw [← utf8ByteSize_ofList, String.ofList_toList]

/-- Of two starts of a text, the longer one begins with the shorter one. -/
lemma exists_append_of_byteLength_le {cs cs' ds ds' : List Char} (h : cs ++ ds = cs' ++ ds')
    (hle : byteLength cs ≤ byteLength cs') : ∃ es, cs' = cs ++ es ∧ ds = es ++ ds' := by
  rcases List.append_eq_append_iff.1 h with ⟨es, hcs, hds⟩ | ⟨es, hcs, hds⟩
  · exact ⟨es, hcs, hds⟩
  · have hnil : es = [] := by
      cases es with
      | nil => rfl
      | cons e es =>
        have := byteLength_pos (List.cons_ne_nil e es)
        rw [hcs, byteLength_append] at hle
        omega
    subst hnil
    exact ⟨[], by simpa using hcs.symm, by simpa using hds.symm⟩

end Text

namespace Span

/-! ### Parts of a text -/

/-- The bytes of the text in the span are those of `part`. Both ends of the span lie between
characters. -/
def Reads (source : String) (span : Span) (part : String) : Prop :=
  ∃ before after, source = before ++ part ++ after ∧
    span = ⟨before.utf8ByteSize, (before ++ part).utf8ByteSize⟩

/-- Two starts of a text of the same length are the same. -/
lemma eq_of_append_eq_append {s s' t t' : String} (h : s ++ t = s' ++ t')
    (hlen : s.utf8ByteSize = s'.utf8ByteSize) : s = s' ∧ t = t' := by
  rw [← Text.byteLength_toList, ← Text.byteLength_toList] at hlen
  have hchars : s.toList ++ t.toList = s'.toList ++ t'.toList := by
    rw [← String.toList_append, ← String.toList_append, h]
  obtain ⟨es, hs, ht⟩ := Text.exists_append_of_byteLength_le hchars (Nat.le_of_eq hlen)
  have hnil : es = [] := by
    by_contra hne
    have := Text.byteLength_pos hne
    rw [hs, Text.byteLength_append] at hlen
    omega
  subst hnil
  rw [List.append_nil] at hs
  exact ⟨String.toList_injective hs.symm, String.toList_injective ht⟩

namespace Reads

variable {source : String}

/-- **Parts that meet are one part.** -/
theorem append {a b : Span} {s t : String} (ha : Reads source a s) (hb : Reads source b t)
    (hmeet : a.stop = b.start) : Reads source (a.cover b) (s ++ t) := by
  obtain ⟨before, after, hs, rfl⟩ := ha
  obtain ⟨before', after', ht, rfl⟩ := hb
  have hsplit : (before ++ s) ++ after = before' ++ (t ++ after') := by
    rw [← hs, ht, String.append_assoc]
  obtain ⟨rfl, rfl⟩ := eq_of_append_eq_append hsplit hmeet
  refine ⟨before, after', by rw [hs]; simp only [String.append_assoc], ?_⟩
  rw [cover_adjacent (by simp) (by simp), String.append_assoc]

/-- There is a part of the text from the start of a part to the stop of a later one. -/
theorem exists_of_le {a b : Span} {s t : String} (ha : Reads source a s) (hb : Reads source b t)
    (hle : a.stop ≤ b.start) : ∃ part, Reads source ⟨a.start, b.stop⟩ part := by
  obtain ⟨before, after, hs, rfl⟩ := ha
  obtain ⟨before', after', ht, rfl⟩ := hb
  have hchars : before.toList ++ (s ++ after).toList = (before' ++ t).toList ++ after'.toList := by
    rw [← String.toList_append, ← String.toList_append, ← String.append_assoc, ← hs, ht]
  have hlen : Text.byteLength before.toList ≤ Text.byteLength (before' ++ t).toList := by
    simp only [Text.byteLength_toList, String.utf8ByteSize_append] at hle ⊢
    omega
  obtain ⟨part, hpart, -⟩ := Text.exists_append_of_byteLength_le hchars hlen
  have heq : before' ++ t = before ++ String.ofList part := by
    apply String.toList_injective
    rw [hpart, String.toList_append, String.toList_ofList]
  exact ⟨String.ofList part, before, after', by rw [ht, heq], by rw [heq]⟩

/-- A span is as long as what stands in it. -/
lemma stop_eq {span : Span} {s : String} (h : Reads source span s) :
    span.stop = span.start + s.utf8ByteSize := by
  obtain ⟨before, after, -, rfl⟩ := h
  exact String.utf8ByteSize_append

/-- The span of something is not empty. -/
lemma start_lt_stop {span : Span} {s : String} (h : Reads source span s) (hs : s ≠ "") :
    span.start < span.stop := by
  have hpos : s.utf8ByteSize ≠ 0 := fun h0 => hs (String.utf8ByteSize_eq_zero_iff.1 h0)
  rw [h.stop_eq]
  omega

end Reads

/-! ### Spans side by side -/

/-- Two spans of which the first one starts and stops first are covered from its start to the stop
of the second one. -/
lemma cover_of_le {a b : Span} (hstart : a.start ≤ b.start) (hstop : a.stop ≤ b.stop) :
    a.cover b = ⟨a.start, b.stop⟩ := by
  rw [cover, Nat.min_eq_left hstart, Nat.max_eq_right hstop]

/-- The spans lie side by side in this order, from the byte `start` up to the byte `stop`, and none
of them is empty. -/
def Tile : Nat → List Span → Nat → Prop
  | start, [], stop => start = stop
  | start, s :: spans, stop => s.start = start ∧ s.start < s.stop ∧ Tile s.stop spans stop

lemma tile_nil {i j : Nat} : Tile i [] j ↔ i = j := Iff.rfl

lemma tile_cons {i j : Nat} {s : Span} {spans : List Span} :
    Tile i (s :: spans) j ↔ s.start = i ∧ s.start < s.stop ∧ Tile s.stop spans j := Iff.rfl

/-- **A stretch that is divided can be cut at every span.** -/
theorem tile_append {i k : Nat} {spans spans' : List Span} :
    Tile i (spans ++ spans') k ↔ ∃ j, Tile i spans j ∧ Tile j spans' k := by
  induction spans generalizing i with
  | nil => simp [tile_nil]
  | cons s spans ih =>
    simp only [List.cons_append, tile_cons, ih]
    constructor
    · rintro ⟨h₁, h₂, j, h₃, h₄⟩
      exact ⟨j, ⟨h₁, h₂, h₃⟩, h₄⟩
    · rintro ⟨j, ⟨h₁, h₂, h₃⟩, h₄⟩
      exact ⟨h₁, h₂, j, h₃, h₄⟩

lemma Tile.le {i j : Nat} {spans : List Span} (h : Tile i spans j) : i ≤ j := by
  induction spans generalizing i with
  | nil => exact Nat.le_of_eq h
  | cons s spans ih =>
    obtain ⟨rfl, hlt, h⟩ := h
    exact Nat.le_trans (Nat.le_of_lt hlt) (ih h)

/-- Spans that are not none divide one stretch only. -/
lemma Tile.ends_eq {i i' j j' : Nat} {spans : List Span} (hne : spans ≠ []) (h : Tile i spans j)
    (h' : Tile i' spans j') : i = i' ∧ j = j' := by
  induction spans generalizing i i' with
  | nil => exact absurd rfl hne
  | cons s spans ih =>
    obtain ⟨hi, -, h⟩ := h
    obtain ⟨hi', -, h'⟩ := h'
    refine ⟨hi.symm.trans hi', ?_⟩
    cases spans with
    | nil => exact h.symm.trans h'
    | cons t spans => exact (ih (List.cons_ne_nil t spans) h h').2

/-- Nothing lies side by side in an empty stretch. -/
lemma Tile.eq_nil {i : Nat} {spans : List Span} (h : Tile i spans i) : spans = [] := by
  cases spans with
  | nil => rfl
  | cons s spans =>
    obtain ⟨rfl, hlt, h⟩ := h
    exact absurd h.le (Nat.not_le.2 hlt)

end Span

end Stencil
