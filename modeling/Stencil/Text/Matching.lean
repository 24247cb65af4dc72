set_option relaxedAutoImplicit false
set_option autoImplicit false

/-!
# Matching at the front of a text

Two ways to consume the front of a text: a fixed marker, and the longest run of characters of a
class after which the rest can be read.

## Main definitions

* `Stencil.Text.strip?` — the text after a marker.
* `Stencil.Text.greedy` — the longest run of a class after which a reader succeeds.

## Main results

* `Stencil.Text.strip?_eq_some_iff` — a marker is stripped exactly from the texts that start with
  it.
* `Stencil.Text.greedy_sound` — what is read is a run of the class, followed by what the reader
  reads.
* `Stencil.Text.greedy_isSome_iff` — something is read as soon as the reader succeeds after some
  run.
-/

namespace Stencil.Text

/-- The text after a marker, if it starts with the marker. -/
def strip? : List Char → List Char → Option (List Char)
  | [], s => some s
  | _ :: _, [] => none
  | m :: ms, c :: s => if m = c then strip? ms s else none

/-- A marker is stripped exactly from the texts that start with it. -/
theorem strip?_eq_some_iff {m s r : List Char} : strip? m s = some r ↔ s = m ++ r := by
  induction m generalizing s with
  | nil => simp [strip?]
  | cons c m ih =>
    cases s with
    | nil => simp [strip?]
    | cons d s =>
      by_cases h : c = d
      · simp [strip?, h, ih]
      · simp [strip?, h, Ne.symm h]

@[simp]
theorem strip?_append (m r : List Char) : strip? m (m ++ r) = some r :=
  strip?_eq_some_iff.2 rfl

/-- Reads a run of characters of the class `p`, then `k`: the longest run after which `k`
succeeds. -/
def greedy {α : Type} (p : Char → Bool) (k : List Char → Option α) :
    List Char → Option (List Char × α)
  | [] => (k []).map ([], ·)
  | c :: s =>
    if p c then
      match greedy p k s with
      | some (run, a) => some (c :: run, a)
      | none => (k (c :: s)).map ([], ·)
    else (k (c :: s)).map ([], ·)

/-- What is read is a run of the class, followed by what the reader reads. -/
theorem greedy_sound {α : Type} {p : Char → Bool} {k : List Char → Option α} {s run : List Char}
    {a : α} (h : greedy p k s = some (run, a)) :
    ∃ rest, s = run ++ rest ∧ (∀ c ∈ run, p c = true) ∧ k rest = some a := by
  induction s generalizing run with
  | nil =>
    simp only [greedy, Option.map_eq_some_iff, Prod.mk.injEq] at h
    obtain ⟨b, hb, rfl, rfl⟩ := h
    exact ⟨[], by simp, by simp, hb⟩
  | cons c s ih =>
    have short : (k (c :: s)).map (([], ·) : α → List Char × α) = some (run, a) →
        ∃ rest, c :: s = run ++ rest ∧ (∀ c ∈ run, p c = true) ∧ k rest = some a := by
      intro h
      simp only [Option.map_eq_some_iff, Prod.mk.injEq] at h
      obtain ⟨b, hb, rfl, rfl⟩ := h
      exact ⟨c :: s, by simp, by simp, hb⟩
    simp only [greedy] at h
    split at h
    · rename_i hp
      split at h
      · rename_i run' b hs
        simp only [Option.some.injEq, Prod.mk.injEq] at h
        obtain ⟨rfl, rfl⟩ := h
        obtain ⟨rest, rfl, hall, hk⟩ := ih hs
        exact ⟨rest, by simp, List.forall_mem_cons.2 ⟨hp, hall⟩, hk⟩
      · exact short h
    · exact short h

/-- Something is read as soon as the reader succeeds after some run of the class. -/
theorem greedy_isSome_iff {α : Type} {p : Char → Bool} {k : List Char → Option α}
    {s : List Char} :
    (greedy p k s).isSome = true ↔
      ∃ run rest, s = run ++ rest ∧ (∀ c ∈ run, p c = true) ∧ (k rest).isSome = true := by
  constructor
  · intro h
    obtain ⟨⟨run, a⟩, hr⟩ := Option.isSome_iff_exists.1 h
    obtain ⟨rest, hs, hall, hk⟩ := greedy_sound hr
    exact ⟨run, rest, hs, hall, by simp [hk]⟩
  · rintro ⟨run, rest, rfl, hall, hk⟩
    induction run with
    | nil =>
      cases rest with
      | nil => simpa [greedy] using hk
      | cons c rest =>
        simp only [List.nil_append, greedy]
        split
        · split <;> simp [hk]
        · simpa using hk
    | cons c run ih =>
      have hc : p c = true := hall c (by simp)
      have := ih fun d hd => hall d (by simp [hd])
      obtain ⟨⟨r, a⟩, hr⟩ := Option.isSome_iff_exists.1 this
      simp [greedy, hc, hr]

end Stencil.Text
