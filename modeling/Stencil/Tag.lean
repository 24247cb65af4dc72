import Stencil.Delimiters
import Stencil.Text.Blank
import Stencil.Text.Matching

set_option relaxedAutoImplicit false
set_option autoImplicit false

/-!
# Tags

A tag is an opening marker, a sigil that tells its role, a name, and a closing marker; blanks may
stand around the sigil and after the name. Nothing else is a tag.

## Main definitions

* `Stencil.Role` — what a tag is for.
* `Stencil.TagForm` — the parts between the markers.
* `Stencil.TagForm.write` — the tag written out.
* `Stencil.TagForm.WellFormed` — the parts are of the right characters.
* `Stencil.TagForm.read?` — the tag at the front of a text.

## Main results

* `Stencil.TagForm.read?_name` — what is read of a tag before its name.
* `Stencil.TagForm.read?_sound` — what is read is a well-formed tag, written at the front.
* `Stencil.TagForm.read?_length` — reading a tag consumes text.
-/

namespace Stencil

/-- How a block treats its value: an inverted block is rendered when the value is false. -/
inductive BlockKind where
  | plain
  | inverted
  deriving DecidableEq, Repr, Inhabited

/-- What a tag is for. -/
inductive Role where
  /-- It is replaced by the value of its name. -/
  | value
  /-- It opens a block. -/
  | opens (kind : BlockKind)
  /-- It closes the block of its name. -/
  | closes
  /-- It is replaced by the text of a partial. -/
  | includes
  deriving DecidableEq, Repr, Inhabited

namespace Role

/-- The characters that tell the role of a tag; a value has none. -/
def sigil : Role → List Char
  | value => []
  | opens .plain => ['#']
  | opens .inverted => ['^']
  | closes => ['/']
  | includes => ['>']

/-- The role that a sigil tells. -/
def ofSigil? (c : Char) : Option Role :=
  if c = '#' then some (opens .plain)
  else if c = '^' then some (opens .inverted)
  else if c = '/' then some closes
  else if c = '>' then some includes
  else none

/-- A sigil tells the role that is written with it. -/
theorem sigil_of_ofSigil? {c : Char} {r : Role} (h : ofSigil? c = some r) : r.sigil = [c] := by
  unfold ofSigil? at h
  split at h
  · next hc => cases h; rw [hc]; rfl
  · split at h
    · next hc => cases h; rw [hc]; rfl
    · split at h
      · next hc => cases h; rw [hc]; rfl
      · split at h
        · next hc => cases h; rw [hc]; rfl
        · cases h

end Role

/-- The character may occur in the name of a tag: an ASCII letter or digit, an underscore or a
point. -/
def isNameChar (c : Char) : Bool := c.isAlphanum || c == '_' || c == '.'

/-- The parts of a tag between its markers. -/
structure TagForm where
  /-- The blanks before the sigil. -/
  lead : List Char
  /-- What the tag is for. -/
  role : Role
  /-- The blanks between sigil and name. -/
  gap : List Char
  /-- The name. -/
  name : List Char
  /-- The blanks after the name. -/
  trail : List Char
  deriving DecidableEq, Repr

namespace TagForm

/-- The tag written out between the markers. -/
def write (d : Delimiters) (t : TagForm) : List Char :=
  d.opening.toList ++
    (t.lead ++ (t.role.sigil ++ (t.gap ++ (t.name ++ (t.trail ++ d.closing.toList)))))

/-- The blanks are blank, and the name is a name. -/
structure WellFormed (t : TagForm) : Prop where
  lead : ∀ c ∈ t.lead, Text.isBlank c = true
  gap : ∀ c ∈ t.gap, Text.isBlank c = true
  name : ∀ c ∈ t.name, isNameChar c = true
  name_ne : t.name ≠ []
  trail : ∀ c ∈ t.trail, Text.isBlank c = true

/-! ### Reading

A reader gets the text after the part that it follows, and returns its own part with the parts
after it, and the text behind the tag. -/

/-- The blanks after the name, and the closing marker. -/
def readTrail (d : Delimiters) : List Char → Option (List Char × List Char) :=
  Text.greedy Text.isBlank (Text.strip? d.closing.toList)

/-- The name, and what follows it. A longer name is preferred to a shorter one. -/
def readName (d : Delimiters) (s : List Char) : Option (List Char × List Char × List Char) :=
  match s with
  | [] => none
  | c :: s =>
    if isNameChar c then
      (Text.greedy isNameChar (readTrail d) s).map fun (name, rest) => (c :: name, rest)
    else none

/-- The blanks before the name, and what follows them. -/
def readGap (d : Delimiters) :
    List Char → Option (List Char × List Char × List Char × List Char) :=
  Text.greedy Text.isBlank (readName d)

/-- The sigil, if there is one, and what follows it. -/
def readRole (d : Delimiters) (s : List Char) :
    Option (Role × List Char × List Char × List Char × List Char) :=
  match s with
  | [] => (readGap d []).map (.value, ·)
  | c :: s =>
    match Role.ofSigil? c with
    | some role => (readGap d s).map (role, ·)
    | none => (readGap d (c :: s)).map (.value, ·)

/-- The tag at the front of a text, with the text after it. -/
def read? (d : Delimiters) (s : List Char) : Option (TagForm × List Char) := do
  let s ← Text.strip? d.opening.toList s
  let (lead, role, gap, name, trail, rest) ← Text.greedy Text.isBlank (readRole d) s
  return (⟨lead, role, gap, name, trail⟩, rest)

section

variable {d : Delimiters} {s : List Char}

/-- What is read after the name are blanks and the closing marker. -/
theorem readTrail_sound {trail rest : List Char} (h : readTrail d s = some (trail, rest)) :
    s = trail ++ (d.closing.toList ++ rest) ∧ ∀ c ∈ trail, Text.isBlank c = true := by
  obtain ⟨s', rfl, htrail, hclosing⟩ := Text.greedy_sound h
  obtain rfl := Text.strip?_eq_some_iff.1 hclosing
  exact ⟨rfl, htrail⟩

/-- What is read as a name is one, and the rest of the tag is read behind it. -/
theorem readName_sound {name trail rest : List Char}
    (h : readName d s = some (name, trail, rest)) :
    ∃ s', s = name ++ s' ∧ name ≠ [] ∧ (∀ c ∈ name, isNameChar c = true) ∧
      readTrail d s' = some (trail, rest) := by
  cases s with
  | nil => simp [readName] at h
  | cons c s =>
    simp only [readName] at h
    split at h
    · rename_i hc
      simp only [Option.map_eq_some_iff, Prod.mk.injEq] at h
      obtain ⟨⟨run, _⟩, hrun, rfl, rfl⟩ := h
      obtain ⟨s', rfl, hname, htrail⟩ := Text.greedy_sound hrun
      exact ⟨s', rfl, by simp, List.forall_mem_cons.2 ⟨hc, hname⟩, htrail⟩
    · simp at h

/-- The role that is read is told by the sigil, if there is one, and the rest of the tag is read
behind it. -/
theorem readRole_sound {role : Role} {parts : List Char × List Char × List Char × List Char}
    (h : readRole d s = some (role, parts)) :
    ∃ s', s = role.sigil ++ s' ∧ readGap d s' = some parts := by
  cases s with
  | nil =>
    simp only [readRole, Option.map_eq_some_iff, Prod.mk.injEq] at h
    obtain ⟨_, hgap, rfl, rfl⟩ := h
    exact ⟨[], rfl, hgap⟩
  | cons c s =>
    simp only [readRole] at h
    split at h
    · rename_i r hr
      simp only [Option.map_eq_some_iff, Prod.mk.injEq] at h
      obtain ⟨_, hgap, rfl, rfl⟩ := h
      exact ⟨s, by rw [Role.sigil_of_ofSigil? hr]; rfl, hgap⟩
    · simp only [Option.map_eq_some_iff, Prod.mk.injEq] at h
      obtain ⟨_, hgap, rfl, rfl⟩ := h
      exact ⟨c :: s, rfl, hgap⟩

/-- What is read of a tag before its name, and that the name is read behind it. -/
theorem read?_name {rest : List Char} {t : TagForm} (h : read? d s = some (t, rest)) :
    ∃ s', s = d.opening.toList ++ (t.lead ++ (t.role.sigil ++ (t.gap ++ s'))) ∧
      (∀ c ∈ t.lead, Text.isBlank c = true) ∧ (∀ c ∈ t.gap, Text.isBlank c = true) ∧
      readName d s' = some (t.name, t.trail, rest) := by
  simp only [read?, Option.pure_def, Option.bind_eq_bind, Option.bind_eq_some_iff,
    Option.some.injEq, Prod.mk.injEq] at h
  obtain ⟨s₁, hopening, ⟨lead, role, gap, name, trail, rest⟩, hparts, rfl, rfl⟩ := h
  obtain rfl := Text.strip?_eq_some_iff.1 hopening
  obtain ⟨s₂, rfl, hlead, hrole⟩ := Text.greedy_sound hparts
  obtain ⟨s₃, rfl, hread⟩ := readRole_sound hrole
  obtain ⟨s₄, rfl, hgap, hname⟩ := Text.greedy_sound hread
  exact ⟨s₄, rfl, hlead, hgap, hname⟩

end

/-- What is read is a well-formed tag, written at the front of the text. -/
theorem read?_sound {d : Delimiters} {s rest : List Char} {t : TagForm}
    (h : read? d s = some (t, rest)) : t.WellFormed ∧ s = t.write d ++ rest := by
  obtain ⟨s₁, rfl, hlead, hgap, hread⟩ := read?_name h
  obtain ⟨s₂, rfl, hne, hname, hread⟩ := readName_sound hread
  obtain ⟨rfl, htrail⟩ := readTrail_sound hread
  exact ⟨⟨hlead, hgap, hname, hne, htrail⟩, by simp [write]⟩

/-- A tag is not empty. -/
theorem write_ne_nil (d : Delimiters) (t : TagForm) : t.write d ≠ [] := by
  have h : d.opening.toList ≠ [] := fun e => d.opening_ne (String.toList_eq_nil_iff.1 e)
  simp [write, h]

/-- Reading a tag consumes text. -/
theorem read?_length {d : Delimiters} {s rest : List Char} {t : TagForm}
    (h : read? d s = some (t, rest)) : rest.length < s.length := by
  obtain ⟨-, rfl⟩ := read?_sound h
  have := List.length_pos_iff.2 (write_ne_nil d t)
  simp only [List.length_append]
  omega

end TagForm

end Stencil
