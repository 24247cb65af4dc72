import Stencil.Proofs.Letters
import Stencil.Proofs.Scanning

set_option relaxedAutoImplicit false
set_option autoImplicit false

/-!
# Parts of a text as texts of their own

What is read in a text may depend on what comes after it: a name goes on as long as a closing marker
can still be found. But what has been read up to some place does not change if the text ends there,
or anywhere behind it. So the part of a text between two of its tags, taken as a text of its own,
has the tokens that it has there.

## Main results

* `Stencil.Text.greedy_of_append` — the longest run is the longest one in a shorter text as well.
* `Stencil.TagForm.read?_of_append` — a tag is read in the same way if the text ends behind it.
* `Stencil.Piece.Scanned.of_append_tag` — what is in front of a tag are the pieces of a text.
* `Stencil.Token.letters_ofText_excerpt` — the tokens in front of a tag are those of a text, apart
  from places.
-/

namespace Stencil

/-! ### Longest runs -/

namespace Text

variable {α : Type} {p : Char → Bool} {k : List Char → Option α}

lemma strip?_append_isSome {m s more : List Char} (h : (strip? m s).isSome = true) :
    (strip? m (s ++ more)).isSome = true := by
  obtain ⟨r, hr⟩ := Option.isSome_iff_exists.1 h
  obtain rfl := strip?_eq_some_iff.1 hr
  rw [List.append_assoc, strip?_append]
  rfl

/-- Something is read in a longer text if something is in the shorter one. -/
lemma greedy_append_isSome {s more : List Char}
    (hk : ∀ s, (k s).isSome = true → (k (s ++ more)).isSome = true)
    (h : (greedy p k s).isSome = true) : (greedy p k (s ++ more)).isSome = true := by
  obtain ⟨run, rest, rfl, hrun, hrest⟩ := greedy_isSome_iff.1 h
  exact greedy_isSome_iff.2 ⟨run, rest ++ more, List.append_assoc .., hrun, hk rest hrest⟩

/-- No run after which the reader succeeds is longer than the one that is read. -/
lemma length_le_of_greedy {run run' rest : List Char} {a : α}
    (h : greedy p k (run ++ rest) = some (run', a)) (hrun : ∀ c ∈ run, p c = true)
    (hrest : (k rest).isSome = true) : run.length ≤ run'.length := by
  induction run generalizing run' with
  | nil => exact Nat.zero_le _
  | cons c run ih =>
    obtain ⟨hc, hrun⟩ := List.forall_mem_cons.1 hrun
    have hsome := greedy_isSome_iff.2 ⟨run, rest, rfl, hrun, hrest⟩
    obtain ⟨⟨run'', b⟩, hr⟩ := Option.isSome_iff_exists.1 hsome
    simp only [List.cons_append, greedy, if_pos hc, hr, Option.some.injEq, Prod.mk.injEq] at h
    obtain ⟨rfl, rfl⟩ := h
    exact Nat.succ_le_succ (ih hr hrun)

/-- The reader gets what is behind the run. -/
lemma greedy_rest {run rest : List Char} {a : α} (h : greedy p k (run ++ rest) = some (run, a)) :
    k rest = some a := by
  obtain ⟨rest', hs, -, hk⟩ := greedy_sound h
  rwa [← List.append_cancel_left hs] at hk

/-- **The longest run is the longest one in a shorter text as well**, if the reader succeeds behind
it in both, and succeeds in longer texts wherever it does in shorter ones. -/
theorem greedy_of_append {run rest more : List Char} {a a' : α}
    (hk : ∀ s, (k s).isSome = true → (k (s ++ more)).isSome = true)
    (h : greedy p k (run ++ (rest ++ more)) = some (run, a)) (hrest : k rest = some a') :
    greedy p k (run ++ rest) = some (run, a') := by
  obtain ⟨-, -, hrun, -⟩ := greedy_sound h
  have hsome := greedy_isSome_iff.2 ⟨run, rest, rfl, hrun, Option.isSome_iff_exists.2 ⟨a', hrest⟩⟩
  obtain ⟨⟨run', b⟩, hr⟩ := Option.isSome_iff_exists.1 hsome
  obtain ⟨rest', hs, hrun', hb⟩ := greedy_sound hr
  have hle : run.length ≤ run'.length :=
    length_le_of_greedy hr hrun (Option.isSome_iff_exists.2 ⟨a', hrest⟩)
  have hge : run'.length ≤ run.length := by
    rw [← List.append_assoc, hs, List.append_assoc] at h
    exact length_le_of_greedy h hrun' (hk rest' (Option.isSome_iff_exists.2 ⟨b, hb⟩))
  obtain ⟨rfl, rfl⟩ := List.append_inj hs (Nat.le_antisymm hle hge)
  cases hrest.symm.trans hb
  exact hr

end Text

/-! ### Tags in shorter texts -/

namespace TagForm

variable {d : Delimiters} {gap name trail rest more : List Char}

lemma readTrail_append_isSome {s : List Char} (h : (readTrail d s).isSome = true) :
    (readTrail d (s ++ more)).isSome = true :=
  Text.greedy_append_isSome (fun _ => Text.strip?_append_isSome) h

lemma readName_append_isSome {s : List Char} (h : (readName d s).isSome = true) :
    (readName d (s ++ more)).isSome = true := by
  cases s with
  | nil => cases h
  | cons c s =>
    simp only [List.cons_append, readName] at h ⊢
    split
    · next hc =>
      rw [if_pos hc, Option.isSome_map] at h
      rw [Option.isSome_map]
      exact Text.greedy_append_isSome (fun _ => readTrail_append_isSome) h
    · next hc =>
      rw [if_neg hc] at h
      cases h

lemma readGap_append_isSome {s : List Char} (h : (readGap d s).isSome = true) :
    (readGap d (s ++ more)).isSome = true :=
  Text.greedy_append_isSome (fun _ => readName_append_isSome) h

lemma readRole_append_isSome {s : List Char} (h : (readRole d s).isSome = true) :
    (readRole d (s ++ more)).isSome = true := by
  cases s with
  | nil => cases h
  | cons c s =>
    simp only [List.cons_append, readRole] at h ⊢
    split at h
    · rw [Option.isSome_map] at h ⊢
      exact readGap_append_isSome h
    · rw [Option.isSome_map] at h ⊢
      rw [← List.cons_append]
      exact readGap_append_isSome h

/-! In each of the following statements `rest ++ more` is behind the tag, and the text ends before
`more` afterwards. -/

lemma readTrail_of_append
    (h : readTrail d (trail ++ ((d.closing.toList ++ rest) ++ more)) = some (trail, rest ++ more)) :
    readTrail d (trail ++ (d.closing.toList ++ rest)) = some (trail, rest) :=
  Text.greedy_of_append (fun _ => Text.strip?_append_isSome) h (Text.strip?_append ..)

lemma readName_of_append
    (h : readName d (name ++ ((trail ++ (d.closing.toList ++ rest)) ++ more)) =
      some (name, trail, rest ++ more)) :
    readName d (name ++ (trail ++ (d.closing.toList ++ rest))) = some (name, trail, rest) := by
  cases name with
  | nil =>
    rw [List.nil_append] at h
    generalize (trail ++ (d.closing.toList ++ rest)) ++ more = s at h
    cases s with
    | nil => cases h
    | cons c s =>
      simp only [readName] at h
      split at h
      · simp at h
      · cases h
  | cons c name =>
    simp only [List.cons_append, readName] at h ⊢
    split at h
    · next hc =>
      simp only [Option.map_eq_some_iff, Prod.mk.injEq, List.cons.injEq, true_and] at h
      obtain ⟨⟨_, _⟩, h, rfl, hrest⟩ := h
      cases hrest
      have htrail := Text.greedy_rest h
      rw [List.append_assoc] at htrail
      rw [if_pos hc, Text.greedy_of_append (fun _ => readTrail_append_isSome) h
        (readTrail_of_append htrail)]
      rfl
    · cases h

lemma readGap_of_append
    (h : readGap d (gap ++ ((name ++ (trail ++ (d.closing.toList ++ rest))) ++ more)) =
      some (gap, name, trail, rest ++ more)) :
    readGap d (gap ++ (name ++ (trail ++ (d.closing.toList ++ rest)))) =
      some (gap, name, trail, rest) := by
  have hname := Text.greedy_rest h
  rw [List.append_assoc] at hname
  exact Text.greedy_of_append (fun _ => readName_append_isSome) h (readName_of_append hname)

lemma readRole_of_append {role : Role}
    (h : readRole d (role.sigil ++
        ((gap ++ (name ++ (trail ++ (d.closing.toList ++ rest)))) ++ more)) =
      some (role, gap, name, trail, rest ++ more)) :
    readRole d (role.sigil ++ (gap ++ (name ++ (trail ++ (d.closing.toList ++ rest))))) =
      some (role, gap, name, trail, rest) := by
  have hgap : readGap d ((gap ++ (name ++ (trail ++ (d.closing.toList ++ rest)))) ++ more) =
      some (gap, name, trail, rest ++ more) →
      readGap d (gap ++ (name ++ (trail ++ (d.closing.toList ++ rest)))) =
        some (gap, name, trail, rest) := by
    intro h
    rw [List.append_assoc] at h
    exact readGap_of_append h
  rcases role.sigil_eq_nil_or_singleton with hr | ⟨c, hr⟩
  · have hne : gap ++ (name ++ (trail ++ (d.closing.toList ++ rest))) ≠ [] := by
      have hclosing : d.closing.toList ≠ [] := fun e => d.closing_ne (String.toList_eq_nil_iff.1 e)
      simp [hclosing]
    rw [hr, List.nil_append] at h ⊢
    generalize hs : gap ++ (name ++ (trail ++ (d.closing.toList ++ rest))) = s at *
    cases s with
    | nil => exact absurd rfl hne
    | cons c s =>
      simp only [List.cons_append, readRole] at h ⊢
      split at h
      · next role' hrole' =>
        simp only [Option.map_eq_some_iff, Prod.mk.injEq] at h
        obtain ⟨_, -, rfl, -⟩ := h
        rw [Role.sigil_of_ofSigil? hrole'] at hr
        cases hr
      · simp only [Option.map_eq_some_iff, Prod.mk.injEq] at h
        obtain ⟨_, h, rfl, rfl⟩ := h
        rw [hgap h]
        rfl
  · rw [hr] at h ⊢
    simp only [List.cons_append, List.nil_append, readRole, Role.ofSigil?_of_sigil hr,
      Option.map_eq_some_iff, Prod.mk.injEq, true_and] at h ⊢
    obtain ⟨_, h, rfl⟩ := h
    exact ⟨_, hgap h, rfl⟩

/-- **A tag is read in the same way if the text ends behind it.** -/
theorem read?_of_append {form : TagForm}
    (h : read? d (form.write d ++ (rest ++ more)) = some (form, rest ++ more)) :
    read? d (form.write d ++ rest) = some (form, rest) := by
  obtain ⟨lead, role, gap, name, trail⟩ := form
  simp only [read?, write, List.append_assoc, Text.strip?_append, Option.pure_def,
    Option.bind_eq_bind, Option.bind_some, Option.bind_eq_some_iff, Option.some.injEq,
    Prod.mk.injEq, TagForm.mk.injEq] at h ⊢
  obtain ⟨⟨lead, role, gap, name, trail, _⟩, h, ⟨rfl, rfl, rfl, rfl, rfl⟩, rfl⟩ := h
  dsimp only at h ⊢
  have hsplit : role.sigil ++ (gap ++ (name ++ (trail ++ (d.closing.toList ++ (rest ++ more))))) =
      (role.sigil ++ (gap ++ (name ++ (trail ++ (d.closing.toList ++ rest))))) ++ more := by
    simp
  rw [hsplit] at h
  have hrole := Text.greedy_rest h
  rw [List.append_assoc] at hrole
  exact ⟨_, Text.greedy_of_append (fun _ => readRole_append_isSome) h (readRole_of_append hrole),
    ⟨rfl, rfl, rfl, rfl, rfl⟩, rfl⟩

/-- Where no tag is read in a text, none is read in a shorter one. -/
lemma read?_eq_none_of_append {s : List Char} (h : read? d (s ++ more) = none) :
    read? d s = none := by
  rw [← Option.not_isSome_iff_eq_none] at h ⊢
  intro hsome
  obtain ⟨form, rest, hform, rfl⟩ := read?_isSome_iff.1 hsome
  exact h (read?_isSome_iff.2 ⟨form, rest ++ more, hform, List.append_assoc ..⟩)

end TagForm

/-! ### Pieces in front of a tag -/

namespace Piece

variable {d : Delimiters}

/-- **What is in front of a tag are the pieces of a text.** -/
theorem Scanned.of_append_tag {ps qs : List Piece} {form : TagForm}
    (h : Scanned d (ps ++ .tag form :: qs)) : Scanned d ps := by
  induction ps with
  | nil => exact .nil
  | cons p ps ih =>
    rw [List.cons_append] at h
    generalize hrest : ps ++ .tag form :: qs = rest at h
    cases h with
    | tag hread hps =>
      subst hrest
      rw [written_append] at hread
      exact .tag (TagForm.read?_of_append hread) (ih hps)
    | @text content _ hne hnone hnext hps =>
      subst hrest
      refine .text hne (fun before c after hsplit => ?_) (fun p hp => hnext p ?_) (ih hps)
      · have := hnone before c after hsplit
        rw [written_append, ← List.append_assoc] at this
        exact TagForm.read?_eq_none_of_append this
      · cases ps with
        | nil => cases hp
        | cons q ps => exact hp

end Piece

/-! ### Tokens in front of a tag -/

namespace Token

variable {d : Delimiters}

/-- Tokens one after the other come from pieces one after the other. -/
lemma exists_of_ofPieces_eq_append {level start : Nat} {ps : List Piece} {ts us : List Token}
    (h : ofPieces d level start ps = ts ++ us) : ∃ qs rs, ps = qs ++ rs ∧
      ts = ofPieces d level start qs ∧
      us = ofPieces d level (start + Text.byteLength (Piece.written d qs)) rs := by
  induction ts generalizing start ps with
  | nil => exact ⟨[], ps, rfl, rfl, h.symm⟩
  | cons t ts ih =>
    cases ps with
    | nil => cases h
    | cons p ps =>
      rw [ofPieces, List.cons_append] at h
      obtain ⟨rfl, hrest⟩ := List.cons.inj h
      obtain ⟨qs, rs, rfl, rfl, rfl⟩ := ih hrest
      refine ⟨p :: qs, rs, rfl, rfl, ?_⟩
      rw [Piece.written_cons, Text.byteLength_append, Nat.add_assoc]

/-- **The tokens in front of a tag are those of a text**, apart from places: of what they were read
from. -/
theorem letters_ofText_excerpt {level : Nat} {source : String} {before mid after : List Token}
    {closer : Tag} (h : ofText d level source = before ++ (mid ++ .tag closer :: after)) :
    letters (ofText d level (String.join (mid.map raw))) = letters mid := by
  have hscanned := Piece.scanned_scan (d := d) source.toList
  obtain ⟨ps, qs, hpieces, -, hqs⟩ := exists_of_ofPieces_eq_append h
  obtain ⟨rs, us, rfl, rfl, hus⟩ := exists_of_ofPieces_eq_append hqs.symm
  cases us with
  | nil => cases hus
  | cons p us =>
    cases p with
    | text content => cases hus
    | tag form =>
      rw [hpieces] at hscanned
      have hpart := hscanned.of_append.of_append_tag.scan_written
      rw [join_raw_ofPieces, ofText, String.toList_ofList, hpart]
      exact letters_ofPieces d level level _ _ rs

end Token

end Stencil
