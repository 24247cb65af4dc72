import Stencil.Proofs.Excerpts

set_option relaxedAutoImplicit false
set_option autoImplicit false

/-!
# Where tags end

The closing marker may be made of characters that stand inside tags as well, and then a tag may be
complete at several places of the text. It ends at the last of them: names and blanks are read as
far as a closing marker can still be found. Whether there are several places depends on the closing
marker alone. If it cannot be found again behind characters of names and blanks that it begins with,
then a tag is complete at one place only, which is the nearest one.

## Main definitions

* `Stencil.TagForm.front` — what stands between the opening marker and the name.
* `Stencil.Delimiters.Recurs` — the closing marker is found again behind some characters of names
  and blanks.

## Main results

* `Stencil.TagForm.length_le_of_readName` — names and blanks are read as far as can be.
* `Stencil.TagForm.write_isPrefix_of_read?` — no tag that starts at the same place is longer than
  the one that is read.
* `Stencil.TagForm.recurs_of_write_isPrefix` — one tag goes on behind the end of another one only if
  the closing marker recurs.
* `Stencil.Token.ofText_tags_end_farthest` — where the tags of a text end.
* `Stencil.Token.ofText_tag_beyond_nearest_closing` — a tag that goes on behind the nearest place.
-/

namespace Stencil

namespace TagForm

variable {d : Delimiters} {t t' : TagForm}

/-! ### In front of the name -/

/-- What stands between the opening marker and the name. -/
def front (t : TagForm) : List Char := t.lead ++ t.role.sigil ++ t.gap

lemma write_eq_front (d : Delimiters) (t : TagForm) :
    t.write d = d.opening.toList ++ (t.front ++ (t.name ++ (t.trail ++ d.closing.toList))) := by
  simp [write, front]

/-- It has no character of names. -/
lemma isNameChar_of_mem_front (ht : t.WellFormed) {c : Char} (hc : c ∈ t.front) :
    isNameChar c = false := by
  simp only [front, List.mem_append] at hc
  rcases hc with (hc | hc) | hc
  · exact isNameChar_of_isBlank (ht.lead c hc)
  · exact (isSigil_of_mem_sigil hc).2
  · exact isNameChar_of_isBlank (ht.gap c hc)

/-- So it is all that comes before the first character of names. -/
lemma takeWhile_front (ht : t.WellFormed) (s : List Char) :
    (t.front ++ (t.name ++ s)).takeWhile (fun c => !isNameChar c) = t.front := by
  obtain ⟨c, name, hname⟩ := List.exists_cons_of_ne_nil ht.name_ne
  have hc : isNameChar c = true := ht.name c (by simp [hname])
  rw [List.takeWhile_append_of_pos fun b hb => by simp [isNameChar_of_mem_front ht hb], hname]
  simp [hc]

/-- Tags that start at the same place of a text have the same front. -/
lemma front_eq_of_append_eq (ht : t.WellFormed) (ht' : t'.WellFormed) {s s' : List Char}
    (h : t.front ++ (t.name ++ s) = t'.front ++ (t'.name ++ s')) :
    t.front = t'.front ∧ t.name ++ s = t'.name ++ s' := by
  have hfront : t.front = t'.front := by
    rw [← takeWhile_front ht s, h, takeWhile_front ht']
  rw [hfront] at h
  exact ⟨hfront, List.append_cancel_left h⟩

/-- Where a character of names comes next, no blanks do. -/
lemma eq_nil_of_append_eq_cons {trail s s' : List Char} {c : Char}
    (htrail : ∀ b ∈ trail, Text.isBlank b = true) (hc : isNameChar c = true)
    (h : trail ++ s = c :: s') : trail = [] := by
  cases trail with
  | nil => rfl
  | cons b trail =>
    obtain ⟨rfl, -⟩ := List.cons.inj h
    rw [isNameChar_of_isBlank (htrail b List.mem_cons_self)] at hc
    cases hc

/-! ### The longest tag -/

/-- **Names and blanks are read as far as a closing marker can still be found**: wherever one is
found behind a name and blanks, the name and the blanks that are read are no shorter.

**Proof sketch.** The name that is read is no shorter, since the longest one is taken. If it is
longer, then a character of names follows the other one, so no blanks do. If it is the same, then
the longest run of blanks is taken. -/
theorem length_le_of_readName {name trail rest name' trail' rest' : List Char}
    (h : readName d (name' ++ (trail' ++ (d.closing.toList ++ rest'))) = some (name, trail, rest))
    (hne' : name' ≠ []) (hname' : ∀ c ∈ name', isNameChar c = true)
    (htrail' : ∀ c ∈ trail', Text.isBlank c = true) :
    name'.length + trail'.length ≤ name.length + trail.length := by
  obtain ⟨s, hs, -, hname, htrail⟩ := readName_sound h
  have hle : name'.length ≤ name.length := by
    obtain ⟨c, name', rfl⟩ := List.exists_cons_of_ne_nil hne'
    obtain ⟨hc, hname'⟩ := List.forall_mem_cons.1 hname'
    simp only [List.cons_append, readName, if_pos hc, Option.map_eq_some_iff, Prod.mk.injEq] at h
    obtain ⟨⟨run, _⟩, hrun, rfl, -⟩ := h
    have := Text.length_le_of_greedy hrun hname' (readTrail_isSome htrail')
    simp only [List.length_cons]
    omega
  obtain ⟨es, rfl⟩ : name' <+: name :=
    List.prefix_of_prefix_length_le ⟨_, rfl⟩ ⟨s, hs.symm⟩ hle
  have hrest : trail' ++ (d.closing.toList ++ rest') = es ++ s := by
    rw [List.append_assoc] at hs
    exact List.append_cancel_left hs
  cases es with
  | nil =>
    rw [List.nil_append] at hrest
    rw [← hrest] at htrail
    have := Text.length_le_of_greedy htrail htrail' (by simp)
    simpa using this
  | cons e es =>
    have he : isNameChar e = true := hname e (by simp)
    rw [eq_nil_of_append_eq_cons htrail' he hrest]
    simp only [List.length_append, List.length_cons, List.length_nil]
    omega

/-- **No tag that starts at the same place is longer than the one that is read.** -/
theorem write_isPrefix_of_read? {s rest rest' : List Char} (h : read? d s = some (t, rest))
    (ht' : t'.WellFormed) (hs : s = t'.write d ++ rest') : t'.write d <+: t.write d := by
  obtain ⟨ht, hsound⟩ := read?_sound h
  obtain ⟨s', hfront, -, -, hname⟩ := read?_name h
  -- both tags have the same front
  have hsplit : t.front ++ s' =
      t'.front ++ (t'.name ++ (t'.trail ++ (d.closing.toList ++ rest'))) := by
    rw [hs, write_eq_front] at hfront
    simp only [List.append_assoc, front] at hfront ⊢
    exact (List.append_cancel_left hfront).symm
  obtain ⟨s₁, rfl, -, -, -⟩ := readName_sound hname
  obtain ⟨hfronts, hrest⟩ := front_eq_of_append_eq ht ht' hsplit
  rw [hrest] at hname
  have hle := length_le_of_readName hname ht'.name_ne ht'.name ht'.trail
  refine List.prefix_of_prefix_length_le ⟨rest', hs.symm⟩ ⟨rest, hsound.symm⟩ ?_
  simp only [write_eq_front, List.length_append, hfronts]
  omega

end TagForm

/-! ### Closing markers that are found again -/

/-- The closing marker recurs: some text that begins with it has it once more behind characters of
names and then of blanks, at least one of them. So a tag that is complete at the first of the two
may go on to the second one. -/
def Delimiters.Recurs (d : Delimiters) : Prop :=
  ∃ name trail : List Char, (∀ c ∈ name, isNameChar c = true) ∧
    (∀ c ∈ trail, Text.isBlank c = true) ∧ name ++ trail ≠ [] ∧
    d.closing.toList <+: name ++ (trail ++ d.closing.toList)

/-- A closing marker does not recur if it begins with a character that is neither blank nor occurs
in names. -/
theorem Delimiters.not_recurs_of_head {d : Delimiters}
    (h : ∀ c ∈ d.closing.toList.head?, isNameChar c = false ∧ Text.isBlank c = false) :
    ¬ d.Recurs := by
  rintro ⟨name, trail, hname, htrail, hne, more, hmore⟩
  have hclosing : d.closing.toList ≠ [] := fun e => d.closing_ne (String.toList_eq_nil_iff.1 e)
  obtain ⟨c, cs, hcs⟩ := List.exists_cons_of_ne_nil hclosing
  obtain ⟨hc, hblank⟩ := h c (by simp [hcs])
  rw [hcs, List.cons_append] at hmore
  cases name with
  | cons b name =>
    obtain ⟨rfl, -⟩ := List.cons.inj hmore
    rw [hname c List.mem_cons_self] at hc
    cases hc
  | nil =>
    cases trail with
    | nil => exact hne rfl
    | cons b trail =>
      obtain ⟨rfl, -⟩ := List.cons.inj hmore
      rw [htrail c List.mem_cons_self] at hblank
      cases hblank

example : ¬ Delimiters.standard.Recurs := by
  have hhead : Delimiters.standard.closing.toList.head? = some '}' := by decide
  apply Delimiters.not_recurs_of_head
  rw [hhead]
  rintro c ⟨⟩
  decide

namespace TagForm

variable {d : Delimiters} {t t' : TagForm}

/-- **One tag goes on behind the end of another one only if the closing marker recurs.**

**Proof sketch.** Both have the same front. What the longer one has more of its name and of the
blanks after it stands where the closing marker of the shorter one starts. -/
theorem recurs_of_write_isPrefix (ht : t.WellFormed) (ht' : t'.WellFormed)
    (h : t'.write d <+: t.write d) (hne : t'.write d ≠ t.write d) : d.Recurs := by
  obtain ⟨more, hmore⟩ := h
  have hmore_ne : more ≠ [] := by
    rintro rfl
    exact hne (by simpa using hmore)
  have hpos := List.length_pos_iff.2 hmore_ne
  have hsplit : t'.front ++ (t'.name ++ (t'.trail ++ (d.closing.toList ++ more))) =
      t.front ++ (t.name ++ (t.trail ++ d.closing.toList)) := by
    simp only [write_eq_front, List.append_assoc] at hmore
    exact List.append_cancel_left hmore
  obtain ⟨-, hrest⟩ := front_eq_of_append_eq ht' ht hsplit
  have hlength := congrArg List.length hrest
  simp only [List.length_append] at hlength
  have hle : t'.name.length ≤ t.name.length := by
    by_contra hlt
    obtain ⟨es, hname⟩ : t.name <+: t'.name :=
      List.prefix_of_prefix_length_le ⟨_, rfl⟩ ⟨_, hrest⟩ (by omega)
    rw [← hname, List.append_assoc] at hrest
    cases es with
    | nil => simp [← hname] at hlt
    | cons e es =>
      have he : isNameChar e = true := ht'.name e (by simp [← hname])
      have htrail := eq_nil_of_append_eq_cons ht.trail he (List.append_cancel_left hrest).symm
      rw [htrail, List.length_nil] at hlength
      omega
  obtain ⟨es, hname⟩ : t'.name <+: t.name :=
    List.prefix_of_prefix_length_le ⟨_, rfl⟩ ⟨_, hrest.symm⟩ hle
  rw [← hname, List.append_assoc] at hrest
  have htrail : t'.trail ++ (d.closing.toList ++ more) = es ++ (t.trail ++ d.closing.toList) :=
    List.append_cancel_left hrest
  cases es with
  | nil =>
    -- the same name, so the longer one has more blanks
    obtain ⟨bs, hbs⟩ : t'.trail <+: t.trail := by
      rw [← hname, List.append_nil] at hlength
      exact List.prefix_of_prefix_length_le ⟨_, rfl⟩ ⟨_, htrail.symm⟩ (by omega)
    rw [← hbs, List.nil_append, List.append_assoc] at htrail
    have hclosing := List.append_cancel_left htrail
    refine ⟨[], bs, by simp, fun c hc => ht.trail c ?_, ?_, more, hclosing⟩
    · rw [← hbs]
      exact List.mem_append_right _ hc
    · rintro rfl
      have := congrArg List.length hclosing
      simp only [List.length_append, List.length_nil] at this
      omega
  | cons e es =>
    -- a longer name, so it goes on where the closing marker of the shorter one starts
    have hes : ∀ c ∈ e :: es, isNameChar c = true := by
      intro c hc
      apply ht.name
      rw [← hname]
      exact List.mem_append_right _ hc
    have hnil := eq_nil_of_append_eq_cons ht'.trail (hes e List.mem_cons_self) htrail
    rw [hnil, List.nil_append] at htrail
    exact ⟨e :: es, t.trail, hes, ht.trail, by simp, more, htrail⟩

/-- If the closing marker recurs, then one tag goes on behind the end of another one. -/
theorem exists_write_isPrefix_of_recurs (h : d.Recurs) : ∃ t t' : TagForm,
    t.WellFormed ∧ t'.WellFormed ∧ t'.write d <+: t.write d ∧ t'.write d ≠ t.write d := by
  obtain ⟨name, trail, hname, htrail, hne, more, hmore⟩ := h
  refine ⟨⟨[], .value, [], 'x' :: name, trail⟩, ⟨[], .value, [], ['x'], []⟩, ?_, ?_, ?_, ?_⟩
  · exact ⟨by simp, by simp, List.forall_mem_cons.2 ⟨rfl, hname⟩, by simp, htrail⟩
  · exact ⟨by simp, by simp, by simp [isNameChar], by simp, by simp⟩
  · refine ⟨more, ?_⟩
    simp [write, Role.sigil, hmore]
  · intro heq
    have hlength := congrArg List.length heq
    have hpos := List.length_pos_iff.2 hne
    simp only [write, Role.sigil, List.length_append, List.length_cons, List.length_nil]
      at hlength hpos
    omega

end TagForm

/-! ### The tags of a text -/

namespace Token

variable {d : Delimiters}

/-- **Where the tags of a text end.**

What is taken for a tag is complete, and no tag that starts at the same place of the text goes on
behind its end: it ends at the farthest closing marker that completes it. That this is the nearest
one as well, for the tags of all texts, is so exactly if the closing marker does not recur behind
characters of names and blanks.

**Proof sketch.** Of two tags at the same place the one that is read is no shorter. If the other one
is shorter, then the closing marker recurs; and if it does, then there is a tag that goes on behind
the end of another one, which is a text with such a tag. -/
theorem ofText_tags_end_farthest (d : Delimiters) :
    (∀ level source u, .tag u ∈ ofText d level source →
      (∃ form : TagForm, form.WellFormed ∧ form.write d = u.raw.toList) ∧
      ∀ (before after : String) (form : TagForm), form.WellFormed →
        source = before ++ String.ofList (form.write d) ++ after →
        before.utf8ByteSize = u.span.start → form.write d <+: u.raw.toList) ∧
    ((∀ level source u, .tag u ∈ ofText d level source →
      ∀ form : TagForm, form.WellFormed → form.write d <+: u.raw.toList →
        form.write d = u.raw.toList) ↔ ¬ d.Recurs) := by
  refine ⟨fun level source u hu => ?_, ⟨fun hnearest hrecurs => ?_, fun hnot => ?_⟩⟩
  · obtain ⟨t, front, rest, hsource, hread, hraw, hstart⟩ := exists_read?_of_tag_mem hu
    refine ⟨⟨t, (TagForm.read?_sound hread).1, by rw [hraw, String.toList_ofList]⟩, ?_⟩
    intro before after form hform hbefore hsize
    have hsplit : String.ofList front ++ String.ofList (t.write d ++ rest) =
        before ++ (String.ofList (form.write d) ++ after) := by
      rw [← String.ofList_append, ← hsource, String.ofList_toList, hbefore, String.append_assoc]
    have hsame : (String.ofList front).utf8ByteSize = before.utf8ByteSize := by
      rw [hsize, hstart, Text.utf8ByteSize_ofList]
    have hbehind := congrArg String.toList (Span.eq_of_append_eq_append hsplit hsame).2
    rw [hraw, String.toList_ofList]
    apply TagForm.write_isPrefix_of_read? hread hform
    simpa using hbehind
  · obtain ⟨t, t', ht, ht', hprefix, hne⟩ := TagForm.exists_write_isPrefix_of_recurs hrecurs
    -- the longer tag as a text, in which nothing is longer
    obtain ⟨⟨form, rest⟩, hread⟩ := Option.isSome_iff_exists.1
      (TagForm.read?_isSome_iff.2 ⟨t, [], ht, (List.append_nil (t.write d)).symm⟩)
    have hlonger : t.write d <+: form.write d :=
      TagForm.write_isPrefix_of_read? hread ht (List.append_nil _).symm
    have hmem : .tag ⟨form.role, String.ofList form.name, String.ofList (form.write d),
        ⟨0, 0 + Text.byteLength (form.write d)⟩, 0⟩ ∈ ofText d 0 (String.ofList (t.write d)) := by
      rw [ofText, String.toList_ofList, Piece.scan_of_read? hread]
      exact List.mem_cons_self
    have hequal := hnearest 0 _ _ hmem t' ht' (by simpa using hprefix.trans hlonger)
    rw [String.toList_ofList] at hequal
    apply hne
    apply hprefix.eq_of_length_le
    rw [hequal]
    exact hlonger.length_le
  · intro level source u hu form hform hprefix
    obtain ⟨t, _, rest, -, hread, hraw, -⟩ := exists_read?_of_tag_mem hu
    rw [hraw, String.toList_ofList] at hprefix ⊢
    by_contra hne
    exact hnot (TagForm.recurs_of_write_isPrefix (TagForm.read?_sound hread).1 hform hprefix hne)

/-- **A tag that goes on behind the nearest closing marker.** The characters of the markers occur in
names as well, and what looks like two tags with a plain text between them is one. -/
theorem ofText_tag_beyond_nearest_closing :
    let d : Delimiters := ⟨"__", "__", by decide, by decide⟩
    ∃ (u : Tag) (form : TagForm), .tag u ∈ ofText d 0 "__a__x__b__" ∧ form.WellFormed ∧
      form.write d <+: u.raw.toList ∧ form.write d ≠ u.raw.toList := by
  intro d
  let u : Tag := ⟨.value, "a__x__b", "__a__x__b__", ⟨0, 11⟩, 0⟩
  have htokens : ofText d 0 "__a__x__b__" = [.tag u] := by decide +kernel
  refine ⟨u, ⟨[], .value, [], ['a'], []⟩, ?_, ?_, ?_, ?_⟩
  · rw [htokens]
    exact List.mem_cons_self
  · exact ⟨by simp, by simp, by simp [isNameChar], by simp, by simp⟩
  · decide
  · decide

end Token

end Stencil
