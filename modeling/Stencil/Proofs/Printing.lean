import Stencil.Proofs.Scanning

set_option relaxedAutoImplicit false
set_option autoImplicit false

/-!
# Pieces that are read back

Pieces are written one after the other, and the text is divided into pieces again. In general others
come out: a tag may end at an earlier closing marker, or at a later one, and the end of a plain text
may form a marker together with what follows. Neither can happen if no character of the markers may
stand between the markers of a tag, and no plain text holds the opening marker. Then the pieces that
come out are those that were written.

## Main definitions

* `Stencil.Delimiters.Apart` — no character of the markers may stand inside a tag.
* `Stencil.TagForm.normal` — the form that a written tag is read as.
* `Stencil.Piece.Clear` — the piece is a well-formed tag, or plain text without opening marker.

## Main results

* `Stencil.TagForm.read?_write` — a written tag is read, up to its own closing marker.
* `Stencil.TagForm.read?_eq_none_of_clear` — no tag is read inside plain text.
* `Stencil.Piece.scanned_written` — the pieces that come out.
* `Stencil.Token.ofText_written` — the tokens of a text that was written.
* `Stencil.Token.ofText_undoes_writing` — they are the pieces that were written, one by one.
-/

namespace Stencil

/-- No character of the markers may stand between the markers of a tag: none is blank, none occurs
in names, and none is a sigil. -/
def Delimiters.Apart (d : Delimiters) : Prop :=
  ∀ c ∈ d.opening.toList ++ d.closing.toList,
    isNameChar c = false ∧ Text.isBlank c = false ∧ TagForm.isSigil c = false

instance (d : Delimiters) : Decidable d.Apart :=
  List.decidableBAll (fun c => isNameChar c = false ∧ Text.isBlank c = false ∧
    TagForm.isSigil c = false) (d.opening.toList ++ d.closing.toList)

/-- A run that ends before another character is the longest one. -/
lemma Text.greedy_of_stop {α : Type} {p : Char → Bool} {k : List Char → Option α}
    {run rest : List Char} {a : α} (hrun : ∀ c ∈ run, p c = true)
    (hstop : ∀ c ∈ rest.head?, p c = false) (hk : k rest = some a) :
    greedy p k (run ++ rest) = some (run, a) := by
  induction run with
  | nil =>
    cases rest with
    | nil => simp [greedy, hk]
    | cons c rest => simp [greedy, hstop c rfl, hk]
  | cons c run ih =>
    obtain ⟨hc, hrun⟩ := List.forall_mem_cons.1 hrun
    simp [greedy, hc, ih hrun]

namespace TagForm

variable {d : Delimiters} {t : TagForm}

instance : DecidablePred WellFormed := fun t =>
  decidable_of_iff (t.lead.all Text.isBlank ∧ t.gap.all Text.isBlank ∧ t.name.all isNameChar ∧
      t.name ≠ [] ∧ t.trail.all Text.isBlank)
    ⟨fun ⟨hlead, hgap, hname, hne, htrail⟩ => ⟨List.all_eq_true.1 hlead, List.all_eq_true.1 hgap,
        List.all_eq_true.1 hname, hne, List.all_eq_true.1 htrail⟩,
      fun h => ⟨List.all_eq_true.2 h.lead, List.all_eq_true.2 h.gap, List.all_eq_true.2 h.name,
        h.name_ne, List.all_eq_true.2 h.trail⟩⟩

/-! ### A written tag is read -/

/-- The tag as it is read: without a sigil, all blanks before the name stand at the same place. -/
def normal (t : TagForm) : TagForm :=
  match t.role with
  | .value => { t with lead := t.lead ++ t.gap, gap := [] }
  | .opens _ | .closes | .includes => t

@[simp]
lemma role_normal (t : TagForm) : t.normal.role = t.role := by
  unfold normal
  split <;> rfl

@[simp]
lemma name_normal (t : TagForm) : t.normal.name = t.name := by
  unfold normal
  split <;> rfl

/-- It is written in the same way. -/
@[simp]
lemma write_normal (t : TagForm) : t.normal.write d = t.write d := by
  unfold normal
  split
  · next hr => simp [write, hr, Role.sigil]
  all_goals rfl

/-- Names do not begin with blanks. -/
lemma head_name (ht : t.WellFormed) (s : List Char) : ∀ c ∈ (t.name ++ s).head?,
    isNameChar c = true ∧ Text.isBlank c = false := by
  intro c hc
  obtain ⟨c', name, hname⟩ := List.exists_cons_of_ne_nil ht.name_ne
  rw [hname] at hc
  cases hc
  have hc : isNameChar c = true := ht.name c (by simp [hname])
  refine ⟨hc, Bool.eq_false_iff.2 fun hblank => ?_⟩
  rw [isNameChar_of_isBlank hblank] at hc
  cases hc

section

variable (hd : d.Apart)

include hd

/-- The closing marker begins with a character that neither occurs in names nor is blank. -/
lemma head_closing (rest : List Char) : ∀ c ∈ (d.closing.toList ++ rest).head?,
    isNameChar c = false ∧ Text.isBlank c = false := by
  intro c hc
  have hne : d.closing.toList ≠ [] := fun e => d.closing_ne (String.toList_eq_nil_iff.1 e)
  obtain ⟨c', cs, hcs⟩ := List.exists_cons_of_ne_nil hne
  rw [hcs] at hc
  cases hc
  obtain ⟨hname, hblank, -⟩ := hd c (List.mem_append_right _ (by simp [hcs]))
  exact ⟨hname, hblank⟩

lemma readTrail_write (ht : t.WellFormed) (rest : List Char) :
    readTrail d (t.trail ++ (d.closing.toList ++ rest)) = some (t.trail, rest) :=
  Text.greedy_of_stop ht.trail (fun c hc => (head_closing hd rest c hc).2) (Text.strip?_append ..)

lemma readName_write (ht : t.WellFormed) (rest : List Char) :
    readName d (t.name ++ (t.trail ++ (d.closing.toList ++ rest))) =
      some (t.name, t.trail, rest) := by
  obtain ⟨c, name, hname⟩ := List.exists_cons_of_ne_nil ht.name_ne
  have hchars := ht.name
  rw [hname] at hchars ⊢
  obtain ⟨hc, hchars⟩ := List.forall_mem_cons.1 hchars
  have hstop : ∀ c ∈ (t.trail ++ (d.closing.toList ++ rest)).head?, isNameChar c = false := by
    intro c hc
    cases htrail : t.trail with
    | nil =>
      rw [htrail] at hc
      exact (head_closing hd rest c hc).1
    | cons b trail =>
      rw [htrail] at hc
      cases hc
      exact isNameChar_of_isBlank (ht.trail c (by simp [htrail]))
  simp [readName, hc, Text.greedy_of_stop hchars hstop (readTrail_write hd ht rest)]

lemma readGap_write (ht : t.WellFormed) {gap : List Char}
    (hgap : ∀ c ∈ gap, Text.isBlank c = true) (rest : List Char) :
    readGap d (gap ++ (t.name ++ (t.trail ++ (d.closing.toList ++ rest)))) =
      some (gap, t.name, t.trail, rest) :=
  Text.greedy_of_stop hgap (fun c hc => (head_name ht _ c hc).2) (readName_write hd ht rest)

/-- **A written tag is read**, up to its own closing marker. -/
theorem read?_write (ht : t.WellFormed) (rest : List Char) :
    read? d (t.write d ++ rest) = some (t.normal, rest) := by
  have hwritten : Text.strip? d.opening.toList (t.write d ++ rest) =
      some (t.lead ++ (t.role.sigil ++
        (t.gap ++ (t.name ++ (t.trail ++ (d.closing.toList ++ rest)))))) := by
    simp [write]
  rcases t.role.sigil_eq_nil_or_singleton with hsigil | ⟨c, hsigil⟩
  · -- all blanks before the name are taken at once
    have hrole : t.role = .value := Role.sigil_injective hsigil
    have hvalue : readRole d (t.name ++ (t.trail ++ (d.closing.toList ++ rest))) =
        some (.value, [], t.name, t.trail, rest) := by
      have hgap := readGap_write hd ht (List.forall_mem_nil _) rest
      obtain ⟨c, name, hname⟩ := List.exists_cons_of_ne_nil ht.name_ne
      have hc : isNameChar c = true := ht.name c (by simp [hname])
      rw [hname, List.cons_append, List.nil_append] at hgap
      simp only [hname, List.cons_append, readRole, Role.ofSigil?_eq_none (.inr hc), hgap,
        Option.map_some]
    have hblank : ∀ c ∈ t.lead ++ t.gap, Text.isBlank c = true :=
      List.forall_mem_append.2 ⟨ht.lead, ht.gap⟩
    have hread := Text.greedy_of_stop hblank (fun c hc => (head_name ht _ c hc).2) hvalue
    rw [List.append_assoc] at hread
    rw [hsigil, List.nil_append] at hwritten
    simp [read?, hwritten, hread, normal, hrole]
  · -- the sigil ends the blanks before it
    have hne : t.role ≠ .value := by
      intro hrole
      rw [hrole] at hsigil
      cases hsigil
    have hcsigil : isSigil c = true := (isSigil_of_mem_sigil (r := t.role) (by simp [hsigil])).1
    have hrole : readRole d (t.role.sigil ++
        (t.gap ++ (t.name ++ (t.trail ++ (d.closing.toList ++ rest))))) =
        some (t.role, t.gap, t.name, t.trail, rest) := by
      simp only [hsigil, List.cons_append, List.nil_append, readRole, Role.ofSigil?_of_sigil hsigil,
        readGap_write hd ht ht.gap, Option.map_some]
    have hstop : ∀ b ∈ (t.role.sigil ++
        (t.gap ++ (t.name ++ (t.trail ++ (d.closing.toList ++ rest))))).head?,
        Text.isBlank b = false := by
      intro b hb
      rw [hsigil] at hb
      cases hb
      refine Bool.eq_false_iff.2 fun hblank => ?_
      rw [isSigil, Role.ofSigil?_eq_none (.inl hblank)] at hcsigil
      cases hcsigil
    have hnormal : t.normal = t := by
      unfold normal
      split
      · next hr => exact absurd hr hne
      all_goals rfl
    rw [hnormal]
    simp [read?, hwritten, Text.greedy_of_stop ht.lead hstop hrole]

/-! ### No tag is read inside plain text -/

/-- Behind the opening marker of a tag stands no character of the markers. -/
lemma head_inner (ht : t.WellFormed) {c : Char} {s s' : List Char}
    (hc : c ∈ d.opening.toList) : c :: s ≠ t.inner ++ s' := by
  obtain ⟨hname, hblank, hsigil⟩ := hd c (List.mem_append_left _ hc)
  intro h
  have hne : t.inner ≠ [] := by
    obtain ⟨b, name, hb⟩ := List.exists_cons_of_ne_nil ht.name_ne
    simp [inner, hb]
  obtain ⟨b, inner, hinner⟩ := List.exists_cons_of_ne_nil hne
  rw [hinner] at h
  obtain ⟨rfl, -⟩ := List.cons.inj h
  have hmem : c ∈ t.inner := by simp [hinner]
  simp only [TagForm.inner, List.mem_append] at hmem
  rcases hmem with (((hmem | hmem) | hmem) | hmem) | hmem
  · rw [ht.lead c hmem] at hblank
    cases hblank
  · rw [(isSigil_of_mem_sigil hmem).1] at hsigil
    cases hsigil
  · rw [ht.gap c hmem] at hblank
    cases hblank
  · rw [ht.name c hmem] at hname
    cases hname
  · rw [ht.trail c hmem] at hblank
    cases hblank

/-- **No tag is read inside plain text** that does not hold the opening marker, even if the end of
the text and the start of the marker behind it make up another one.

**Proof sketch.** The opening marker of the tag would end in that of the tag behind the text. Then a
character of the marker would be the first one inside the tag. -/
theorem read?_eq_none_of_clear {content more : List Char} (hne : content ≠ [])
    (hfree : ¬ d.opening.toList <:+: content)
    (hmore : more = [] ∨ ∃ rest, more = d.opening.toList ++ rest) :
    read? d (content ++ more) = none := by
  by_contra hread
  obtain ⟨⟨form, rest⟩, hread⟩ := Option.ne_none_iff_exists'.1 hread
  obtain ⟨hform, hsplit⟩ := read?_sound hread
  rw [write_eq, List.append_assoc] at hsplit
  rcases List.append_eq_append_iff.1 hsplit with ⟨tail, hopening, htail⟩ | ⟨tail, hcontent, -⟩
  · -- the marker ends behind the text
    rcases hmore with rfl | ⟨rest', rfl⟩
    · -- nothing is there
      have htail' : tail = [] := (List.append_eq_nil_iff.1 htail.symm).1
      rw [htail', List.append_nil] at hopening
      exact hfree (hopening ▸ List.infix_rfl)
    · have hshort : tail.length < d.opening.toList.length := by
        have hpos := List.length_pos_iff.2 hne
        rw [hopening, List.length_append]
        omega
      -- so the other marker goes on behind it, inside the tag
      rcases List.append_eq_append_iff.1 htail with ⟨left, hleft, -⟩ | ⟨left, hleft, hrest⟩
      · rw [hleft, List.length_append] at hshort
        omega
      · cases left with
        | nil =>
          rw [hleft, List.length_append] at hshort
          simp at hshort
        | cons c left =>
          have hc : c ∈ d.opening.toList := by simp [hleft]
          rw [List.append_assoc, List.cons_append] at hrest
          exact head_inner hd hform hc hrest.symm
  · exact hfree ⟨[], tail, by simp [hcontent]⟩

end

end TagForm

/-! ### Pieces -/

namespace Piece

variable {d : Delimiters}

/-- The piece is plain text without characters. -/
def isEmpty : Piece → Bool
  | text content => content.isEmpty
  | tag _ => false

/-- The piece as it is read. -/
def normal : Piece → Piece
  | text content => text content
  | tag form => tag form.normal

/-- The piece is a well-formed tag, or plain text that does not hold the opening marker. -/
def Clear (d : Delimiters) : Piece → Prop
  | text content => ¬ d.opening.toList <:+: content
  | tag form => form.WellFormed

instance : DecidablePred (Clear d)
  | text content => inferInstanceAs (Decidable (¬ d.opening.toList <:+: content))
  | tag form => inferInstanceAs (Decidable form.WellFormed)

/-- Neither empty pieces nor the places of blanks make a difference to what is written. -/
lemma written_filter_map_normal (ps : List Piece) :
    written d ((ps.filter fun p => !p.isEmpty).map normal) = written d ps := by
  induction ps with
  | nil => rfl
  | cons p ps ih =>
    rw [written_cons, ← ih]
    cases p with
    | tag form =>
      rw [List.filter_cons_of_pos rfl, List.map_cons, written_cons]
      exact congrArg (· ++ _) form.write_normal
    | text content =>
      cases content with
      | nil => rfl
      | cons c content => rw [List.filter_cons_of_pos rfl, List.map_cons, written_cons]; rfl

/-- **The pieces of a text that was written** are those that it was written from, except for empty
ones, if no plain text follows another one.

**Proof sketch.** Induction on the pieces. A plain text is followed by a tag or by nothing, so no
tag is read inside it; a tag is read up to its own closing marker. -/
theorem scanned_written (hd : d.Apart) {ps : List Piece} (hclear : ∀ p ∈ ps, p.Clear d)
    (hchain : ps.IsChain fun p q => ¬ (p.IsText ∧ q.IsText)) :
    Scanned d ((ps.filter fun p => !p.isEmpty).map normal) := by
  induction ps with
  | nil => exact .nil
  | cons p ps ih =>
    obtain ⟨hp, hps⟩ := List.forall_mem_cons.1 hclear
    obtain ⟨hnext, hchain⟩ := List.isChain_cons.1 hchain
    have hrest := ih hps hchain
    cases p with
    | tag form =>
      rw [List.filter_cons_of_pos rfl, List.map_cons]
      refine .tag ?_ hrest
      rw [form.write_normal, TagForm.read?_write hd hp]
    | text content =>
      cases content with
      | nil => exact hrest
      | cons c content =>
        rw [List.filter_cons_of_pos rfl, List.map_cons]
        -- a tag follows, or nothing
        have hmore : written d ((ps.filter fun p => !p.isEmpty).map normal) = [] ∨
            ∃ rest, written d ((ps.filter fun p => !p.isEmpty).map normal) =
              d.opening.toList ++ rest := by
          rw [written_filter_map_normal]
          cases ps with
          | nil => exact .inl rfl
          | cons q ps =>
            cases q with
            | text content => exact absurd ⟨trivial, trivial⟩ (hnext _ rfl)
            | tag form =>
              refine .inr ⟨form.inner ++ d.closing.toList ++ written d ps, ?_⟩
              simp [written_cons, write, TagForm.write_eq]
        refine .text (List.cons_ne_nil c content) ?_ ?_ hrest
        · intro before b after hsplit
          refine TagForm.read?_eq_none_of_clear hd (List.cons_ne_nil b after) ?_ hmore
          rintro ⟨left, right, hinfix⟩
          exact hp ⟨before ++ left, right, by rw [hsplit, ← hinfix]; simp⟩
        · intro q hq
          cases ps with
          | nil => cases hq
          | cons q' ps =>
            cases q' with
            | text content => exact absurd ⟨trivial, trivial⟩ (hnext _ rfl)
            | tag form =>
              cases hq
              exact id

end Piece

/-- The tokens of pieces as they are read are those of the pieces. -/
lemma Token.ofPieces_map_normal (d : Delimiters) (level start : Nat) (ps : List Piece) :
    ofPieces d level start (ps.map Piece.normal) = ofPieces d level start ps := by
  induction ps generalizing start with
  | nil => rfl
  | cons p ps ih =>
    rw [List.map_cons, ofPieces, ofPieces, ih]
    cases p with
    | text content => rfl
    | tag form => simp [ofPiece, Piece.normal, Piece.write]

/-- **The tokens of a text that was written** are those of the pieces that are not empty. -/
theorem Token.ofText_written {d : Delimiters} (hd : d.Apart) (level : Nat) {ps : List Piece}
    (hclear : ∀ p ∈ ps, p.Clear d) (hchain : ps.IsChain fun p q => ¬ (p.IsText ∧ q.IsText)) :
    ofText d level (String.ofList (Piece.written d ps)) =
      ofPieces d level 0 (ps.filter fun p => !p.isEmpty) := by
  have hscan := (Piece.scanned_written hd hclear hchain).scan_written
  rw [Piece.written_filter_map_normal] at hscan
  rw [ofText, String.toList_ofList, hscan, ofPieces_map_normal]

/-- **Reading undoes writing.**

Let pieces be written one after the other with markers that are apart from what is inside tags. The
pieces are plain texts, which are not empty, do not hold the opening marker and do not follow one
another, and well-formed tags. The tokens of what is written are those of the pieces, one for each,
in order: a tag with its role, its name and as it is written, and all with their places, which start
where the pieces before them stop. -/
theorem Token.ofText_undoes_writing {d : Delimiters} (hd : d.Apart) (level : Nat)
    {ps : List Piece} (hne : ∀ p ∈ ps, p.isEmpty = false) (hclear : ∀ p ∈ ps, p.Clear d)
    (hchain : ps.IsChain fun p q => ¬ (p.IsText ∧ q.IsText)) :
    let tokens := ofText d level (String.ofList (Piece.written d ps))
    tokens.length = ps.length ∧
    ∀ before p after, ps = before ++ p :: after →
      let raw := String.ofList (p.write d)
      let start := (String.ofList (Piece.written d before)).utf8ByteSize
      let span : Span := ⟨start, start + raw.utf8ByteSize⟩
      tokens[before.length]? = some (match p with
        | .text content => .text (String.ofList content) span
        | .tag form => .tag ⟨form.role, String.ofList form.name, raw, span, level⟩) := by
  intro tokens
  have hall : (ps.filter fun p => !p.isEmpty) = ps := by
    refine List.filter_eq_self.2 fun p hp => ?_
    simp [hne p hp]
  have htokens : tokens = ofPieces d level 0 ps := by
    rw [← hall]
    exact ofText_written hd level hclear hchain
  refine ⟨by rw [htokens, length_ofPieces], ?_⟩
  rintro before p after rfl
  have htoken : tokens[before.length]? =
      some (ofPiece d level (Text.byteLength (Piece.written d before)) p) := by
    rw [htokens, getElem?_ofPieces]
    simp
  simp only [Text.utf8ByteSize_ofList]
  rw [htoken]
  cases p with
  | text content => rfl
  | tag form => rfl

/-- A case where both markers are the same and overlap themselves, a plain text ends in half a
marker, and characters take more than one byte. -/
theorem Token.ofText_undoes_writing_of_half_markers :
    let d : Delimiters := ⟨"%%", "%%", by decide, by decide⟩
    let ps : List Piece := [.text ['é', '%'], .tag ⟨[' '], .opens .inverted, [], ['a', '.'], []⟩,
      .tag ⟨[], .value, [' '], ['b'], []⟩, .text ['%']]
    let tokens := ofText d 0 (String.ofList (Piece.written d ps))
    tokens.length = 4 ∧ tokens[0]? = some (.text "é%" ⟨0, 3⟩) ∧
      tokens[1]? = some (.tag ⟨.opens .inverted, "a.", "%% ^a.%%", ⟨3, 11⟩, 0⟩) ∧
      tokens[2]? = some (.tag ⟨.value, "b", "%% b%%", ⟨11, 17⟩, 0⟩) ∧
      tokens[3]? = some (.text "%" ⟨17, 18⟩) := by
  intro d ps tokens
  have hd : d.Apart := by decide
  have hclear : ∀ p ∈ ps, p.Clear d := by decide
  have hchain : ps.IsChain fun p q => ¬ (p.IsText ∧ q.IsText) := by
    simp [ps, Piece.IsText]
  obtain ⟨hlength, hread⟩ := ofText_undoes_writing hd 0 (by decide) hclear hchain
  refine ⟨hlength, (hread [] _ _ rfl).trans ?_, (hread (ps.take 1) _ _ rfl).trans ?_,
    (hread (ps.take 2) _ _ rfl).trans ?_, (hread (ps.take 3) _ _ rfl).trans ?_⟩
  all_goals decide

end Stencil
