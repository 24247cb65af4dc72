import Mathlib.Data.List.Chain
import Stencil.Proofs.Spans
import Stencil.Token

set_option relaxedAutoImplicit false
set_option autoImplicit false

/-!
# What the tokens of a text are

A text is searched for tags from left to right. The search misses none: a tag that could be read
somewhere is read there, unless an earlier tag reaches into it. And it invents none: what is taken
for a tag is one, and in one way only.

## Main definitions

* `Stencil.Piece.Scanned` — each of the pieces is a tag that is read, or plain text in which no tag
  starts.
* `Stencil.Token.raw`, `Stencil.Token.span`, `Stencil.Token.IsText` — the token as written, its
  place, and whether it is plain text.

## Main results

* `Stencil.TagForm.read?_isSome_iff` — a tag is read exactly where one is written.
* `Stencil.TagForm.role_eq_and_name_eq_of_write_eq` — role and name of a tag can be told from how it
  is written.
* `Stencil.Piece.scan_eq_iff` — which pieces a text has.
* `Stencil.Token.ofText_reads_exactly_the_tags` — which tokens a text has.
-/

namespace Stencil

/-! ### The characters of a tag -/

/-- The characters of names, by their codes. -/
lemma isNameChar_iff {c : Char} : isNameChar c = true ↔
    ((((65 ≤ c.toNat ∧ c.toNat ≤ 90) ∨ (97 ≤ c.toNat ∧ c.toNat ≤ 122)) ∨
      (48 ≤ c.toNat ∧ c.toNat ≤ 57)) ∨ c = '_') ∨ c = '.' := by
  have hname : isNameChar c =
      (decide (c.val ≥ 65 ∧ c.val ≤ 90) || (decide (c.val ≥ 97) && decide (c.val ≤ 122)) ||
        (decide (c.val ≥ 48) && decide (c.val ≤ 57)) || c == '_' || c == '.') := rfl
  simp only [hname, Bool.or_eq_true, Bool.and_eq_true, decide_eq_true_eq, beq_iff_eq,
    UInt32.le_iff_toNat_le, ge_iff_le]
  exact Iff.rfl

lemma isNameChar_of_isBlank {c : Char} (h : Text.isBlank c = true) : isNameChar c = false := by
  rw [← Bool.not_eq_true, isNameChar_iff]
  simp only [Text.isBlank, Bool.or_eq_true, Bool.and_eq_true, decide_eq_true_eq, beq_iff_eq] at h
  rintro ((hname | rfl) | rfl)
  · omega
  · simp at h
  · simp at h

namespace Role

/-- Neither blanks nor the characters of names tell a role. -/
lemma ofSigil?_eq_none {c : Char} (h : Text.isBlank c = true ∨ isNameChar c = true) :
    ofSigil? c = none := by
  have hne : ∀ d : Char, Text.isBlank d = false → isNameChar d = false → c ≠ d := by
    rintro d hblank hname rfl
    rw [hblank, hname] at h
    simp at h
  unfold ofSigil?
  rw [if_neg (hne '#' rfl rfl), if_neg (hne '^' rfl rfl), if_neg (hne '/' rfl rfl),
    if_neg (hne '>' rfl rfl)]

/-- Only a value has no sigil, and all others have one of their own. -/
lemma sigil_eq_nil_or_singleton (r : Role) : r.sigil = [] ∨ ∃ c, r.sigil = [c] := by
  rcases r with _ | (_ | _) | _ | _
  · exact .inl rfl
  all_goals exact .inr ⟨_, rfl⟩

/-- The role that a sigil tells is the one that is written with it. -/
lemma ofSigil?_of_sigil {c : Char} {r : Role} (h : r.sigil = [c]) : ofSigil? c = some r := by
  cases r with
  | value => cases h
  | opens kind => cases kind <;> (cases h; rfl)
  | closes => cases h; rfl
  | includes => cases h; rfl

lemma sigil_injective {r r' : Role} (h : r.sigil = r'.sigil) : r = r' := by
  rcases r with _ | (_ | _) | _ | _ <;> rcases r' with _ | (_ | _) | _ | _ <;>
    first | rfl | (simp [sigil] at h)

end Role

namespace TagForm

/-! ### Tags that can be read are read -/

section

variable {d : Delimiters}

lemma readTrail_isSome {trail rest : List Char} (h : ∀ c ∈ trail, Text.isBlank c = true) :
    (readTrail d (trail ++ (d.closing.toList ++ rest))).isSome = true :=
  Text.greedy_isSome_iff.2 ⟨trail, _, rfl, h, by simp⟩

lemma readName_isSome {name s : List Char} (hne : name ≠ [])
    (h : ∀ c ∈ name, isNameChar c = true) (hs : (readTrail d s).isSome = true) :
    (readName d (name ++ s)).isSome = true := by
  cases name with
  | nil => exact absurd rfl hne
  | cons c name =>
    obtain ⟨hc, hname⟩ := List.forall_mem_cons.1 h
    simp only [List.cons_append, readName, if_pos hc, Option.isSome_map]
    exact Text.greedy_isSome_iff.2 ⟨name, s, rfl, hname, hs⟩

lemma readGap_isSome {gap s : List Char} (h : ∀ c ∈ gap, Text.isBlank c = true)
    (hs : (readName d s).isSome = true) : (readGap d (gap ++ s)).isSome = true :=
  Text.greedy_isSome_iff.2 ⟨gap, s, rfl, h, hs⟩

/-- A name, with or without blanks before it, does not begin with a sigil. -/
lemma readRole_isSome_of_value {gap name s : List Char} (hgap : ∀ c ∈ gap, Text.isBlank c = true)
    (hne : name ≠ []) (hname : ∀ c ∈ name, isNameChar c = true)
    (hs : (readGap d (gap ++ (name ++ s))).isSome = true) :
    (readRole d (gap ++ (name ++ s))).isSome = true := by
  obtain ⟨c, r, hsplit, hc⟩ : ∃ c r, gap ++ (name ++ s) = c :: r ∧
      (Text.isBlank c = true ∨ isNameChar c = true) := by
    cases gap with
    | cons c gap => exact ⟨c, _, rfl, .inl (hgap c List.mem_cons_self)⟩
    | nil =>
      cases name with
      | nil => exact absurd rfl hne
      | cons c name => exact ⟨c, _, rfl, .inr (hname c List.mem_cons_self)⟩
  rw [hsplit] at hs ⊢
  simpa only [readRole, Role.ofSigil?_eq_none hc, Option.isSome_map] using hs

/-- **What is written is read**, though not always up to the same closing marker. -/
theorem read?_isSome_of_wellFormed {t : TagForm} (ht : t.WellFormed) (rest : List Char) :
    (read? d (t.write d ++ rest)).isSome = true := by
  have hgap : (readGap d (t.gap ++ (t.name ++ (t.trail ++ (d.closing.toList ++ rest))))).isSome =
      true :=
    readGap_isSome ht.gap (readName_isSome ht.name_ne ht.name (readTrail_isSome ht.trail))
  have hrole : (readRole d (t.role.sigil ++
      (t.gap ++ (t.name ++ (t.trail ++ (d.closing.toList ++ rest)))))).isSome = true := by
    rcases t.role.sigil_eq_nil_or_singleton with hr | ⟨c, hr⟩
    · rw [hr, List.nil_append]
      exact readRole_isSome_of_value ht.gap ht.name_ne ht.name hgap
    · simpa only [hr, List.cons_append, List.nil_append, readRole, Role.ofSigil?_of_sigil hr,
        Option.isSome_map] using hgap
  have hlead := Text.greedy_isSome_iff.2 ⟨t.lead, _, rfl, ht.lead, hrole⟩
  obtain ⟨p, hp⟩ := Option.isSome_iff_exists.1 hlead
  simp [read?, write, hp]

/-- **A tag is read exactly where one is written.** -/
theorem read?_isSome_iff {s : List Char} : (read? d s).isSome = true ↔
    ∃ (t : TagForm) (rest : List Char), t.WellFormed ∧ s = t.write d ++ rest := by
  constructor
  · intro h
    obtain ⟨⟨t, rest⟩, hread⟩ := Option.isSome_iff_exists.1 h
    exact ⟨t, rest, read?_sound hread⟩
  · rintro ⟨t, rest, ht, rfl⟩
    exact read?_isSome_of_wellFormed ht rest

end

/-! ### There is one way to read a tag -/

/-- All that stands between the markers. -/
def inner (t : TagForm) : List Char := t.lead ++ t.role.sigil ++ t.gap ++ t.name ++ t.trail

lemma write_eq (d : Delimiters) (t : TagForm) :
    t.write d = d.opening.toList ++ (t.inner ++ d.closing.toList) := by
  simp [write, inner]

/-- The character tells a role. -/
def isSigil (c : Char) : Bool := (Role.ofSigil? c).isSome

lemma isSigil_of_mem_sigil {r : Role} {c : Char} (h : c ∈ r.sigil) :
    isSigil c = true ∧ isNameChar c = false := by
  rcases r with _ | (_ | _) | _ | _
  · cases h
  all_goals
    cases List.mem_singleton.1 h
    exact ⟨rfl, rfl⟩

namespace WellFormed

variable {t : TagForm} (ht : t.WellFormed)

include ht

/-- The characters of names between the markers are the name. -/
lemma filter_isNameChar : t.inner.filter isNameChar = t.name := by
  have hblank : ∀ cs : List Char, (∀ c ∈ cs, Text.isBlank c = true) →
      cs.filter isNameChar = [] := by
    intro cs h
    refine List.filter_eq_nil_iff.2 fun c hc => ?_
    simp [isNameChar_of_isBlank (h c hc)]
  have hsigil : t.role.sigil.filter isNameChar = [] := by
    refine List.filter_eq_nil_iff.2 fun c hc => ?_
    simp [(isSigil_of_mem_sigil hc).2]
  simp [inner, hblank _ ht.lead, hblank _ ht.gap, hblank _ ht.trail, hsigil,
    List.filter_eq_self.2 ht.name]

/-- The sigils between the markers are the sigil. -/
lemma filter_isSigil : t.inner.filter isSigil = t.role.sigil := by
  have hother : ∀ cs : List Char, (∀ c ∈ cs, Text.isBlank c = true ∨ isNameChar c = true) →
      cs.filter isSigil = [] := by
    intro cs h
    refine List.filter_eq_nil_iff.2 fun c hc => ?_
    simp [isSigil, Role.ofSigil?_eq_none (h c hc)]
  simp [inner, hother _ fun c hc => .inl (ht.lead c hc), hother _ fun c hc => .inl (ht.gap c hc),
    hother _ fun c hc => .inr (ht.name c hc), hother _ fun c hc => .inl (ht.trail c hc),
    List.filter_eq_self.2 fun c hc => (isSigil_of_mem_sigil (r := t.role) hc).1]

end WellFormed

/-- **Role and name of a tag can be told from how it is written.** -/
theorem role_eq_and_name_eq_of_write_eq {d : Delimiters} {t t' : TagForm} (ht : t.WellFormed)
    (ht' : t'.WellFormed) (h : t.write d = t'.write d) : t.role = t'.role ∧ t.name = t'.name := by
  rw [write_eq, write_eq] at h
  have hinner : t.inner = t'.inner := List.append_cancel_right (List.append_cancel_left h)
  constructor
  · exact Role.sigil_injective (by rw [← ht.filter_isSigil, ← ht'.filter_isSigil, hinner])
  · rw [← ht.filter_isNameChar, ← ht'.filter_isNameChar, hinner]

end TagForm

/-! ### The pieces of a text -/

namespace Piece

/-- The piece is plain text. -/
def IsText : Piece → Prop
  | text _ => True
  | tag _ => False

/-- The pieces, written one after the other. -/
def written (d : Delimiters) (ps : List Piece) : List Char := ps.flatMap (write d)

lemma written_cons (d : Delimiters) (p : Piece) (ps : List Piece) :
    written d (p :: ps) = p.write d ++ written d ps := List.flatMap_cons

lemma written_append (d : Delimiters) (ps qs : List Piece) :
    written d (ps ++ qs) = written d ps ++ written d qs := List.flatMap_append

/-- Each of the pieces is a tag that is read where it stands, or plain text that is not empty, goes
on up to the next tag, and has no place at which a tag could be read. -/
inductive Scanned (d : Delimiters) : List Piece → Prop where
  | nil : Scanned d []
  | tag {form : TagForm} {ps : List Piece}
    (hread : TagForm.read? d (form.write d ++ written d ps) = some (form, written d ps))
    (hps : Scanned d ps) : Scanned d (.tag form :: ps)
  | text {content : List Char} {ps : List Piece} (hne : content ≠ [])
    (hnone : ∀ before c after, content = before ++ c :: after →
      TagForm.read? d (c :: after ++ written d ps) = none)
    (hnext : ∀ p ∈ ps.head?, ¬ p.IsText) (hps : Scanned d ps) : Scanned d (.text content :: ps)

variable {d : Delimiters}

/-- A tag at the front is the first piece. -/
lemma scan_of_read? {s rest : List Char} {form : TagForm}
    (h : TagForm.read? d s = some (form, rest)) : scan d s = .tag form :: scan d rest := by
  cases s with
  | nil =>
    have := TagForm.read?_length h
    simp at this
  | cons c s =>
    rw [scan]
    split
    · next h' =>
      rw [h] at h'
      cases h'
      rfl
    · next h' =>
      rw [h] at h'
      cases h'

/-- Where no tag is read, there is a character of plain text. -/
lemma scan_of_read?_eq_none {c : Char} {s : List Char} (h : TagForm.read? d (c :: s) = none) :
    scan d (c :: s) = consText c (scan d s) := by
  rw [scan]
  split
  · next h' =>
    rw [h] at h'
    cases h'
  · rfl

lemma Scanned.consText {c : Char} {ps : List Piece} (hps : Scanned d ps)
    (h : TagForm.read? d (c :: written d ps) = none) : Scanned d (consText c ps) := by
  have alone : (∀ p ∈ ps.head?, ¬ p.IsText) → Scanned d (.text [c] :: ps) := by
    intro hnext
    refine .text (List.cons_ne_nil c []) ?_ hnext hps
    intro before c' after hsplit
    obtain ⟨rfl, hc⟩ : before = [] ∧ [c] = c' :: after := by
      cases before with
      | nil => exact ⟨rfl, hsplit⟩
      | cons b before => simp at hsplit
    cases hc
    exact h
  cases hps with
  | nil => exact alone (by simp)
  | tag hread hps => exact alone (by simp [IsText])
  | @text content ps hne hnone hnext hps =>
    refine .text (List.cons_ne_nil c content) ?_ hnext hps
    intro before c' after hsplit
    cases before with
    | nil =>
      cases hsplit
      exact h
    | cons b before => exact hnone before c' after (List.cons.inj hsplit).2

/-- The pieces of a text are what its reading makes of them. -/
lemma scanned_scan (s : List Char) : Scanned d (scan d s) := by
  fun_induction scan d s with
  | case1 => exact .nil
  | case2 c s form rest h _ ih =>
    have hrest : written d (scan d rest) = rest := flatMap_write_scan d rest
    refine .tag ?_ ih
    rw [hrest, ← (TagForm.read?_sound h).2, h]
  | case3 c s h ih =>
    refine ih.consText ?_
    rw [written, flatMap_write_scan d s, h]

/-- There is one way to divide a text like this. -/
lemma Scanned.scan_written {ps : List Piece} (h : Scanned d ps) : scan d (written d ps) = ps := by
  induction h with
  | nil => simp [written, scan]
  | @tag form ps hread _ ih => rw [written_cons, write, scan_of_read? hread, ih]
  | @text content ps hne hnone hnext _ ih =>
    rw [written_cons, write]
    induction content with
    | nil => exact absurd rfl hne
    | cons c content ihc =>
      have hc : TagForm.read? d (c :: (content ++ written d ps)) = none := hnone [] c content rfl
      rw [List.cons_append, scan_of_read?_eq_none hc]
      cases content with
      | nil =>
        rw [List.nil_append, ih]
        cases ps with
        | nil => rfl
        | cons p ps =>
          cases p with
          | text content => exact absurd trivial (hnext _ rfl)
          | tag form => rfl
      | cons c' content =>
        rw [ihc (List.cons_ne_nil c' content) fun before c'' after hsplit =>
          hnone (c :: before) c'' after (by rw [hsplit]; rfl)]
        rfl

/-- **Which pieces a text has**: the ones, written out, that are the text, where each tag is read
where it stands and no tag could be read inside plain text. -/
theorem scan_eq_iff {s : List Char} {ps : List Piece} :
    scan d s = ps ↔ written d ps = s ∧ Scanned d ps := by
  constructor
  · rintro rfl
    exact ⟨flatMap_write_scan d s, scanned_scan s⟩
  · rintro ⟨rfl, h⟩
    exact h.scan_written

/-- What follows other pieces is divided in the same way on its own. -/
lemma Scanned.of_append {before ps : List Piece} (h : Scanned d (before ++ ps)) :
    Scanned d ps := by
  induction before with
  | nil => exact h
  | cons p before ih =>
    cases h with
    | tag hread hps => exact ih hps
    | text hne hnone hnext hps => exact ih hps

/-- No piece is empty. -/
lemma Scanned.write_ne_nil {ps : List Piece} (h : Scanned d ps) : ∀ p ∈ ps, p.write d ≠ [] := by
  intro p hp
  obtain ⟨before, after, rfl⟩ := List.append_of_mem hp
  cases h.of_append with
  | tag hread hps => exact TagForm.write_ne_nil d _
  | text hne hnone hnext hps => exact hne

end Piece

/-! ### The tokens of a text -/

namespace Token

/-- The token as it stands in its text. -/
def raw : Token → String
  | text content _ => content
  | tag u => u.raw

/-- Where the token stands in its text. -/
def span : Token → Span
  | text _ span => span
  | tag u => u.span

/-- The token is plain text. -/
def IsText : Token → Prop
  | text _ _ => True
  | tag _ => False

variable {d : Delimiters} {level start : Nat} {ps : List Piece}

@[simp]
lemma raw_ofPiece (p : Piece) : (ofPiece d level start p).raw = String.ofList (p.write d) := by
  cases p <;> rfl

@[simp]
lemma span_ofPiece (p : Piece) :
    (ofPiece d level start p).span = ⟨start, start + Text.byteLength (p.write d)⟩ := by
  cases p <;> rfl

@[simp]
lemma isText_ofPiece (p : Piece) : (ofPiece d level start p).IsText ↔ p.IsText := by
  cases p <;> rfl

lemma ofPieces_append (d : Delimiters) (level start : Nat) (ps qs : List Piece) :
    ofPieces d level start (ps ++ qs) = ofPieces d level start ps ++
      ofPieces d level (start + Text.byteLength (Piece.written d ps)) qs := by
  induction ps generalizing start with
  | nil => rfl
  | cons p ps ih =>
    simp only [List.cons_append, ofPieces, ih, Piece.written_cons, Text.byteLength_append,
      Nat.add_assoc]

@[simp]
lemma length_ofPieces (d : Delimiters) (level start : Nat) (ps : List Piece) :
    (ofPieces d level start ps).length = ps.length := by
  induction ps generalizing start with
  | nil => rfl
  | cons p ps ih => rw [ofPieces, List.length_cons, List.length_cons, ih]

/-- The token at a position is that of the piece there, which starts behind the pieces before it. -/
lemma getElem?_ofPieces (d : Delimiters) (level start : Nat) (ps : List Piece) (i : Nat) :
    (ofPieces d level start ps)[i]? =
      ps[i]?.map (ofPiece d level (start + Text.byteLength (Piece.written d (ps.take i)))) := by
  induction ps generalizing start i with
  | nil => rfl
  | cons p ps ih =>
    cases i with
    | zero => rfl
    | succ i =>
      rw [ofPieces, List.getElem?_cons_succ, List.getElem?_cons_succ, ih, List.take_succ_cons,
        Piece.written_cons, Text.byteLength_append, Nat.add_assoc]

/-- Every token is that of a piece, which starts behind the pieces before it. -/
lemma exists_of_mem_ofPieces {t : Token} (h : t ∈ ofPieces d level start ps) :
    ∃ before p after, ps = before ++ p :: after ∧
      t = ofPiece d level (start + Text.byteLength (Piece.written d before)) p := by
  induction ps generalizing start with
  | nil => cases h
  | cons q ps ih =>
    rcases List.mem_cons.1 h with rfl | h
    · exact ⟨[], q, ps, rfl, rfl⟩
    · obtain ⟨before, p, after, rfl, rfl⟩ := ih h
      refine ⟨q :: before, p, after, rfl, ?_⟩
      rw [Piece.written_cons, Text.byteLength_append, Nat.add_assoc]

/-- The tokens of pieces, one after the other, are as long as what they were read from. -/
lemma tile_ofPieces (h : ∀ p ∈ ps, p.write d ≠ []) :
    Span.Tile start ((ofPieces d level start ps).map span)
      (start + Text.byteLength (Piece.written d ps)) := by
  induction ps generalizing start with
  | nil => rfl
  | cons p ps ih =>
    obtain ⟨hp, hps⟩ := List.forall_mem_cons.1 h
    have hpos := Text.byteLength_pos hp
    rw [ofPieces, List.map_cons, Span.tile_cons, span_ofPiece, Piece.written_cons,
      Text.byteLength_append, ← Nat.add_assoc]
    exact ⟨rfl, Nat.lt_add_of_pos_right hpos, ih hps⟩

/-- Plain text is not followed by plain text. -/
lemma isChain_ofPieces (h : Piece.Scanned d ps) :
    (ofPieces d level start ps).IsChain fun t u => ¬ (t.IsText ∧ u.IsText) := by
  induction h generalizing start with
  | nil => exact .nil
  | tag hread hps ih =>
    exact List.isChain_cons.2 ⟨fun u _ hu => hu.1, ih⟩
  | @text content ps hne hnone hnext hps ih =>
    refine List.isChain_cons.2 ⟨fun u hu => ?_, ih⟩
    cases ps with
    | nil => cases hu
    | cons p ps =>
      cases hu
      rw [isText_ofPiece p]
      exact fun hp => hnext p rfl hp.2

/-- The pieces of a text, written out, are the text. -/
lemma ofList_written_scan (d : Delimiters) (source : String) :
    String.ofList (Piece.written d (Piece.scan d source.toList)) = source := by
  rw [Piece.written, Piece.flatMap_write_scan, String.ofList_toList]

/-- A token of a text is that of a piece, between the pieces before it and those after it. -/
lemma exists_of_mem_ofText {source : String} {t : Token} (h : t ∈ ofText d level source) :
    ∃ before p after, Piece.scan d source.toList = before ++ p :: after ∧
      source = String.ofList (Piece.written d before) ++ String.ofList (p.write d) ++
        String.ofList (Piece.written d after) ∧
      t = ofPiece d level (String.ofList (Piece.written d before)).utf8ByteSize p := by
  obtain ⟨before, p, after, hscan, rfl⟩ := exists_of_mem_ofPieces h
  refine ⟨before, p, after, hscan, ?_, ?_⟩
  · rw [← ofList_written_scan d source, hscan]
    simp [Piece.written, String.append_assoc]
  · rw [Text.utf8ByteSize_ofList, Nat.zero_add]

/-- A token stands in its span. -/
lemma reads_of_mem_ofText {source : String} {t : Token} (h : t ∈ ofText d level source) :
    t.span.Reads source t.raw := by
  obtain ⟨before, p, after, -, hsource, rfl⟩ := exists_of_mem_ofText h
  refine ⟨_, _, by rwa [raw_ofPiece], ?_⟩
  rw [span_ofPiece, raw_ofPiece, String.utf8ByteSize_append,
    Text.utf8ByteSize_ofList (p.write d)]

/-- The tokens of a text lie side by side, from its first byte up to its last one. -/
lemma tile_ofText (d : Delimiters) (level : Nat) (source : String) :
    Span.Tile 0 ((ofText d level source).map span) source.utf8ByteSize := by
  have hscanned := Piece.scanned_scan (d := d) source.toList
  have htile : Span.Tile 0 ((ofText d level source).map span)
      (0 + Text.byteLength (Piece.written d (Piece.scan d source.toList))) :=
    tile_ofPieces hscanned.write_ne_nil
  rwa [Nat.zero_add, Piece.written, Piece.flatMap_write_scan, Text.byteLength_toList] at htile

lemma join_raw_ofPieces (d : Delimiters) (level start : Nat) (ps : List Piece) :
    String.join ((ofPieces d level start ps).map raw) = String.ofList (Piece.written d ps) := by
  induction ps generalizing start with
  | nil => rfl
  | cons p ps ih =>
    rw [ofPieces, List.map_cons, String.join_cons, ih, raw_ofPiece, Piece.written_cons,
      String.ofList_append]

/-- The tokens of a text, written out, are the text. -/
lemma join_raw_ofText (d : Delimiters) (level : Nat) (source : String) :
    String.join ((ofText d level source).map raw) = source := by
  rw [ofText, join_raw_ofPieces, ofList_written_scan]

/-- No tag starts inside plain text. -/
lemma not_tag_in_text {source content : String} {span : Span}
    (h : .text content span ∈ ofText d level source) {before after : String} {form : TagForm}
    (hform : form.WellFormed) (hsource : source = before ++ String.ofList (form.write d) ++ after)
    (hstart : span.start ≤ before.utf8ByteSize) : span.stop ≤ before.utf8ByteSize := by
  obtain ⟨ps, p, qs, hscan, hpieces, htoken⟩ := exists_of_mem_ofText h
  have hscanned := Piece.scanned_scan (d := d) source.toList
  rw [hscan] at hscanned
  cases hscanned.of_append with
  | tag => cases htoken
  | @text chars _ _ hnone _ _ =>
    cases htoken
    by_contra hlt
    have hlt : before.utf8ByteSize < (String.ofList (Piece.written d ps)).utf8ByteSize +
        Text.byteLength chars := Nat.lt_of_not_le hlt
    rw [Text.utf8ByteSize_ofList, ← Text.byteLength_toList] at hstart hlt
    -- the text before the tag ends inside the plain text
    have hsplit : Piece.written d ps ++ (chars ++ Piece.written d qs) =
        before.toList ++ (form.write d ++ after.toList) := by
      have := congrArg String.toList (hpieces.symm.trans hsource)
      simpa [Piece.write] using this
    obtain ⟨skipped, hbefore, htail⟩ := Text.exists_append_of_byteLength_le hsplit hstart
    rw [hbefore, Text.byteLength_append] at hlt
    obtain ⟨rest, hchars, hform'⟩ :=
      Text.exists_append_of_byteLength_le htail.symm (by omega)
    cases rest with
    | nil =>
      rw [hchars, List.append_nil] at hlt
      omega
    | cons c rest =>
      have hsome := TagForm.read?_isSome_of_wellFormed (d := d) hform after.toList
      rw [hform', hnone skipped c rest hchars] at hsome
      cases hsome

/-- A tag of a text is read where it stands. -/
lemma exists_read?_of_tag_mem {source : String} {u : Tag}
    (h : .tag u ∈ ofText d level source) : ∃ (form : TagForm) (before rest : List Char),
      source.toList = before ++ (form.write d ++ rest) ∧
      TagForm.read? d (form.write d ++ rest) = some (form, rest) ∧
      u.raw = String.ofList (form.write d) ∧ u.span.start = Text.byteLength before := by
  obtain ⟨before, p, after, hscan, hsource, htoken⟩ := exists_of_mem_ofText h
  have hscanned := Piece.scanned_scan (d := d) source.toList
  rw [hscan] at hscanned
  cases hscanned.of_append with
  | text => cases htoken
  | @tag form ps hread hps =>
    cases htoken
    refine ⟨form, Piece.written d before, _, ?_, hread, rfl, Text.utf8ByteSize_ofList _⟩
    rw [hsource]
    simp [Piece.write]

/-- **Which tokens a text has.**

The tokens, none of them empty, lie side by side in the text from its first to its last byte, and
each of them stands in its span; plain text does not follow plain text. What is taken for a tag is
one, and its role and name are the only ones with which it can be one. And wherever a tag is written
in the text, it does not start inside plain text. -/
theorem ofText_reads_exactly_the_tags (d : Delimiters) (level : Nat) (source : String) :
    String.join ((ofText d level source).map raw) = source ∧
    (∀ t ∈ ofText d level source, t.raw ≠ "") ∧
    Span.Tile 0 ((ofText d level source).map span) source.utf8ByteSize ∧
    (∀ t ∈ ofText d level source, t.span.Reads source t.raw) ∧
    ((ofText d level source).IsChain fun t u => ¬ (t.IsText ∧ u.IsText)) ∧
    (∀ u : Tag, .tag u ∈ ofText d level source →
      (∃ form : TagForm, form.WellFormed ∧ String.ofList (form.write d) = u.raw) ∧
      ∀ form : TagForm, form.WellFormed → String.ofList (form.write d) = u.raw →
        form.role = u.role ∧ String.ofList form.name = u.name) ∧
    (∀ content span, .text content span ∈ ofText d level source →
      ∀ (before after : String) (form : TagForm), form.WellFormed →
        source = before ++ String.ofList (form.write d) ++ after →
        ¬ (span.start ≤ before.utf8ByteSize ∧ before.utf8ByteSize < span.stop)) := by
  have hscanned := Piece.scanned_scan (d := d) source.toList
  refine ⟨join_raw_ofText d level source, ?_, tile_ofText d level source,
    fun t ht => reads_of_mem_ofText ht, isChain_ofPieces hscanned, ?_, ?_⟩
  · intro t ht
    obtain ⟨before, p, after, hscan, -, rfl⟩ := exists_of_mem_ofText ht
    have hp := hscanned.write_ne_nil p (by rw [hscan]; simp)
    rw [raw_ofPiece]
    exact fun h => hp (by simpa using congrArg String.toList h)
  · intro u hu
    obtain ⟨before, p, after, hscan, -, htoken⟩ := exists_of_mem_ofText hu
    rw [hscan] at hscanned
    cases hscanned.of_append with
    | text => cases htoken
    | @tag form ps hread hps =>
      cases htoken
      have hform := (TagForm.read?_sound hread).1
      refine ⟨⟨form, hform, rfl⟩, fun form' hform' hraw => ?_⟩
      have hwrite : form'.write d = form.write d := String.ofList_injective hraw
      obtain ⟨hrole, hname⟩ := TagForm.role_eq_and_name_eq_of_write_eq hform' hform hwrite
      exact ⟨hrole, congrArg String.ofList hname⟩
  · rintro content span h before after form hform hsource ⟨hstart, hstop⟩
    exact absurd (not_tag_in_text h hform hsource hstart) (Nat.not_le.2 hstop)

end Token

end Stencil
