import Stencil.Proofs.BlockPairs
import Stencil.Proofs.Printing
import Stencil.Proofs.Scalars

set_option relaxedAutoImplicit false
set_option autoImplicit false

/-!
# The markers make no difference

Pieces may be written with other markers. If both texts are divided into these pieces again, then
the tags are paired in the same way, since only their roles and names count there. Both texts have
the same outline then, and a rendering goes through the outline: it shows the markers only where a
tag is kept as it was written.

## Main definitions

* `Stencil.Token.stem` — the role and the name of a tag.
* `Stencil.Outline` — a node without places, made of the pieces it was read from.
* `Stencil.Outline.Prints` — a node is what an outline comes to with given markers.
* `Stencil.Shown`, `Stencil.Outline.shown` — what a rendering shows of an outline.
* `Stencil.Run.Writes` — a run that writes a text, and nothing else.

## Main results

* `Stencil.Pairing.pairs_congr` — only the roles and names of tags decide which belong together.
* `Stencil.Pairing.Layout.exists_outlines` — pieces are laid out alike with all markers.
* `Stencil.Node.exists_outlines_of_pieces` — nodes of the same pieces have the same outline.
* `Stencil.Call.run_writes` — a rendering goes through the outline.
* `Stencil.Template.renders_same_with_other_markers` — what this means for a whole template.
-/

namespace Stencil

/-! ### Tags with the same roles and names -/

/-- The role and the name of a tag. -/
def Token.stem : Token → Option (Role × String)
  | text _ _ => none
  | tag u => some (u.role, u.name)

namespace Pairing

lemma partner?_eq_bind_name (ts : List Token) (pairs : List (Nat × Nat)) (n : Nat) :
    partner? ts pairs n = ((closer? ts n).map Tag.name).bind fun name =>
      (pending ts pairs n).find? fun i => ((opener? ts i).map Tag.name).any (· == name) := by
  simp only [partner?, Option.bind_map, Option.any_map, Function.comp_def]

section

variable {ts ts' : List Token} (h : ts.map Token.stem = ts'.map Token.stem)

include h

/-- Where there is a tag, the other tokens have one with the same role and name. -/
lemma exists_tag {i : Nat} {u : Tag} (hu : ts[i]? = some (.tag u)) :
    ∃ u', ts'[i]? = some (.tag u') ∧ u'.role = u.role ∧ u'.name = u.name := by
  have hi : (ts.map Token.stem)[i]? = some (some (u.role, u.name)) := by
    rw [List.getElem?_map, hu]
    rfl
  rw [h, List.getElem?_map] at hi
  obtain ⟨t, ht, hstem⟩ := Option.map_eq_some_iff.1 hi
  cases t with
  | text content span => cases hstem
  | tag u' =>
    obtain ⟨hrole, hname⟩ := Prod.mk.inj (Option.some.inj hstem)
    exact ⟨u', ht, hrole, hname⟩

omit h in
/-- Tags at a position that are told by their roles have the same names. -/
lemma map_name_congr {f : List Token → Option Tag} {P : Role → Prop} {i : Nat}
    (hf : ∀ us u, f us = some u ↔ us[i]? = some (.tag u) ∧ P u.role)
    (h : ts.map Token.stem = ts'.map Token.stem) :
    (f ts).map Tag.name = (f ts').map Tag.name := by
  have main : ∀ {ts ts' : List Token} {name : String}, ts.map Token.stem = ts'.map Token.stem →
      (f ts).map Tag.name = some name → (f ts').map Tag.name = some name := by
    intro ts ts' name h hname
    obtain ⟨u, hu, rfl⟩ := Option.map_eq_some_iff.1 hname
    obtain ⟨hu, hrole⟩ := (hf ts u).1 hu
    obtain ⟨u', hu', hrole', hname'⟩ := exists_tag h hu
    rw [(hf ts' u').2 ⟨hu', hrole' ▸ hrole⟩, Option.map_some, hname']
  exact Option.ext fun name => ⟨main h, main h.symm⟩

lemma opener?_congr (i : Nat) : (opener? ts i).map Tag.name = (opener? ts' i).map Tag.name :=
  map_name_congr (f := fun us => opener? us i) (P := fun r => ∃ kind, r = .opens kind)
    (fun _ _ => opener?_eq_some_iff) h

lemma closer?_congr (i : Nat) : (closer? ts i).map Tag.name = (closer? ts' i).map Tag.name :=
  map_name_congr (f := fun us => closer? us i) (P := (· = .closes))
    (fun _ _ => closer?_eq_some_iff) h

lemma isSome_opener?_congr (i : Nat) : (opener? ts i).isSome = (opener? ts' i).isSome := by
  rw [← Option.isSome_map, opener?_congr h, Option.isSome_map]

lemma pending_congr (pairs : List (Nat × Nat)) (n : Nat) :
    pending ts pairs n = pending ts' pairs n := by
  unfold pending
  simp only [isSome_opener?_congr h]

lemma pairsBefore_congr (n : Nat) : pairsBefore ts n = pairsBefore ts' n := by
  induction n with
  | zero => rfl
  | succ n ih =>
    have hpartner : partner? ts (pairsBefore ts n) n = partner? ts' (pairsBefore ts' n) n := by
      rw [partner?_eq_bind_name, partner?_eq_bind_name, ih, closer?_congr h, pending_congr h]
      simp only [opener?_congr h]
    rw [pairsBefore, pairsBefore, hpartner, ih]

/-- **Only the roles and names of tags decide which belong together.** -/
theorem pairs_congr : pairs ts = pairs ts' := by
  have hlength : ts.length = ts'.length := by simpa using congrArg List.length h
  rw [pairs, pairs, pairsBefore_congr h, hlength]

lemma pendingAt_congr (n : Nat) : pendingAt ts n = pendingAt ts' n := by
  rw [pendingAt, pendingAt, pairsBefore_congr h, pending_congr h]

lemma settled_congr (opener : Option Nat) : Settled ts opener ↔ Settled ts' opener := by
  unfold Settled
  rw [pairs_congr h]

lemma overfull_congr : Overfull ts ↔ Overfull ts' := by
  unfold Overfull
  simp only [isSome_opener?_congr h, pendingAt_congr h]

end

end Pairing

/-! ### Outlines -/

/-- A node without places, made of the pieces that it was read from. -/
inductive Outline where
  /-- Plain text, and tags that are kept as they were written. -/
  | text (parts : List Piece)
  /-- A tag that is replaced by the value of its name. -/
  | value (form : TagForm)
  /-- A block, with its opening and its closing tag and the range of the tokens between them. -/
  | block (kind : BlockKind) (opener closer : TagForm) (inner : TokenRange) (body : List Outline)

namespace Outline

mutual

/-- The pieces that the outline is made of. -/
def pieces : Outline → List Piece
  | text parts => parts
  | value form => [.tag form]
  | block _ opener closer _ body => .tag opener :: (piecesAll body ++ [.tag closer])

/-- The pieces that the outlines are made of. -/
def piecesAll : List Outline → List Piece
  | [] => []
  | o :: os => pieces o ++ piecesAll os

end

/-- The node is what the outline comes to with the given markers, at some place. -/
inductive Prints (d : Delimiters) : Outline → Node → Prop where
  | text {parts : List Piece} (hne : Piece.written d parts ≠ []) (span : Span) :
    Prints d (.text parts) (.text (String.ofList (Piece.written d parts)) span)
  | value (form : TagForm) (span : Span) :
    Prints d (.value form)
      (.value (String.ofList form.name) (String.ofList (form.write d)) span)
  | block (kind : BlockKind) (opener closer : TagForm) (span : Span) (inner : TokenRange)
    {os : List Outline} {body : List Node} (hbody : List.Forall₂ (Prints d) os body) :
    Prints d (.block kind opener closer inner os)
      (.block kind (String.ofList opener.name) span inner body)

/-- Puts an outline behind others, of which the newest one comes first; text is joined to text. -/
def push (os : List Outline) : Outline → List Outline
  | text parts =>
    match os with
    | text before :: rest => text (before ++ parts) :: rest
    | _ => text parts :: os
  | o => o :: os

/-- The outlines in their order, where text is joined to text in front of it. -/
def joined (os : List Outline) : List Outline := (os.foldl push []).reverse

lemma piecesAll_eq_flatMap (os : List Outline) : piecesAll os = os.flatMap pieces := by
  induction os with
  | nil => rfl
  | cons o os ih => rw [piecesAll, ih, List.flatMap_cons]

lemma piecesAll_reverse_push (os : List Outline) (o : Outline) :
    piecesAll (push os o).reverse = piecesAll os.reverse ++ o.pieces := by
  simp only [piecesAll_eq_flatMap]
  cases o with
  | text parts =>
    cases os with
    | nil => simp [push]
    | cons m os => cases m <;> simp [push, pieces]
  | value form => simp [push]
  | block kind opener closer inner body => simp [push]

/-- Joining keeps the pieces. -/
lemma piecesAll_joined (os : List Outline) : piecesAll (joined os) = piecesAll os := by
  unfold joined
  induction os using List.reverseRecOn with
  | nil => rfl
  | append_singleton os o ih =>
    rw [List.foldl_append, List.foldl_cons, List.foldl_nil, piecesAll_reverse_push, ih]
    simp [piecesAll_eq_flatMap]

variable {d : Delimiters}

/-- A piece that is kept as it was written. -/
lemma prints_text_singleton {p : Piece} (hp : p.write d ≠ []) (span : Span) :
    (text [p]).Prints d (.text (String.ofList (p.write d)) span) := by
  have hwritten : Piece.written d [p] = p.write d := by simp [Piece.written]
  rw [← hwritten] at hp ⊢
  exact .text hp span

/-- Outlines are joined as the nodes are. -/
lemma prints_push {os : List Outline} {nodes : List Node}
    (h : List.Forall₂ (Prints d) os nodes) {o : Outline} {n : Node} (hn : o.Prints d n) :
    List.Forall₂ (Prints d) (push os o) (Node.push nodes n) := by
  cases hn with
  | value form span => exact .cons (.value form span) h
  | block kind opener closer span inner hbody =>
    exact .cons (.block kind opener closer span inner hbody) h
  | @text parts hne span =>
    have hcontent : String.ofList (Piece.written d parts) ≠ "" := fun e =>
      hne (String.ofList_eq_empty_iff.1 e)
    simp only [Node.push, Node.pushText, if_neg hcontent]
    cases h with
    | nil => exact .cons (.text hne span) .nil
    | cons hm h =>
      cases hm with
      | @text before hbefore place =>
        refine .cons ?_ h
        rw [← String.ofList_append, ← Piece.written_append]
        exact .text (by simp [Piece.written_append, hne]) _
      | value form place => exact .cons (.text hne span) (.cons (.value form place) h)
      | block kind opener closer place inner hbody =>
        exact .cons (.text hne span) (.cons (.block kind opener closer place inner hbody) h)

lemma prints_joined {os : List Outline} {nodes : List Node}
    (h : List.Forall₂ (Prints d) os nodes) :
    List.Forall₂ (Prints d) (joined os) (Node.joined nodes) := by
  have main : ∀ {os before : List Outline} {nodes nodes' : List Node},
      List.Forall₂ (Prints d) os nodes → List.Forall₂ (Prints d) before nodes' →
      List.Forall₂ (Prints d) (os.foldl push before) (nodes.foldl Node.push nodes') := by
    intro os before nodes nodes' h
    induction h generalizing before nodes' with
    | nil => exact id
    | cons hn _ ih => exact fun hbefore => ih (prints_push hbefore hn)
  exact List.forall₂_reverse_iff.2 (main h .nil)

end Outline

/-! ### Pieces with other markers -/

/-- The piece is a tag other than a partial, or plain text that is not empty. -/
def Piece.Solid : Piece → Prop
  | text content => content ≠ []
  | tag form => form.role ≠ .includes

lemma Piece.Solid.write_ne_nil {p : Piece} (hp : p.Solid) (d : Delimiters) : p.write d ≠ [] := by
  cases p with
  | text content => exact hp
  | tag form => exact form.write_ne_nil d

namespace Token

lemma map_stem_ofPieces (d d' : Delimiters) (level start start' : Nat) (qs : List Piece) :
    (ofPieces d level start qs).map stem = (ofPieces d' level start' qs).map stem := by
  induction qs generalizing start start' with
  | nil => rfl
  | cons p qs ih =>
    rw [ofPieces, ofPieces, List.map_cons, List.map_cons]
    refine congrArg₂ List.cons ?_ (ih _ _)
    cases p <;> rfl

lemma partials_ofPieces {d : Delimiters} {level start : Nat} {qs : List Piece}
    (hqs : ∀ p ∈ qs, p.Solid) : partials (ofPieces d level start qs) = [] := by
  induction qs generalizing start with
  | nil => rfl
  | cons p qs ih =>
    obtain ⟨hp, hqs⟩ := List.forall_mem_cons.1 hqs
    have hpartial : (ofPiece d level start p).partial? = none := by
      cases p with
      | text content => rfl
      | tag form => exact if_neg hp
    rw [ofPieces, partials, List.filterMap_cons_none hpartial]
    exact ih hqs

end Token

namespace Pairing

variable {d : Delimiters} (d' : Delimiters) {level : Nat} {qs : List Piece}

/-- The token of a piece, with the one pair of markers and with the other. -/
lemma exists_piece {t : Token} {i : Nat} (ht : (Token.ofPieces d level 0 qs)[i]? = some t) :
    ∃ p first first', qs[i]? = some p ∧ t = Token.ofPiece d level first p ∧
      (Token.ofPieces d' level 0 qs)[i]? = some (Token.ofPiece d' level first' p) := by
  rw [Token.getElem?_ofPieces] at ht ⊢
  obtain ⟨p, hp, rfl⟩ := Option.map_eq_some_iff.1 ht
  exact ⟨p, _, _, hp, rfl, by rw [hp]; rfl⟩

/-- The tag of a piece, with the one pair of markers and with the other. -/
lemma exists_form {u : Tag} {i : Nat} (ht : (Token.ofPieces d level 0 qs)[i]? = some (.tag u)) :
    ∃ form u', qs[i]? = some (.tag form) ∧ u.role = form.role ∧ u.name = String.ofList form.name ∧
      (Token.ofPieces d' level 0 qs)[i]? = some (.tag u') ∧ u'.role = form.role ∧
      u'.name = String.ofList form.name := by
  obtain ⟨p, first, first', hp, hu, hp'⟩ := exists_piece d' ht
  cases p with
  | text content => cases hu
  | tag form =>
    cases hu
    exact ⟨form, _, hp, rfl, rfl, hp', rfl, rfl⟩

/-- **The node of a piece outside of all pairs** is what the same outline comes to, whichever the
markers are. -/
lemma exists_outline_of_single? {ts ts' : List Token} (h : ts.map Token.stem = ts'.map Token.stem)
    {p : Piece} (hp : p.Solid) {i first : Nat} {n : Node}
    (hn : single? ts i (Token.ofPiece d level first p) = some n) (first' : Nat) :
    ∃ (o : Outline) (n' : Node), single? ts' i (Token.ofPiece d' level first' p) = some n' ∧
      o.Prints d n ∧ o.Prints d' n' ∧ o.pieces = [p] := by
  have hkept : ∀ (d : Delimiters) (span : Span),
      (Outline.text [p]).Prints d (.text (String.ofList (p.write d)) span) :=
    fun d span => Outline.prints_text_singleton (hp.write_ne_nil d) span
  cases p with
  | text content =>
    cases hn
    exact ⟨.text [.text content], _, rfl, hkept d _, hkept d' _, rfl⟩
  | tag form =>
    cases hrole : form.role with
    | includes => exact absurd hrole hp
    | value =>
      simp only [Token.ofPiece, single?, hrole, settled_congr h, pendingAt_congr h] at hn ⊢
      split at hn
      · next hsettled =>
        cases hn
        rw [if_pos hsettled]
        exact ⟨.value form, _, rfl, .value form _, .value form _, rfl⟩
      · next hsettled =>
        cases hn
        rw [if_neg hsettled]
        exact ⟨.text [.tag form], _, rfl, hkept d _, hkept d' _, rfl⟩
    | opens kind =>
      simp only [Token.ofPiece, single?, hrole, pairs_congr h] at hn ⊢
      split at hn
      · cases hn
      · next hnever =>
        cases hn
        exact ⟨.text [.tag form], _, if_neg hnever, hkept d _, hkept d' _, rfl⟩
    | closes =>
      simp only [Token.ofPiece, single?, hrole, pairs_congr h] at hn ⊢
      split at hn
      · cases hn
      · next hnever =>
        cases hn
        exact ⟨.text [.tag form], _, if_neg hnever, hkept d _, hkept d' _, rfl⟩

/-- **Pieces are laid out alike with all markers.**

**Proof sketch.** The pairs are the same ones. So a token that is a node of its own with the one
markers is such a node with the others, and a pair is a block with the same tags. -/
theorem Layout.exists_outlines (hqs : ∀ p ∈ qs, p.Solid) {i j : Nat} {parts : List Node}
    (hlayout : Layout (Token.ofPieces d level 0 qs) i j parts) :
    ∃ os parts', Layout (Token.ofPieces d' level 0 qs) i j parts' ∧
      List.Forall₂ (Outline.Prints d) os parts ∧ List.Forall₂ (Outline.Prints d') os parts' ∧
      qs.take j = qs.take i ++ Outline.piecesAll os := by
  have hstem := Token.map_stem_ofPieces d d' level 0 0 qs
  have htake : ∀ {i : Nat} {p : Piece}, qs[i]? = some p → qs.take (i + 1) = qs.take i ++ [p] := by
    intro i p hp
    rw [List.take_add_one, hp]
    rfl
  induction hlayout with
  | nil i => exact ⟨[], [], .nil i, .nil, .nil, by simp [Outline.piecesAll]⟩
  | @single i j t n parts ht hn _ ih =>
    obtain ⟨os, parts', hrest, hos, hos', htaken⟩ := ih
    obtain ⟨p, first, first', hp, rfl, ht'⟩ := exists_piece d' ht
    obtain ⟨o, n', hn', ho, ho', hpieces⟩ :=
      exists_outline_of_single? d' hstem (hqs p (List.mem_of_getElem? hp)) hn first'
    refine ⟨o :: os, n' :: parts', .single ht' hn' hrest, .cons ho hos, .cons ho' hos', ?_⟩
    rw [htaken, htake hp, Outline.piecesAll, hpieces, List.append_assoc]
  | @block i j k opener closer kind inner parts hpair hopener hkind hcloser _ _ ihinner ih =>
    obtain ⟨within, inner', hinner, hwithin, hwithin', hinside⟩ := ihinner
    obtain ⟨os, parts', hrest, hos, hos', htaken⟩ := ih
    obtain ⟨form, opener', hp, hrole, hname, hopener', hrole', hname'⟩ :=
      exists_form d' hopener
    obtain ⟨form', closer', hp', -, -, hcloser', -, -⟩ := exists_form d' hcloser
    refine ⟨.block kind form form' ⟨i + 1, k⟩ (Outline.joined within) :: os, _,
      .block (pairs_congr hstem ▸ hpair) hopener' (by rw [hrole', ← hrole, hkind]) hcloser' hinner
        hrest, .cons ?_ hos, .cons ?_ hos', ?_⟩
    · rw [hname]
      exact .block kind form form' _ _ (Outline.prints_joined hwithin)
    · rw [hname']
      exact .block kind form form' _ _ (Outline.prints_joined hwithin')
    · rw [htaken, htake hp', hinside, htake hp, Outline.piecesAll, Outline.pieces,
        Outline.piecesAll_joined]
      simp

end Pairing

/-- **Pieces have the same outline with all markers**, or blocks nest too deep with all of them. -/
theorem Node.exists_outlines_of_pieces (d d' : Delimiters) (level : Nat) {qs : List Piece}
    (hqs : ∀ p ∈ qs, p.Solid) :
    (Node.ofTokens (Token.ofPieces d level 0 qs) = .error (.nestingTooDeep maxBlockDepth) ∧
      Node.ofTokens (Token.ofPieces d' level 0 qs) = .error (.nestingTooDeep maxBlockDepth)) ∨
    ∃ nodes nodes' os, Node.ofTokens (Token.ofPieces d level 0 qs) = .ok nodes ∧
      Node.ofTokens (Token.ofPieces d' level 0 qs) = .ok nodes' ∧
      List.Forall₂ (Outline.Prints d) os nodes ∧ List.Forall₂ (Outline.Prints d') os nodes' ∧
      Outline.piecesAll os = qs := by
  have hfull : Pairing.Overfull (Token.ofPieces d level 0 qs) ↔
      Pairing.Overfull (Token.ofPieces d' level 0 qs) :=
    Pairing.overfull_congr (Token.map_stem_ofPieces d d' level 0 0 qs)
  cases hn : Node.ofTokens (Token.ofPieces d level 0 qs) with
  | error e =>
    obtain ⟨rfl, hover⟩ := Pairing.overfull_of_error hn
    cases hn' : Node.ofTokens (Token.ofPieces d' level 0 qs) with
    | error e' => exact .inl ⟨rfl, by rw [(Pairing.overfull_of_error hn').1]⟩
    | ok nodes' => exact absurd (hfull.1 hover) (Pairing.exists_layout_of_ok hn').1
  | ok nodes =>
    obtain ⟨hnot, parts, hlayout, rfl⟩ := Pairing.exists_layout_of_ok hn
    cases hn' : Node.ofTokens (Token.ofPieces d' level 0 qs) with
    | error e' => exact absurd (hfull.2 (Pairing.overfull_of_error hn').2) hnot
    | ok nodes' =>
      obtain ⟨-, parts', hlayout', rfl⟩ := Pairing.exists_layout_of_ok hn'
      obtain ⟨os, parts'', hlayout'', hos, hos', htaken⟩ := hlayout.exists_outlines d' hqs
      rw [Token.length_ofPieces] at hlayout' hlayout'' htaken
      cases hlayout'.unique hlayout''
      refine .inr ⟨_, _, Outline.joined os, rfl, rfl, Outline.prints_joined hos,
        Outline.prints_joined hos', ?_⟩
      rw [List.take_length, List.take_zero, List.nil_append] at htaken
      rw [Outline.piecesAll_joined, ← htaken]

/-! ### What is shown of outlines -/

/-- What a rendering shows at some place. -/
inductive Shown where
  /-- A piece as it was written. -/
  | piece (p : Piece)
  /-- A value. -/
  | value (v : Value)
  /-- A tag whose name has no value. -/
  | missing (form : TagForm)

namespace Shown

/-- What it looks like, with the given markers around tags. -/
def written (d : Delimiters) : Shown → String
  | piece p => String.ofList (p.write d)
  | value v => v.display
  | missing form => String.ofList (form.write d)

/-- What all of them look like, one after the other. -/
def display (d : Delimiters) (shown : List Shown) : String := String.join (shown.map (written d))

lemma display_append (d : Delimiters) (shown more : List Shown) :
    display d (shown ++ more) = display d shown ++ display d more := by
  rw [display, List.map_append, String.join_append, display, display]

lemma display_map_piece (d : Delimiters) (ps : List Piece) :
    display d (ps.map piece) = String.ofList (Piece.written d ps) := by
  induction ps with
  | nil => rfl
  | cons p ps ih =>
    rw [Piece.written_cons, String.ofList_append, ← ih]
    exact display_append d [piece p] (ps.map piece)

/-- The markers show only where a tag is kept. -/
lemma display_congr (d d' : Delimiters) {shown : List Shown}
    (hkept : ∀ form, piece (.tag form) ∉ shown) (hmissing : ∀ form, missing form ∉ shown) :
    display d shown = display d' shown := by
  refine congrArg String.join (List.map_congr_left fun x hx => ?_)
  cases x with
  | value v => rfl
  | missing form => exact absurd hx (hmissing form)
  | piece p =>
    cases p with
    | text content => rfl
    | tag form => exact absurd hx (hkept form)

end Shown

namespace Outline

mutual

/-- What a rendering in the given scope shows of the outline. -/
def shown (s : Scope) : Outline → List Shown
  | text parts => parts.map .piece
  | value form =>
    match s.resolve (String.ofList form.name) with
    | some v => [.value v]
    | none => [.missing form]
  | block kind opener _ _ body =>
    match s.resolve (String.ofList opener.name) with
    | some v => (v.scopes s kind).flatMap fun s => shownAll s body
    | none => []

/-- What it shows of the outlines. -/
def shownAll (s : Scope) : List Outline → List Shown
  | [] => []
  | o :: os => shown s o ++ shownAll s os

end

end Outline

namespace Run

/-- The run writes the text and warns of nothing. -/
structure Writes (r : Run Unit) (text : String) : Prop where
  outcome : r.outcome = .done ()
  output : r.output = text
  warnings : r.warnings = []

namespace Writes

lemma pure : Writes (Pure.pure ()) "" := ⟨rfl, rfl, rfl⟩

lemma bind {r : Run Unit} {f : Unit → Run Unit} {text more : String} (hr : r.Writes text)
    (hf : (f ()).Writes more) : (r >>= f).Writes (text ++ more) where
  outcome := bind_outcome_done_iff.2 ⟨(), hr.outcome, hf.outcome⟩
  output := by rw [output_bind hr.outcome, hr.output, hf.output]
  warnings := by rw [warnings_bind hr.outcome, hr.warnings, hf.warnings, List.append_nil]

/-- Over the elements of a list, each of which shows something. -/
lemma forM {α : Type} {d : Delimiters} {f : α → Run Unit} {g : α → List Shown} {as : List α}
    (h : ∀ a ∈ as, (f a).Writes (Shown.display d (g a))) :
    (as.forM f).Writes (Shown.display d (as.flatMap g)) := by
  induction as with
  | nil => exact pure
  | cons a as ih =>
    obtain ⟨ha, has⟩ := List.forall_mem_cons.1 h
    rw [forM_cons, List.flatMap_cons, Shown.display_append]
    exact ha.bind (ih has)

lemma emit {e : Event} (h : e.warning? = none) : (Run.emit e).Writes e.written :=
  ⟨rfl, by simp [Run.output, Run.emit, String.join_cons],
    by simp [Run.warnings, Event.warnings, Run.emit, h]⟩

end Writes

end Run

/-! ### Rendering -/

section

variable {d : Delimiters} (set : Setting)

/-- **A node is shown as its outline**, if the bodies of blocks are. -/
lemma Setting.renderNode_writes {f : List Node → TokenRange → Scope → Run Unit} {s : Scope}
    {o : Outline} {n : Node} (hn : o.Prints d n) (hmissing : ∀ form, .missing form ∉ o.shown s)
    (hbody : ∀ kind name span inner body s' os, n = .block kind name span inner body →
      List.Forall₂ (Outline.Prints d) os body →
      (∀ form, .missing form ∉ Outline.shownAll s' os) →
      (f body inner s').Writes (Shown.display d (Outline.shownAll s' os))) :
    (set.renderNode f s n).Writes (Shown.display d (o.shown s)) := by
  cases hn with
  | @text parts hne span =>
    rw [Outline.shown, Shown.display_map_piece]
    exact .emit rfl
  | value form span =>
    simp only [Outline.shown, Setting.renderNode] at hmissing ⊢
    cases hv : s.resolve (String.ofList form.name) with
    | none =>
      simp only [hv] at hmissing
      exact absurd (List.mem_singleton_self _) (hmissing form)
    | some v =>
      have hdisplay : Shown.display d [.value v] = v.display := by
        simp [Shown.display, Shown.written, String.join_cons]
      rw [hdisplay]
      exact .emit rfl
  | @block kind opener closer span inner os body hos =>
    simp only [Outline.shown, Setting.renderNode] at hmissing ⊢
    cases hv : s.resolve (String.ofList opener.name) with
    | none => exact .pure
    | some v =>
      simp only [hv] at hmissing ⊢
      refine Run.Writes.forM fun s' hs' => hbody _ _ _ _ _ _ _ rfl hos fun form hform => ?_
      exact hmissing form (List.mem_flatMap.2 ⟨s', hs', hform⟩)

/-- So are nodes in their order. -/
lemma Setting.forM_renderNode_writes {f : List Node → TokenRange → Scope → Run Unit} {s : Scope}
    {os : List Outline} {nodes : List Node} (hnodes : List.Forall₂ (Outline.Prints d) os nodes)
    (hmissing : ∀ form, .missing form ∉ Outline.shownAll s os)
    (hbody : ∀ kind name span inner body s' os, .block kind name span inner body ∈ nodes →
      List.Forall₂ (Outline.Prints d) os body →
      (∀ form, .missing form ∉ Outline.shownAll s' os) →
      (f body inner s').Writes (Shown.display d (Outline.shownAll s' os))) :
    (nodes.forM (set.renderNode f s)).Writes (Shown.display d (Outline.shownAll s os)) := by
  induction hnodes with
  | nil => exact .pure
  | @cons o n os nodes hn _ ih =>
    simp only [Outline.shownAll, List.mem_append, not_or, forall_and] at hmissing
    rw [Run.forM_cons, Outline.shownAll, Shown.display_append]
    refine (set.renderNode_writes hn hmissing.1 ?_).bind (ih hmissing.2 ?_)
    · rintro kind name span inner body s' os' rfl
      exact hbody _ _ _ _ _ _ _ List.mem_cons_self
    · intro kind name span inner body s' os' hmem
      exact hbody _ _ _ _ _ _ _ (List.mem_cons_of_mem n hmem)

/-- **A block without partials is shown as its outlines**, if no name of a value is missing.

**Proof sketch.** Induction on the depth that is granted. The body of a block is lower than the
nodes that the block is among. -/
theorem Call.run_writes {c : Call} {os : List Outline} (hplain : c.Plain)
    (hnodes : List.Forall₂ (Outline.Prints d) os c.nodes) {depth : Nat}
    (hdepth : Node.heightAll c.nodes ≤ depth)
    (hmissing : ∀ form, .missing form ∉ Outline.shownAll c.scope os) :
    (c.run set depth).Writes (Shown.display d (Outline.shownAll c.scope os)) := by
  induction depth using Nat.strongRecOn generalizing c os with
  | ind depth ih =>
    rw [run_eq, runWith, hplain.prepare, pure_bind]
    dsimp only
    rw [Run.forM_flatMap]
    simp only [forM_jobs]
    refine set.forM_renderNode_writes hnodes hmissing ?_
    intro kind name span inner body s' os' hmem hbody hmissing'
    have hlower : Node.heightAll body + 1 ≤ depth := Node.heightAll_le_iff.1 hdepth _ hmem
    have hplain' : Node.anyContainsPartial body = false :=
      Node.anyContainsPartial_body hplain hmem
    cases depth with
    | zero => omega
    | succ depth =>
      exact ih depth (Nat.lt_succ_self depth) (c := ⟨body, c.tokens, inner, s'⟩) hplain' hbody
        (Nat.le_of_succ_le_succ hlower) hmissing'

end

/-! ### Whole templates -/

namespace Template

/-- A text that was written is read as its pieces are. -/
lemma compileWith_written {d : Delimiters} (hd : d.Apart) {ps : List Piece}
    (hclear : ∀ p ∈ ps, p.Clear d) (hchain : ps.IsChain fun p q => ¬ (p.IsText ∧ q.IsText)) :
    compileWith d (String.ofList (Piece.written d ps)) =
      (Node.ofTokens (Token.ofPieces d 0 0 (ps.filter fun p => !p.isEmpty))).map fun nodes =>
        ⟨d, String.ofList (Piece.written d ps),
          Token.ofPieces d 0 0 (ps.filter fun p => !p.isEmpty), nodes⟩ := by
  simp only [compileWith, Token.ofText_written hd 0 hclear hchain]
  cases Node.ofTokens (Token.ofPieces d 0 0 (ps.filter fun p => !p.isEmpty)) <;> rfl

/-- A template without partials whose nodes have an outline is shown as the outline, if no name of
a value is missing. -/
lemma report_of_prints {d : Delimiters} {source : String} {t : Template}
    (h : compileWith d source = .ok t) (hnone : Token.partials t.tokens = []) {os : List Outline}
    (hnodes : List.Forall₂ (Outline.Prints d) os t.nodes) {context : Context}
    (hmissing : ∀ form, .missing form ∉ Outline.shownAll (Scope.root context) os)
    (loader : Loader) (options : Options) : t.report context loader options =
      .done ⟨Shown.display d (Outline.shownAll (Scope.root context) os), .empty⟩ := by
  have hread := readIn_of_compileWith h
  have hheight : Node.heightAll t.nodes ≤ defaultDepth :=
    Nat.le_trans (Node.heightAll_le_of_readFrom hread.read) (by decide)
  have hwrites : (t.run context loader options defaultDepth).Writes
      (Shown.display d (Outline.shownAll (Scope.root context) os)) :=
    Call.run_writes (t.setting loader options) (entry_plain h hnone context) hnodes hheight hmissing
  rw [report, reportOf, hwrites.outcome, Outcome.map, hwrites.output,
    Run.diagnostics_eq_empty_iff.2 hwrites.warnings]

/-- **The choice of markers makes no difference.**

Let no character of two pairs of markers be blank, a sigil or part of a name, and let pieces be
written with both: well-formed tags other than partials, and plain texts that hold neither opening
marker, no two of them next to each other. Either both texts cannot be read since their blocks nest
too deep, or both are read into what the same outline comes to, which is made of all pieces that are
not empty. In each context where nothing of the outline is shown that is a tag kept as it was
written, or a name without value, both render to the same output and warn of nothing, with every
loader and every choice of options.

**Proof sketch.** Each text is divided into the pieces again. The tags are paired in the same way,
so the nodes have the same outline. A rendering goes through the outline, and the markers are shown
only where a tag is kept. -/
theorem renders_same_with_other_markers {d d' : Delimiters} (hd : d.Apart) (hd' : d'.Apart)
    {ps : List Piece} (hclear : ∀ p ∈ ps, p.Clear d ∧ p.Clear d')
    (hchain : ps.IsChain fun p q => ¬ (p.IsText ∧ q.IsText))
    (hpartial : ∀ form, .tag form ∈ ps → form.role ≠ .includes) :
    (compileWith d (String.ofList (Piece.written d ps)) =
        .error (.nestingTooDeep maxBlockDepth) ∧
      compileWith d' (String.ofList (Piece.written d' ps)) =
        .error (.nestingTooDeep maxBlockDepth)) ∨
    ∃ t t', compileWith d (String.ofList (Piece.written d ps)) = .ok t ∧
      compileWith d' (String.ofList (Piece.written d' ps)) = .ok t' ∧
      (∃ outline, List.Forall₂ (Outline.Prints d) outline t.nodes ∧
        List.Forall₂ (Outline.Prints d') outline t'.nodes ∧
        Outline.piecesAll outline = ps.filter fun p => !p.isEmpty) ∧
      ∀ outline, List.Forall₂ (Outline.Prints d) outline t.nodes →
        List.Forall₂ (Outline.Prints d') outline t'.nodes → ∀ context,
        (∀ form, .piece (.tag form) ∉ Outline.shownAll (Scope.root context) outline) →
        (∀ form, .missing form ∉ Outline.shownAll (Scope.root context) outline) →
        ∃ output, ∀ loader options,
          t.report context loader options = .done ⟨output, .empty⟩ ∧
          t'.report context loader options = .done ⟨output, .empty⟩ := by
  have hsolid : ∀ p ∈ ps.filter (fun p => !p.isEmpty), p.Solid := by
    intro p hp
    obtain ⟨hp, hne⟩ := List.mem_filter.1 hp
    cases p with
    | text content => simpa [Piece.isEmpty, Piece.Solid] using hne
    | tag form => exact hpartial form hp
  have ht := compileWith_written hd (fun p hp => (hclear p hp).1) hchain
  have ht' := compileWith_written hd' (fun p hp => (hclear p hp).2) hchain
  rcases Node.exists_outlines_of_pieces d d' 0 hsolid with
    ⟨he, he'⟩ | ⟨nodes, nodes', outline, hn, hn', hprints, hprints', hpieces⟩
  · rw [he] at ht
    rw [he'] at ht'
    exact .inl ⟨ht, ht'⟩
  · rw [hn] at ht
    rw [hn'] at ht'
    refine .inr ⟨_, _, ht, ht', ⟨outline, hprints, hprints', hpieces⟩, ?_⟩
    intro outline hprints hprints' context hkept hmissing
    refine ⟨Shown.display d (Outline.shownAll (Scope.root context) outline),
      fun loader options => ⟨?_, ?_⟩⟩
    · exact report_of_prints ht (Token.partials_ofPieces hsolid) hprints hmissing loader options
    · rw [Shown.display_congr d d' hkept hmissing]
      exact report_of_prints ht' (Token.partials_ofPieces hsolid) hprints' hmissing loader options

/-- A case where plain texts end in half an opening marker, and the one pair has the same marker
twice. -/
theorem renders_same_with_other_markers_of_half_markers :
    let d : Delimiters := .standard
    let d' : Delimiters := ⟨"%%", "%%", by decide, by decide⟩
    let ps : List Piece := [.tag ⟨[], .opens .plain, [], ['a'], []⟩, .text ['x', '\x7b'],
      .tag ⟨[' '], .value, [], ['b'], []⟩, .text ['y', '%'], .tag ⟨[], .closes, [], ['a'], []⟩]
    let context := Context.ofList [("a", .list [Context.ofList [("b", .scalar "1")],
      Context.ofList [("b", .scalar "2")]])]
    ∃ t t', compileWith d (String.ofList (Piece.written d ps)) = .ok t ∧
      compileWith d' (String.ofList (Piece.written d' ps)) = .ok t' ∧
      ∃ output, ∀ loader options, t.report context loader options = .done ⟨output, .empty⟩ ∧
        t'.report context loader options = .done ⟨output, .empty⟩ := by
  intro d d' ps context
  have hd : d.Apart := by decide
  have hd' : d'.Apart := by decide
  have hclear : ∀ p ∈ ps, p.Clear d ∧ p.Clear d' := by decide
  have hchain : ps.IsChain fun p q => ¬ (p.IsText ∧ q.IsText) := by
    simp [ps, Piece.IsText]
  have hpartial : ∀ form, .tag form ∈ ps → form.role ≠ .includes := by
    simp [ps]
  have ht₀ := compileWith_written hd (fun p hp => (hclear p hp).1) hchain
  have ht₀' := compileWith_written hd' (fun p hp => (hclear p hp).2) hchain
  rcases renders_same_with_other_markers hd hd' hclear hchain hpartial with
    ⟨he, -⟩ | ⟨t, t', ht, ht', -, hrender⟩
  · cases ht₀.symm.trans he
  · refine ⟨t, t', ht, ht', ?_⟩
    cases ht₀.symm.trans ht
    cases ht₀'.symm.trans ht'
    let outline : List Outline := [.block .plain ⟨[], .opens .plain, [], ['a'], []⟩
      ⟨[], .closes, [], ['a'], []⟩ ⟨1, 4⟩ [.text [.text ['x', '\x7b']],
        .value ⟨[' '], .value, [], ['b'], []⟩, .text [.text ['y', '%']]]]
    have hshown : Outline.shownAll (Scope.root context) outline =
        [.piece (.text ['x', '\x7b']), .value (.scalar "1"), .piece (.text ['y', '%']),
          .piece (.text ['x', '\x7b']), .value (.scalar "2"), .piece (.text ['y', '%'])] := by
      rfl
    refine hrender outline ?_ ?_ context (by simp [hshown]) (by simp [hshown])
    · exact .cons (.block _ _ _ _ _ (.cons (.text (by decide) _) (.cons (.value _ _)
        (.cons (.text (by decide) _) .nil)))) .nil
    · exact .cons (.block _ _ _ _ _ (.cons (.text (by decide) _) (.cons (.value _ _)
        (.cons (.text (by decide) _) .nil)))) .nil

end Template

end Stencil
