import Mathlib.Data.List.Forall2
import Stencil.Proofs.Pairing

set_option relaxedAutoImplicit false
set_option autoImplicit false

/-!
# Two readings in lockstep

Two lists of tokens with the same texts and tags are read into the same nodes, even if the places
of the tokens differ. Only the spans and the ranges of the blocks can tell the results apart. How
they may differ is left open here: spans are compared by one relation, the ranges and bodies of
blocks by another, and the positions of opening tags by a third.

## Main definitions

* `Stencil.Comparison` — how spans, blocks and positions of two readings are compared.
* `Stencil.Comparison.Nodes`, `Stencil.Comparison.Frames`, `Stencil.Comparison.Builders` — nodes,
  open blocks and states that agree up to the comparison.

## Main results

* `Stencil.Comparison.Builders.push`, `Stencil.Comparison.Builders.giveUp`,
  `Stencil.Comparison.Builders.finish` — what is done to both sides keeps the agreement.
* `Stencil.Comparison.Builders.step` — so does reading a token.
-/

namespace Stencil

/-- How two readings are compared. -/
structure Comparison where
  /-- The spans of a token or node in the two readings. -/
  Spans : Span → Span → Prop
  /-- The range and the body of a block in the two readings. -/
  Blocks : TokenRange → List Node → TokenRange → List Node → Prop
  /-- The position of an opening tag in the two readings. -/
  Positions : Nat → Nat → Prop
  /-- Spans that cover comparable spans are comparable. -/
  cover : ∀ {a a' b b' : Span}, Spans a a' → Spans b b' → Spans (a.cover b) (a'.cover b')

namespace Comparison

variable (R : Comparison)

/-- The nodes agree: they are of one sort, with the same texts and names. -/
inductive Nodes : Node → Node → Prop where
  | text {content : String} {span span' : Span} (hs : R.Spans span span') :
    Nodes (.text content span) (.text content span')
  | value {name raw : String} {span span' : Span} (hs : R.Spans span span') :
    Nodes (.value name raw span) (.value name raw span')
  | block {kind : BlockKind} {name : String} {span span' : Span} {inner inner' : TokenRange}
    {body body' : List Node} (hs : R.Spans span span')
    (hb : R.Blocks inner body inner' body') :
    Nodes (.block kind name span inner body) (.block kind name span' inner' body')
  | inclusion {name : String} {span span' : Span} (hs : R.Spans span span') :
    Nodes (.inclusion name span) (.inclusion name span')

/-- The tags agree in all that is read from them. -/
structure Tags (u u' : Tag) : Prop where
  role : u.role = u'.role
  name : u.name = u'.name
  raw : u.raw = u'.raw
  span : R.Spans u.span u'.span

/-- The tokens agree in all that is read from them. -/
inductive Tokens : Token → Token → Prop where
  | text {content : String} {span span' : Span} (hs : R.Spans span span') :
    Tokens (.text content span) (.text content span')
  | tag {u u' : Tag} (hu : R.Tags u u') : Tokens (.tag u) (.tag u')

/-- The open blocks agree, and so do their nodes. -/
structure Frames (f f' : Frame) : Prop where
  kind : f.kind = f'.kind
  opener : R.Tags f.opener f'.opener
  index : R.Positions f.index f'.index
  nodes : List.Forall₂ R.Nodes f.nodes f'.nodes

/-- The states of the two readings agree. -/
structure Builders (b b' : Builder) : Prop where
  root : List.Forall₂ R.Nodes b.root b'.root
  frames : List.Forall₂ R.Frames b.frames b'.frames

variable {R}

/-! ### Nodes put behind others -/

lemma pushText {nodes nodes' : List Node} (h : List.Forall₂ R.Nodes nodes nodes')
    (content : String) {span span' : Span} (hs : R.Spans span span') :
    List.Forall₂ R.Nodes (Node.pushText nodes content span)
      (Node.pushText nodes' content span') := by
  unfold Node.pushText
  split
  · exact h
  · cases h with
    | nil => exact .cons (.text hs) .nil
    | cons hn h =>
      cases hn with
      | text hs' => exact .cons (.text (R.cover hs' hs)) h
      | value hs' => exact .cons (.text hs) (.cons (.value hs') h)
      | block hs' hb => exact .cons (.text hs) (.cons (.block hs' hb) h)
      | inclusion hs' => exact .cons (.text hs) (.cons (.inclusion hs') h)

lemma push {nodes nodes' : List Node} (h : List.Forall₂ R.Nodes nodes nodes') {n n' : Node}
    (hn : R.Nodes n n') : List.Forall₂ R.Nodes (Node.push nodes n) (Node.push nodes' n') := by
  cases hn with
  | text hs => exact pushText h _ hs
  | value hs => exact .cons (.value hs) h
  | block hs hb => exact .cons (.block hs hb) h
  | inclusion hs => exact .cons (.inclusion hs) h

lemma pushUnclosed {nodes nodes' : List Node} (h : List.Forall₂ R.Nodes nodes nodes')
    {n n' : Node} (hn : R.Nodes n n') :
    List.Forall₂ R.Nodes (Frame.pushUnclosed nodes n) (Frame.pushUnclosed nodes' n') := by
  cases hn with
  | value hs => exact pushText h _ hs
  | text hs => exact push h (.text hs)
  | block hs hb => exact push h (.block hs hb)
  | inclusion hs => exact push h (.inclusion hs)

lemma flattenOnto {nodes nodes' : List Node} (h : List.Forall₂ R.Nodes nodes nodes')
    {f f' : Frame} (hf : R.Frames f f') :
    List.Forall₂ R.Nodes (f.flattenOnto nodes) (f'.flattenOnto nodes') := by
  have main : ∀ {more more' before before' : List Node}, List.Forall₂ R.Nodes more more' →
      List.Forall₂ R.Nodes before before' →
      List.Forall₂ R.Nodes (more.foldl Frame.pushUnclosed before)
        (more'.foldl Frame.pushUnclosed before') := by
    intro more more' before before' hmore
    induction hmore generalizing before before' with
    | nil => exact id
    | cons hn _ ih => exact fun hbefore => ih (pushUnclosed hbefore hn)
  unfold Frame.flattenOnto
  rw [hf.opener.raw]
  exact main (List.forall₂_reverse_iff.2 hf.nodes) (pushText h _ hf.opener.span)

/-! ### Changes of a state -/

namespace Builders

variable {b b' : Builder}

lemma empty : R.Builders Builder.empty Builder.empty := ⟨.nil, .nil⟩

lemma modifyNodes (hb : R.Builders b b') {g g' : List Node → List Node}
    (hg : ∀ {nodes nodes' : List Node}, List.Forall₂ R.Nodes nodes nodes' →
      List.Forall₂ R.Nodes (g nodes) (g' nodes')) :
    R.Builders (b.modifyNodes g) (b'.modifyNodes g') := by
  obtain ⟨root, frames⟩ := b
  obtain ⟨root', frames'⟩ := b'
  obtain ⟨hroot, hframes⟩ := hb
  cases hframes with
  | nil => exact ⟨hg hroot, .nil⟩
  | cons hf hfs => exact ⟨hroot, .cons ⟨hf.kind, hf.opener, hf.index, hg hf.nodes⟩ hfs⟩

lemma push (hb : R.Builders b b') {n n' : Node} (hn : R.Nodes n n') :
    R.Builders (b.push n) (b'.push n') :=
  hb.modifyNodes fun h => Comparison.push h hn

lemma giveUp (n : Nat) (hb : R.Builders b b') : R.Builders (b.giveUp n) (b'.giveUp n) := by
  induction n generalizing b b' with
  | zero => exact hb
  | succ n ih =>
    obtain ⟨root, frames⟩ := b
    obtain ⟨root', frames'⟩ := b'
    obtain ⟨hroot, hframes⟩ := hb
    cases hframes with
    | nil => exact ⟨hroot, .nil⟩
    | @cons f f' fs fs' hf hfs =>
      have hrest : R.Builders ⟨root, fs⟩ ⟨root', fs'⟩ := ⟨hroot, hfs⟩
      exact ih (hrest.modifyNodes fun h => flattenOnto h hf)

lemma finish (hb : R.Builders b b') : List.Forall₂ R.Nodes b.finish b'.finish := by
  unfold Builder.finish
  rw [← hb.frames.length_eq]
  exact List.forall₂_reverse_iff.2 (hb.giveUp _).root

end Builders

/-! ### Reading -/

/-- A token that is a node of its own is the same one in both readings. -/
lemma Tokens.leaf {t t' : Token} (ht : R.Tokens t t') {n : Node} (hn : t.leaf? = some n) :
    ∃ n', t'.leaf? = some n' ∧ R.Nodes n n' := by
  cases ht with
  | @text content span span' hs =>
    cases hn
    exact ⟨_, rfl, .text hs⟩
  | @tag u u' hu =>
    cases hr : u.role <;> simp only [Token.leaf?, hr, reduceCtorEq, Option.some.injEq] at hn
    · subst hn
      refine ⟨.value u'.name u'.raw u'.span, by simp [Token.leaf?, ← hu.role, hr], ?_⟩
      rw [hu.name, hu.raw]
      exact .value hu.span
    · subst hn
      refine ⟨.inclusion u'.name u'.span, by simp [Token.leaf?, ← hu.role, hr], ?_⟩
      rw [hu.name]
      exact .inclusion hu.span

/-- The open blocks around one of them, in both readings. -/
lemma split_frames {gone rest fs' : List Frame} {f : Frame}
    (h : List.Forall₂ R.Frames (gone ++ f :: rest) fs') :
    ∃ gone' f' rest', fs' = gone' ++ f' :: rest' ∧ List.Forall₂ R.Frames gone gone' ∧
      R.Frames f f' ∧ List.Forall₂ R.Frames rest rest' := by
  induction gone generalizing fs' with
  | nil =>
    cases h with
    | cons hf hrest => exact ⟨[], _, _, rfl, .nil, hf, hrest⟩
  | cons g gone ih =>
    cases h with
    | cons hg h =>
      obtain ⟨gone', f', rest', rfl, hgone, hf, hrest⟩ := ih h
      exact ⟨_ :: gone', f', rest', rfl, .cons hg hgone, hf, hrest⟩

/-- No open block has a name in one reading if none has it in the other. -/
lemma forall_opener_ne {fs fs' : List Frame} (h : List.Forall₂ R.Frames fs fs') {name : String}
    (hne : ∀ g ∈ fs, g.opener.name ≠ name) : ∀ g ∈ fs', g.opener.name ≠ name := by
  induction h with
  | nil => simp
  | cons hf _ ih =>
    obtain ⟨hne₁, hne₂⟩ := List.forall_mem_cons.1 hne
    exact List.forall_mem_cons.2 ⟨hf.opener.name ▸ hne₁, ih hne₂⟩

/-- **Reading a token in lockstep.** If the states and the tokens agree, then what one reading
does the other one does as well, provided that the positions and the blocks compare. -/
lemma Builders.step {b b' c : Builder} {i i' : Nat} {t t' : Token} (hb : R.Builders b b')
    (ht : R.Tokens t t') (hi : R.Positions i i')
    (hblock : ∀ {j j' : Nat} {body body' : List Node}, R.Positions j j' →
      List.Forall₂ R.Nodes body body' → R.Blocks ⟨j + 1, i⟩ body ⟨j' + 1, i'⟩ body')
    (h : b.Reads i t c) : ∃ c', b'.Reads i' t' c' ∧ R.Builders c c' := by
  cases h with
  | leaf hn =>
    obtain ⟨n', hn', hnn⟩ := ht.leaf hn
    exact ⟨_, .leaf hn', hb.push hnn⟩
  | @opens u kind hu hlt =>
    cases ht with
    | @tag _ u' htag =>
      refine ⟨⟨b'.root, ⟨kind, u', i', []⟩ :: b'.frames⟩,
        .opens (htag.role ▸ hu) (hb.frames.length_eq ▸ hlt), hb.root, ?_⟩
      exact .cons ⟨rfl, htag, hi, .nil⟩ hb.frames
  | @stray u hu hne =>
    cases ht with
    | @tag _ u' htag =>
      refine ⟨_, .stray (htag.role ▸ hu) (htag.name ▸ forall_opener_ne hb.frames hne), ?_⟩
      rw [htag.raw]
      exact hb.push (.text htag.span)
  | @closes u gone rest f hu hframes hgone hf =>
    cases ht with
    | @tag _ u' htag =>
      have hfs := hb.frames
      rw [hframes] at hfs
      obtain ⟨gone', f', rest', hframes', hgone₂, hff, hrest⟩ := split_frames hfs
      have hname : f'.opener.name = u'.name := by rw [← hff.opener.name, hf, htag.name]
      have hbody : List.Forall₂ R.Nodes (⟨f.nodes, gone⟩ : Builder).finish
          (⟨f'.nodes, gone'⟩ : Builder).finish :=
        Builders.finish ⟨hff.nodes, hgone₂⟩
      refine ⟨_, .closes (htag.role ▸ hu) hframes'
        (htag.name ▸ forall_opener_ne hgone₂ hgone) hname, ?_⟩
      have houter : R.Builders ⟨b.root, rest⟩ ⟨b'.root, rest'⟩ := ⟨hb.root, hrest⟩
      rw [hff.kind, hff.opener.name]
      exact houter.push (.block (R.cover hff.opener.span htag.span) (hblock hff.index hbody))

/-- A token that one reading fails at stops the other one as well. -/
lemma Builders.step_error {b b' : Builder} {i i' : Nat} {t t' : Token} (hb : R.Builders b b')
    (ht : R.Tokens t t') {e : Error} (h : b.step i t = .error e) : b'.step i' t' = .error e := by
  obtain ⟨u, kind, rfl, hu, hmax, rfl⟩ := Builder.step_eq_error_iff.1 h
  cases ht with
  | @tag _ u' htag =>
    refine Builder.step_eq_error_iff.2 ⟨u', kind, rfl, htag.role ▸ hu, ?_, rfl⟩
    rwa [← hb.frames.length_eq]

/-- **Reading tokens in lockstep.** Both readings succeed with states that agree, or both fail in
the same way. -/
lemma Builders.run {b b' : Builder} {i i' : Nat} {ts ts' : List Token} (hb : R.Builders b b')
    (hts : List.Forall₂ R.Tokens ts ts') (hi : ∀ n, R.Positions (i + n) (i' + n))
    (hblock : ∀ {n j j' : Nat} {body body' : List Node}, R.Positions j j' →
      List.Forall₂ R.Nodes body body' → R.Blocks ⟨j + 1, i + n⟩ body ⟨j' + 1, i' + n⟩ body') :
    (∃ c c', b.run i ts = .ok c ∧ b'.run i' ts' = .ok c' ∧ R.Builders c c') ∨
      ∃ e, b.run i ts = .error e ∧ b'.run i' ts' = .error e := by
  induction hts generalizing b b' i i' with
  | nil => exact .inl ⟨b, b', rfl, rfl, hb⟩
  | @cons t t' ts ts' ht _ ih =>
    rw [Builder.run_cons, Builder.run_cons]
    cases h : b.step i t with
    | error e =>
      rw [hb.step_error ht h]
      exact .inr ⟨e, rfl, rfl⟩
    | ok c =>
      obtain ⟨c', h', hc⟩ := hb.step ht (hi 0) (fun hj hbody => hblock hj hbody)
        (Builder.step_eq_ok_iff.1 h)
      have h'' : b'.step i' t' = .ok c' := Builder.step_eq_ok_iff.2 h'
      rw [h'']
      refine ih hc (fun n => ?_) fun {n} _ _ _ _ hj hbody => ?_
      · have hn := hi (n + 1)
        rwa [show i + (n + 1) = i + 1 + n by omega, show i' + (n + 1) = i' + 1 + n by omega] at hn
      · have hn := hblock (n := n + 1) hj hbody
        rwa [show i + (n + 1) = i + 1 + n by omega, show i' + (n + 1) = i' + 1 + n by omega] at hn

end Comparison

end Stencil
