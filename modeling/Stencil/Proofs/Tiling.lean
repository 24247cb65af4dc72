import Stencil.Proofs.Division
import Stencil.Proofs.Rereading
import Stencil.Proofs.Scanning

set_option relaxedAutoImplicit false
set_option autoImplicit false

/-!
# Nodes lie side by side in the text

Reading a text loses nothing of it. At every depth the nodes lie side by side, from the first to the
last byte of what they were read from, and plain text and values are kept as they stand there.
Plain text is put together from many parts: stretches of text, closing tags that close nothing, and
whatever is left of blocks that never close. All of it is joined in the order of the text.

## Main definitions

* `Stencil.Node.Covers` — nodes lie side by side in a stretch of the text.
* `Stencil.Node.Level` — a list of nodes is the whole or the body of a block, at any depth.

## Main results

* `Stencil.Node.covers_of_readFrom` — the nodes of tokens cover what the tokens do.
* `Stencil.Node.exists_tags_of_block` — a block lies between its tags.
* `Stencil.Template.nodes_tile_source` — what this means for a whole template.
-/

namespace Stencil

namespace Node

/-- Plain text is not empty and stands in its span, and so does a value as it is written. -/
def Faithful (source : String) : Node → Prop
  | text content span => content ≠ "" ∧ span.Reads source content
  | value _ raw span => span.Reads source raw
  | block _ _ _ _ _ => True
  | inclusion _ _ => True

/-- The nodes lie side by side in the text from the byte `start` up to the byte `stop`, and plain
text does not follow plain text. -/
structure Covers (source : String) (start : Nat) (nodes : List Node) (stop : Nat) : Prop where
  tile : Span.Tile start (nodes.map span) stop
  faithful : ∀ n ∈ nodes, n.Faithful source
  apart : nodes.IsChain fun n m => ¬ (n.IsText ∧ m.IsText)

/-! ### Nodes put behind others -/

variable {source : String} {start stop : Nat} {nodes : List Node}

lemma covers_nil : Covers source start [] start := ⟨rfl, by simp, .nil⟩

lemma covers_reverse_cons {n : Node} : Covers source start (n :: nodes).reverse stop ↔
    Covers source start nodes.reverse n.span.start ∧
      (n.span.start < n.span.stop ∧ n.span.stop = stop) ∧ n.Faithful source ∧
      ∀ m ∈ nodes.head?, ¬ (m.IsText ∧ n.IsText) := by
  rw [List.reverse_cons]
  constructor
  · rintro ⟨htile, hfaithful, hapart⟩
    rw [List.map_append, Span.tile_append] at htile
    obtain ⟨_, htile, rfl, hlt, hstop⟩ := htile
    rw [List.forall_mem_append] at hfaithful
    rw [List.isChain_append] at hapart
    refine ⟨⟨htile, hfaithful.1, hapart.1⟩, ⟨hlt, hstop⟩, hfaithful.2 n List.mem_cons_self, ?_⟩
    simpa using hapart.2.2
  · rintro ⟨⟨htile, hfaithful, hapart⟩, ⟨hlt, hstop⟩, hn, hnext⟩
    refine ⟨?_, ?_, ?_⟩
    · rw [List.map_append, Span.tile_append]
      exact ⟨_, htile, rfl, hlt, hstop⟩
    · exact List.forall_mem_append.2 ⟨hfaithful, by simpa using hn⟩
    · refine List.isChain_append.2 ⟨hapart, .singleton n, ?_⟩
      simpa using hnext

namespace Covers

/-- Plain text behind nodes that it meets is part of the same stretch. -/
lemma pushText {content : String} {span : Span} (h : Covers source start nodes.reverse span.start)
    (hread : span.Reads source content) (hne : content ≠ "") :
    Covers source start (Node.pushText nodes content span).reverse span.stop := by
  have hlt := hread.start_lt_stop hne
  unfold Node.pushText
  rw [if_neg hne]
  split
  · next before place rest =>
    obtain ⟨hrest, ⟨hplace, hstop⟩, ⟨hbefore, hread'⟩, hnext⟩ := covers_reverse_cons.1 h
    have hcover : place.cover span = ⟨place.start, span.stop⟩ := by
      obtain ⟨i, j⟩ := place
      obtain ⟨k, l⟩ := span
      cases hstop
      exact Span.cover_adjacent (Nat.le_of_lt hplace) (Nat.le_of_lt hlt)
    have hjoined := hread'.append hread hstop
    rw [hcover] at hjoined ⊢
    refine covers_reverse_cons.2 ⟨hrest, ⟨?_, rfl⟩, ⟨by simp [hbefore], hjoined⟩, hnext⟩
    have hmeet : place.stop = span.start := hstop
    exact Nat.lt_trans hplace (hmeet ▸ hlt)
  · next hother =>
    refine covers_reverse_cons.2 ⟨h, ⟨hlt, rfl⟩, ⟨hne, hread⟩, fun m hm => ?_⟩
    rintro ⟨htext, -⟩
    exact not_isText_of_head hother m hm htext

/-- A node behind nodes that it meets is part of the same stretch. -/
lemma push {n : Node} (h : Covers source start nodes.reverse n.span.start)
    (hlt : n.span.start < n.span.stop) (hn : n.Faithful source) :
    Covers source start (Node.push nodes n).reverse n.span.stop := by
  cases n with
  | text content span => exact h.pushText hn.2 hn.1
  | value name raw span => exact covers_reverse_cons.2 ⟨h, ⟨hlt, rfl⟩, hn, fun _ _ h => h.2⟩
  | block kind name span inner body =>
    exact covers_reverse_cons.2 ⟨h, ⟨hlt, rfl⟩, hn, fun _ _ h => h.2⟩
  | inclusion name span => exact covers_reverse_cons.2 ⟨h, ⟨hlt, rfl⟩, hn, fun _ _ h => h.2⟩

/-- So is a node of a block that never closes. -/
lemma pushUnclosed {n : Node} (h : Covers source start nodes.reverse n.span.start)
    (hlt : n.span.start < n.span.stop) (hn : n.Faithful source) :
    Covers source start (Frame.pushUnclosed nodes n).reverse n.span.stop := by
  cases n with
  | value name raw span =>
    refine h.pushText hn ?_
    rintro rfl
    have hempty : span.stop = span.start := hn.stop_eq
    exact Nat.lt_irrefl span.start (hempty ▸ hlt)
  | text content span => exact h.push hlt hn
  | block kind name span inner body => exact h.push hlt hn
  | inclusion name span => exact h.push hlt hn

/-- A block that never closes, behind nodes that its opening tag meets. -/
lemma flattenOnto {f : Frame} (h : Covers source start nodes.reverse f.opener.span.start)
    (hread : f.opener.span.Reads source f.opener.raw) (hne : f.opener.raw ≠ "")
    (hf : Covers source f.opener.span.stop f.nodes.reverse stop) :
    Covers source start (f.flattenOnto nodes).reverse stop := by
  have main : ∀ (more before : List Node) (i : Nat), Covers source start before.reverse i →
      Span.Tile i (more.map span) stop → (∀ n ∈ more, n.Faithful source) →
      Covers source start (more.foldl Frame.pushUnclosed before).reverse stop := by
    intro more
    induction more with
    | nil =>
      rintro before i hbefore rfl -
      exact hbefore
    | cons n more ih =>
      rintro before i hbefore ⟨rfl, hlt, htile⟩ hfaithful
      obtain ⟨hn, hmore⟩ := List.forall_mem_cons.1 hfaithful
      exact ih _ _ (hbefore.pushUnclosed hlt hn) htile hmore
  exact main _ _ _ (h.pushText hread hne) hf.tile hf.faithful

end Covers

end Node

/-! ### Reading tokens that lie side by side -/

/-- Places are bytes of the text. -/
def Division.byBytes (source : String) : Division where
  before opener _ := opener.span.start
  after opener _ := opener.span.stop
  Opened _ opener _ := opener.span.Reads source opener.raw ∧ opener.raw ≠ ""
  Reach start nodes stop := Node.Covers source start nodes.reverse stop

namespace Division.Of

variable {source : String} {start stop : Nat}

/-- A node of its own, behind what it meets. -/
lemma push_byBytes {b : Builder} {n : Node} (hb : (byBytes source).Of start b n.span.start)
    (hlt : n.span.start < n.span.stop) (hn : n.Faithful source) :
    (byBytes source).Of start (b.push n) n.span.stop :=
  hb.modifyNodes fun _ h => Node.Covers.push h hlt hn

lemma finish_byBytes {b : Builder} (hb : (byBytes source).Of start b stop) :
    Node.Covers source start b.finish stop := by
  have h := hb.finish fun f _ from' nodes more stop hopened hnodes hmore =>
    Node.Covers.flattenOnto (f := { f with nodes := more }) hnodes hopened.1 hopened.2 hmore
  have h' : Node.Covers source start b.finish.reverse.reverse stop := h
  rwa [List.reverse_reverse] at h'

/-- **Reading a token** that meets what has been read before. -/
lemma step_byBytes {b c : Builder} {i : Nat} {t : Token} (h : b.Reads i t c)
    (hb : (byBytes source).Of start b t.span.start) (hread : t.span.Reads source t.raw)
    (hlt : t.span.start < t.span.stop) : (byBytes source).Of start c t.span.stop := by
  have hne : t.raw ≠ "" := by
    intro hempty
    rw [hempty] at hread
    have hstop : t.span.stop = t.span.start := hread.stop_eq
    exact Nat.lt_irrefl t.span.start (hstop ▸ hlt)
  cases h with
  | @leaf _ n hn =>
    cases t with
    | text content span =>
      cases hn
      exact push_byBytes (n := .text content span) hb hlt ⟨hne, hread⟩
    | tag u =>
      cases hu : u.role <;> simp only [Token.leaf?, hu, reduceCtorEq, Option.some.injEq] at hn
      · subst hn
        exact push_byBytes (n := .value u.name u.raw u.span) hb hlt hread
      · subst hn
        exact push_byBytes (n := .inclusion u.name u.span) hb hlt trivial
  | opens hu hmax => exact .frame hb ⟨hread, hne⟩ Node.covers_nil
  | @stray u hu hother => exact push_byBytes (n := .text u.raw u.span) hb hlt ⟨hne, hread⟩
  | @closes u gone rest f hu hframes hgone hf =>
    obtain ⟨root, frames⟩ := b
    cases hframes
    obtain ⟨houter, hopened, hinner⟩ := hb.split
    have hopener := hopened.1.start_lt_stop hopened.2
    have hbody := hinner.finish_byBytes.tile.le
    have hspan : f.opener.span.cover u.span = ⟨f.opener.span.start, u.span.stop⟩ :=
      Span.cover_of_le (Nat.le_trans (Nat.le_of_lt hopener) hbody)
        (Nat.le_trans hbody (Nat.le_of_lt hlt))
    rw [hspan]
    refine push_byBytes (n := .block _ _ ⟨f.opener.span.start, u.span.stop⟩ _ _) houter ?_ trivial
    exact Nat.lt_trans hopener (Nat.lt_of_le_of_lt hbody hlt)

/-- **Reading tokens** that lie side by side. -/
lemma run_byBytes {b c : Builder} {i j : Nat} {ts : List Token} (h : b.run i ts = .ok c)
    (hb : (byBytes source).Of start b j) (htile : Span.Tile j (ts.map Token.span) stop)
    (hreads : ∀ t ∈ ts, t.span.Reads source t.raw) : (byBytes source).Of start c stop := by
  induction ts generalizing b i j with
  | nil =>
    cases h
    cases htile
    exact hb
  | cons t ts ih =>
    rw [Builder.run_cons] at h
    cases hstep : b.step i t with
    | error e =>
      rw [hstep] at h
      cases h
    | ok d =>
      rw [hstep] at h
      obtain ⟨rfl, hlt, htile⟩ := htile
      obtain ⟨ht, hts⟩ := List.forall_mem_cons.1 hreads
      exact ih h (step_byBytes (Builder.step_eq_ok_iff.1 hstep) hb ht hlt) htile hts

end Division.Of

/-- **The nodes of tokens cover what the tokens do.** -/
theorem Node.covers_of_readFrom {source : String} {i start stop : Nat} {ts : List Token}
    {nodes : List Node} (h : Node.readFrom i ts = .ok nodes)
    (htile : Span.Tile start (ts.map Token.span) stop)
    (hreads : ∀ t ∈ ts, t.span.Reads source t.raw) : Node.Covers source start nodes stop := by
  obtain ⟨b, hb, rfl⟩ := Node.readFrom_eq_ok.1 h
  exact (Division.Of.run_byBytes hb (.root Node.covers_nil) htile hreads).finish_byBytes

/-- **A block lies between its tags.** It reaches from the start of the one to the end of the other,
and its nodes lie side by side between the two. The tokens in front of it and behind it take up the
rest. -/
lemma Node.exists_tags_of_block {source : String} {i start stop : Nat} {ts : List Token}
    {nodes : List Node} (h : Node.readFrom i ts = .ok nodes)
    (htile : Span.Tile start (ts.map Token.span) stop)
    (hreads : ∀ t ∈ ts, t.span.Reads source t.raw) {kind : BlockKind} {name : String} {span : Span}
    {inner : TokenRange} {body : List Node} (hmem : .block kind name span inner body ∈ nodes) :
    ∃ before opener mid closer after, ts = before ++ .tag opener :: (mid ++ .tag closer :: after) ∧
      (opener.role = .opens kind ∧ opener.name = name) ∧
      (closer.role = .closes ∧ closer.name = name) ∧
      span = ⟨opener.span.start, closer.span.stop⟩ ∧
      inner = ⟨i + before.length + 1, i + before.length + 1 + mid.length⟩ ∧
      Node.readFrom inner.start mid = .ok body ∧
      Span.Tile start (before.map Token.span) opener.span.start ∧
      Span.Tile opener.span.stop (body.map Node.span) closer.span.start ∧
      Span.Tile closer.span.stop (after.map Token.span) stop := by
  obtain ⟨before, opener, mid, closer, after, rfl, hok, hon, hck, hcn, rfl, rfl, hmid⟩ :=
    Node.standsIn_of_readFrom h _ hmem
  simp only [List.map_append, List.map_cons, Span.tile_append, Span.tile_cons] at htile
  obtain ⟨_, hbefore, rfl, hopener, _, hbetween, rfl, hcloser, hafter⟩ := htile
  have hbody := (Node.covers_of_readFrom hmid hbetween fun u hu => hreads u (by simp [hu])).tile
  have hspan : opener.span.cover closer.span = ⟨opener.span.start, closer.span.stop⟩ :=
    Span.cover_of_le (Nat.le_trans (Nat.le_of_lt hopener) hbetween.le)
      (Nat.le_trans hbetween.le (Nat.le_of_lt hcloser))
  exact ⟨before, opener, mid, closer, after, rfl, ⟨hok, hon⟩, ⟨hck, hcn⟩, hspan, rfl, hmid,
    hbefore, hbody, hafter⟩

/-! ### All depths -/

/-- The list of nodes is the whole, or the body of a block in it, at any depth. -/
inductive Node.Level (whole : List Node) : List Node → Prop where
  | whole : Level whole whole
  | body {nodes : List Node} {kind : BlockKind} {name : String} {span : Span}
    {inner : TokenRange} {body : List Node} (h : Level whole nodes)
    (hmem : .block kind name span inner body ∈ nodes) : Level whole body

/-- At every depth the nodes are those of consecutive tokens. -/
lemma Node.Level.readFrom {i : Nat} {ts : List Token} {whole nodes : List Node}
    (h : Node.Level whole nodes) (hread : Node.readFrom i ts = .ok whole) :
    ∃ before us after, ts = before ++ us ++ after ∧
      Node.readFrom (i + before.length) us = .ok nodes := by
  induction h with
  | whole => exact ⟨[], ts, [], by simp, hread⟩
  | body _ hmem ih =>
    obtain ⟨before, us, after, rfl, hus⟩ := ih
    obtain ⟨front, opener, mid, closer, back, rfl, -, -, -, -, -, rfl, hmid⟩ :=
      Node.standsIn_of_readFrom hus _ hmem
    refine ⟨before ++ front ++ [.tag opener], mid, .tag closer :: (back ++ after), by simp, ?_⟩
    simpa only [List.length_append, List.length_singleton, Nat.add_assoc] using hmid

/-- **Reading loses nothing.**

The nodes of a template lie side by side in the text, from its first to its last byte. A block, at
any depth, reaches from the start of its opening tag to the end of its closing tag, which are the
tags around the range of its body, and the nodes of its body lie side by side in what is between the
two. Plain text and values are kept as they stand in the text, and at every depth plain text is not
empty and does not follow plain text. -/
theorem Template.nodes_tile_source {d : Delimiters} {source : String} {t : Template}
    (h : compileWith d source = .ok t) :
    Span.Tile 0 (t.nodes.map Node.span) source.utf8ByteSize ∧
    ∀ nodes, Node.Level t.nodes nodes →
      (∀ kind name span inner body, .block kind name span inner body ∈ nodes →
        ∃ (k : Nat) (opener closer : Tag), inner.start = k + 1 ∧
          t.tokens[k]? = some (.tag opener) ∧ opener.role = .opens kind ∧ opener.name = name ∧
          t.tokens[inner.stop]? = some (.tag closer) ∧
          closer.role = .closes ∧ closer.name = name ∧
          span = ⟨opener.span.start, closer.span.stop⟩ ∧
          Span.Tile opener.span.stop (body.map Node.span) closer.span.start) ∧
      (∀ content span, .text content span ∈ nodes → content ≠ "" ∧ span.Reads source content) ∧
      (∀ name raw span, .value name raw span ∈ nodes → span.Reads source raw) ∧
      nodes.IsChain fun n m => ¬ (n.IsText ∧ m.IsText) := by
  obtain ⟨-, htokens, hwhole⟩ := of_compileWith h
  rw [Node.ofTokens_eq] at hwhole
  have hreads : ∀ u ∈ t.tokens, u.span.Reads source u.raw := by
    rw [htokens]
    exact fun u hu => Token.reads_of_mem_ofText hu
  have htile : Span.Tile 0 (t.tokens.map Token.span) source.utf8ByteSize := by
    rw [htokens]
    exact Token.tile_ofText d 0 source
  refine ⟨(Node.covers_of_readFrom hwhole htile hreads).tile, fun nodes hlevel => ?_⟩
  obtain ⟨before, us, after, hsplit, hus⟩ := hlevel.readFrom hwhole
  -- the tokens of this level lie side by side as well
  rw [hsplit] at htile hreads
  simp only [List.map_append, Span.tile_append] at htile
  obtain ⟨_, ⟨start, -, htile⟩, -⟩ := htile
  have hreads' : ∀ u ∈ us, u.span.Reads source u.raw := fun u hu => hreads u (by simp [hu])
  have hcovers := Node.covers_of_readFrom hus htile hreads'
  refine ⟨?_, fun content span hmem => hcovers.faithful _ hmem,
    fun name raw span hmem => hcovers.faithful _ hmem, hcovers.apart⟩
  intro kind name span inner body hmem
  obtain ⟨front, opener, mid, closer, back, rfl, ⟨hok, hon⟩, ⟨hck, hcn⟩, hspan, rfl, -, -, hbody,
    -⟩ := Node.exists_tags_of_block hus htile hreads' hmem
  refine ⟨before.length + front.length, opener, closer, by simp, ?_, hok, hon, ?_, hck, hcn, hspan,
    hbody⟩
  · have hopens : t.tokens =
        (before ++ front) ++ .tag opener :: (mid ++ .tag closer :: (back ++ after)) := by
      simp [hsplit]
    rw [hopens, ← List.length_append]
    simp
  · have hcloses : t.tokens =
        (before ++ front ++ .tag opener :: mid) ++ .tag closer :: (back ++ after) := by
      simp [hsplit]
    have hpos : 0 + before.length + front.length + 1 + mid.length =
        (before ++ front ++ .tag opener :: mid).length := by
      simp only [List.length_append, List.length_cons]
      omega
    rw [hcloses, hpos]
    simp

/-- A case where blocks that never close are left between others, and the text has characters of
more than one byte. -/
theorem Template.nodes_tile_source_of_unclosed_blocks :
    ∃ t, Template.compileWith .standard "é{{#a}}{{x}}{{#b}}{{y}}{{/a}}{{/c}}" = .ok t ∧
      Span.Tile 0 (t.nodes.map Node.span) 36 ∧
      ∀ nodes, Node.Level t.nodes nodes →
        (∀ kind name span inner body, .block kind name span inner body ∈ nodes →
          ∃ (k : Nat) (opener closer : Tag), inner.start = k + 1 ∧
            t.tokens[k]? = some (.tag opener) ∧ opener.role = .opens kind ∧ opener.name = name ∧
            t.tokens[inner.stop]? = some (.tag closer) ∧
            closer.role = .closes ∧ closer.name = name ∧
            span = ⟨opener.span.start, closer.span.stop⟩ ∧
            Span.Tile opener.span.stop (body.map Node.span) closer.span.start) ∧
        (∀ content span, .text content span ∈ nodes → content ≠ "" ∧
          span.Reads "é{{#a}}{{x}}{{#b}}{{y}}{{/a}}{{/c}}" content) ∧
        (∀ name raw span, .value name raw span ∈ nodes →
          span.Reads "é{{#a}}{{x}}{{#b}}{{y}}{{/a}}{{/c}}" raw) ∧
        nodes.IsChain fun n m => ¬ (n.IsText ∧ m.IsText) := by
  obtain ⟨t, ht⟩ := Template.exists_of_isOk (show (Template.compileWith .standard
    "é{{#a}}{{x}}{{#b}}{{y}}{{/a}}{{/c}}").isOk = true by decide +kernel)
  have hsize : "é{{#a}}{{x}}{{#b}}{{y}}{{/a}}{{/c}}".utf8ByteSize = 36 := by decide +kernel
  refine ⟨t, ht, ?_⟩
  rw [← hsize]
  exact Template.nodes_tile_source ht

end Stencil
