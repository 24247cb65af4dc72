import Stencil.Proofs.Tiling

set_option relaxedAutoImplicit false
set_option autoImplicit false

/-!
# What is left of a template whose names have no values

If none of the names has a value, then a rendering keeps its text as it is, except for the blocks
and partials, which leave nothing. Closing tags that close nothing, blocks that never close and
malformed tags are plain text, and values are written as their tags. So the output is the text with
the places of blocks and partials cut out, and there is a warning for each value that stands outside
of all blocks. In particular a text without tags comes back as it is.

## Main definitions

* `Stencil.Text.outside` — a text with some places cut out.
* `Stencil.Node.vanishes`, `Stencil.Node.leftover`, `Stencil.Node.undefined?` — what becomes of a
  node, and what is said about it.

## Main results

* `Stencil.Text.outside_of_tile` — cutting out some of the parts that lie side by side in a text
  leaves the others.
* `Stencil.Template.run_of_unbound` — the rendering of a template whose names have no values.
* `Stencil.Template.text_is_left_of_unbound_names` — what is left of the text.
-/

namespace Stencil

/-! ### Cutting places out of a text -/

namespace Text

/-- The characters of a text that do not start in one of the spans; the first one starts at the
given byte. -/
def outside (spans : List Span) : Nat → List Char → List Char
  | _, [] => []
  | i, c :: cs =>
    if ∃ s ∈ spans, s.start ≤ i ∧ i < s.stop then outside spans (i + c.utf8Size) cs
    else c :: outside spans (i + c.utf8Size) cs

variable {spans : List Span}

lemma outside_append (spans : List Span) (i : Nat) (cs ds : List Char) :
    outside spans i (cs ++ ds) =
      outside spans i cs ++ outside spans (i + byteLength cs) ds := by
  induction cs generalizing i with
  | nil => rfl
  | cons c cs ih =>
    rw [List.cons_append, outside, outside, ih, byteLength_cons, Nat.add_assoc]
    split
    · rfl
    · rfl

/-- Nothing is cut out of a stretch that lies beside all spans. -/
lemma outside_eq_self {i : Nat} {cs : List Char}
    (h : ∀ s ∈ spans, s.stop ≤ i ∨ i + byteLength cs ≤ s.start) : outside spans i cs = cs := by
  induction cs generalizing i with
  | nil => rfl
  | cons c cs ih =>
    have hpos := Char.utf8Size_pos c
    rw [outside, if_neg, ih]
    · intro s hs
      have := h s hs
      rw [byteLength_cons] at this
      omega
    · rintro ⟨s, hs, hstart, hstop⟩
      have := h s hs
      rw [byteLength_cons] at this
      omega

/-- All is cut out of a stretch that lies inside a span. -/
lemma outside_eq_nil {i : Nat} {cs : List Char} {s : Span} (hs : s ∈ spans) (hstart : s.start ≤ i)
    (hstop : i + byteLength cs ≤ s.stop) : outside spans i cs = [] := by
  induction cs generalizing i with
  | nil => rfl
  | cons c cs ih =>
    have hpos := Char.utf8Size_pos c
    rw [byteLength_cons] at hstop
    rw [outside, if_pos ⟨s, hs, hstart, by omega⟩]
    exact ih (by omega) (by omega)

end Text

namespace Span

/-- Of spans side by side, the later ones start behind the earlier ones. -/
lemma Tile.pairwise {i j : Nat} {spans : List Span} (h : Tile i spans j) :
    spans.Pairwise fun a b => a.stop ≤ b.start := by
  induction spans generalizing i with
  | nil => exact .nil
  | cons s spans ih =>
    obtain ⟨-, -, h⟩ := h
    refine List.pairwise_cons.2 ⟨fun t ht => ?_, ih h⟩
    obtain ⟨before, after, rfl⟩ := List.append_of_mem ht
    obtain ⟨k, hbefore, rfl, -⟩ := tile_append.1 h
    exact hbefore.le

end Span

/-- **Cutting parts out.** Spans lie side by side from one byte of the text to its end, and each of
them is one of those that are cut out, or lies beside all of these. Then what is left are the parts
in the other spans. -/
theorem Text.outside_of_tile {α : Type} {source : String} {spans : List Span} {span : α → Span}
    {left : α → String} {parts : List α}
    (hparts : ∀ a ∈ parts,
      ((span a).Reads source (left a) ∧
        ∀ s ∈ spans, s.stop ≤ (span a).start ∨ (span a).stop ≤ s.start) ∨
      (left a = "" ∧ span a ∈ spans ∧ ∃ part, (span a).Reads source part))
    {before rest : String} (hsource : source = before ++ rest)
    (htile : Span.Tile before.utf8ByteSize (parts.map span) source.utf8ByteSize) :
    outside spans before.utf8ByteSize rest.toList = (String.join (parts.map left)).toList := by
  induction parts generalizing before rest with
  | nil =>
    have hend : before.utf8ByteSize = source.utf8ByteSize := htile
    rw [hsource, String.utf8ByteSize_append] at hend
    have hrest : rest = "" := String.utf8ByteSize_eq_zero_iff.1 (by omega)
    rw [hrest]
    rfl
  | cons a parts ih =>
    obtain ⟨ha, hparts⟩ := List.forall_mem_cons.1 hparts
    obtain ⟨hstart, -, htile⟩ := htile
    -- whether it is cut out or not, a part of the text stands in the span
    have hcut : ∃ part, (span a).Reads source part ∧
        outside spans before.utf8ByteSize part.toList = (left a).toList := by
      rcases ha with ⟨hreads, hbeside⟩ | ⟨hleft, hmem, part, hreads⟩
      · refine ⟨left a, hreads, outside_eq_self fun s hs => ?_⟩
        rw [byteLength_toList, ← hstart, ← hreads.stop_eq]
        exact hbeside s hs
      · refine ⟨part, hreads, ?_⟩
        rw [hleft]
        refine outside_eq_nil hmem (Nat.le_of_eq hstart) ?_
        rw [byteLength_toList, ← hstart, ← hreads.stop_eq]
    obtain ⟨part, ⟨before', after, hsplit, hspan⟩, hpart⟩ := hcut
    rw [hspan] at hstart htile
    have hbehind : before ++ rest = before' ++ (part ++ after) := by
      rw [← hsource, hsplit, String.append_assoc]
    obtain ⟨rfl, rfl⟩ := Span.eq_of_append_eq_append hbehind hstart.symm
    have hnext := ih hparts hsplit htile
    rw [String.utf8ByteSize_append] at hnext
    rw [String.toList_append, outside_append, hpart, byteLength_toList, hnext, List.map_cons,
      String.join_cons, String.toList_append]

/-! ### Nodes whose names have no values -/

namespace Node

/-- The node leaves nothing if its name has no value. -/
def vanishes : Node → Bool
  | text _ _ => false
  | value _ _ _ => false
  | block _ _ _ _ _ => true
  | inclusion _ _ => true

/-- What a node writes if its name has no value. -/
def leftover : Node → String
  | text content _ => content
  | value _ raw _ => raw
  | block _ _ _ _ _ => ""
  | inclusion _ _ => ""

/-- What is said about a node if its name has no value. -/
def undefined? : Node → Option Diagnostic
  | value name _ span => some ⟨.undefinedVariable, "Undefined variable: " ++ name, span⟩
  | _ => none

/-- What happens with a node if its name has no value. -/
def leftoverEvents : Node → List Event
  | text content _ => [.text content]
  | value name raw span => [.warning (.undefinedVariable name) span, .text raw]
  | block _ _ _ _ _ => []
  | inclusion _ _ => []

/-- The name that is looked up for a node. -/
def name? : Node → Option String
  | text _ _ => none
  | value name _ _ => some name
  | block _ name _ _ _ => some name
  | inclusion name _ => some name

/-- The name that is looked up for a node is that of a tag among the tokens. -/
lemma exists_tag_of_name? {start : Nat} {tokens : List Token} {nodes : List Node}
    (h : Node.readFrom start tokens = .ok nodes) {n : Node} (hn : n ∈ nodes) {name : String}
    (hname : n.name? = some name) : ∃ u, .tag u ∈ tokens ∧ u.name = name := by
  have hleaf := Node.fromTag_of_readFrom h n hn
  have hblock := Node.standsIn_of_readFrom h n hn
  cases n with
  | text content span => cases hname
  | value name raw span =>
    cases hname
    obtain ⟨u, hu, -, hname, -⟩ := hleaf
    exact ⟨u, hu, hname⟩
  | inclusion name span =>
    cases hname
    obtain ⟨u, hu, -, hname, -⟩ := hleaf
    exact ⟨u, hu, hname⟩
  | block kind name span inner body =>
    cases hname
    obtain ⟨before, opener, mid, closer, after, rfl, -, hname, -⟩ := hblock
    exact ⟨opener, by simp, hname⟩

lemma vanishes_eq_false_of_name? {n : Node} (h : n.name? = none) :
    n.vanishes = false ∧ n.undefined? = none := by
  cases n with
  | text content span => exact ⟨rfl, rfl⟩
  | value name raw span => cases h
  | block kind name span inner body => cases h
  | inclusion name span => cases h

/-- A node that stays is written as it stands in its span, and some part of the text stands in the
span of one that leaves nothing. -/
lemma stays_or_vanishes {source : String} {i start stop : Nat} {ts : List Token}
    {nodes : List Node} (h : Node.readFrom i ts = .ok nodes)
    (htile : Span.Tile start (ts.map Token.span) stop)
    (hreads : ∀ t ∈ ts, t.span.Reads source t.raw) {n : Node} (hn : n ∈ nodes) :
    (n.vanishes = false ∧ n.span.Reads source n.leftover) ∨
      (n.vanishes = true ∧ n.leftover = "" ∧ ∃ part, n.span.Reads source part) := by
  have hfaithful := (Node.covers_of_readFrom h htile hreads).faithful n hn
  cases n with
  | text content span => exact .inl ⟨rfl, hfaithful.2⟩
  | value name raw span => exact .inl ⟨rfl, hfaithful⟩
  | inclusion name span =>
    obtain ⟨u, hu, -, -, rfl⟩ := Node.fromTag_of_readFrom h _ hn
    exact .inr ⟨rfl, rfl, u.raw, hreads _ hu⟩
  | block kind name span inner body =>
    obtain ⟨before, opener, mid, closer, after, rfl, -, -, rfl, -, -, -, hbody, -⟩ :=
      Node.exists_tags_of_block h htile hreads hn
    have hopener : opener.span.Reads source opener.raw := hreads (.tag opener) (by simp)
    have hcloser : closer.span.Reads source closer.raw := hreads (.tag closer) (by simp)
    exact .inr ⟨rfl, rfl, hopener.exists_of_le hcloser hbody.le⟩

/-! ### What the events come to -/

/-- The run in which the nodes leave what they do without values. -/
def leftoverRun (nodes : List Node) : Run Unit := ⟨nodes.flatMap leftoverEvents, .done ()⟩

lemma output_leftoverRun (nodes : List Node) :
    (leftoverRun nodes).output = String.join (nodes.map leftover) := by
  unfold leftoverRun Run.output
  dsimp only
  induction nodes with
  | nil => rfl
  | cons n nodes ih =>
    rw [List.flatMap_cons, List.map_append, String.join_append, ih, List.map_cons, String.join_cons]
    cases n <;> simp [leftoverEvents, leftover, Event.written, String.join]

lemma diagnostics_leftoverRun (nodes : List Node) :
    (leftoverRun nodes).diagnostics = ⟨nodes.filterMap undefined?⟩ := by
  have main : (leftoverRun nodes).diagnostics.diagnostics = nodes.filterMap undefined? := by
    unfold leftoverRun Run.diagnostics
    dsimp only
    induction nodes with
    | nil => rfl
    | cons n nodes ih =>
      rw [List.flatMap_cons, List.filterMap_append, ih]
      cases n <;> rfl
  exact congrArg DiagnosticLog.mk main

lemma loads_leftoverRun (nodes : List Node) : (leftoverRun nodes).loads = [] := by
  unfold leftoverRun Run.loads
  rw [List.filterMap_flatMap]
  refine List.flatMap_eq_nil_iff.2 fun n _ => ?_
  cases n with
  | text content span => rfl
  | value name raw span => rfl
  | block kind name span inner body => rfl
  | inclusion name span => rfl

end Node

/-! ### Rendering without values -/

namespace Setting

variable (set : Setting) {scope : Scope}

/-- **A node whose name has no value.** A strict rendering would fail at a value. -/
lemma renderNode_of_unbound (f : List Node → TokenRange → Scope → Run Unit) {n : Node}
    (hunbound : ∀ name, n.name? = some name → scope.resolve name = none)
    (hquiet : set.options.strict = false ∨ n.undefined? = none) :
    set.renderNode f scope n = ⟨n.leftoverEvents, .done ()⟩ := by
  cases n with
  | text content span => rfl
  | inclusion name span => rfl
  | block kind name span inner body =>
    simp only [renderNode, hunbound name rfl]
    rfl
  | value name raw span =>
    have hlenient := hquiet.resolve_right (Option.some_ne_none _)
    simp only [renderNode, hunbound name rfl, warn, hlenient]
    rfl

/-- **Tokens whose names have no values.** Partials stay, since they have no values either, so the
nodes are those of the tokens as they are. -/
lemma renderAnew_of_unbound (depth : Nat) {ts : List Token} {nodes : List Node}
    (hnodes : Node.ofTokens ts = .ok nodes)
    (hunbound : ∀ u, .tag u ∈ ts → scope.resolve u.name = none)
    (hquiet : set.options.strict = false ∨ ∀ n ∈ nodes, n.undefined? = none) :
    set.renderAnew depth ts scope = Node.leftoverRun nodes := by
  have hexpand : set.expand scope ts = pure ts := by
    refine set.expandTo_of_unbound _ fun name hname => ?_
    obtain ⟨u, hu, -, rfl⟩ := Token.mem_partials.1 hname
    exact hunbound u hu
  have main : ∀ f : List Token → Scope → Run Unit,
      set.renderAnewWith f ts scope = Node.leftoverRun nodes := by
    intro f
    unfold renderAnewWith
    rw [hexpand, Run.pure_bind, hnodes]
    refine Run.forM_eq_of_done fun n hn => set.renderNode_of_unbound _ (fun name hname => ?_) ?_
    · obtain ⟨u, hu, rfl⟩ := Node.exists_tag_of_name? (Node.ofTokens_eq ts ▸ hnodes) hn hname
      exact hunbound u hu
    · exact hquiet.imp_right fun h => h n hn
  cases depth with
  | zero => exact main _
  | succ depth => exact main _

end Setting

namespace Template

variable {d : Delimiters} {source : String} {t : Template}

/-- **A template whose names have no values** is rendered node by node, with every grant. -/
theorem run_of_unbound (h : compileWith d source = .ok t) {context : Context}
    (hunbound : ∀ u, .tag u ∈ t.tokens → (Scope.root context).resolve u.name = none)
    (loader : Loader) {options : Options}
    (hquiet : options.strict = false ∨ ∀ n ∈ t.nodes, n.undefined? = none) (depth : Nat) :
    t.run context loader options depth = Node.leftoverRun t.nodes := by
  obtain ⟨-, htokens, hnodes⟩ := of_compileWith h
  rw [run_eq_renderAnew h, ← htokens]
  exact Setting.renderAnew_of_unbound _ depth hnodes hunbound hquiet

/-- **What the nodes leave is the text without the places of blocks and partials.** -/
lemma outside_eq (h : compileWith d source = .ok t) :
    Text.outside ((t.nodes.filter Node.vanishes).map Node.span) 0 source.toList =
      (String.join (t.nodes.map Node.leftover)).toList := by
  obtain ⟨-, htokens, hnodes⟩ := of_compileWith h
  rw [htokens, Node.ofTokens_eq] at hnodes
  have htile := Token.tile_ofText d 0 source
  have hreads : ∀ u ∈ Token.ofText d 0 source, u.span.Reads source u.raw :=
    fun u hu => Token.reads_of_mem_ofText hu
  have hcovers := Node.covers_of_readFrom hnodes htile hreads
  have hpairwise : t.nodes.Pairwise fun a b =>
      a.span.stop ≤ b.span.start ∨ b.span.stop ≤ a.span.start :=
    (List.pairwise_map.1 hcovers.tile.pairwise).imp .inl
  have hsymm : Std.Symm fun a b : Node =>
      a.span.stop ≤ b.span.start ∨ b.span.stop ≤ a.span.start := ⟨fun _ _ => Or.symm⟩
  refine Text.outside_of_tile (fun n hn => ?_) String.empty_append.symm hcovers.tile
  rcases Node.stays_or_vanishes hnodes htile hreads hn with
    ⟨hstays, hread⟩ | ⟨hvanishes, hleft, hread⟩
  · refine .inl ⟨hread, fun s hs => ?_⟩
    obtain ⟨m, hm, rfl⟩ := List.mem_map.1 hs
    obtain ⟨hm, hvanishes⟩ := List.mem_filter.1 hm
    refine hpairwise.forall hm hn ?_
    rintro rfl
    rw [hstays] at hvanishes
    cases hvanishes
  · exact .inr ⟨hleft, List.mem_map_of_mem (List.mem_filter.2 ⟨hn, hvanishes⟩), hread⟩

/-- What is reported of a template whose names have no values. -/
lemma report_of_unbound (h : compileWith d source = .ok t) {context : Context}
    (hunbound : ∀ u, .tag u ∈ t.tokens → (Scope.root context).resolve u.name = none)
    (loader : Loader) {options : Options}
    (hquiet : options.strict = false ∨ ∀ n ∈ t.nodes, n.undefined? = none) :
    t.report context loader options =
        .done ⟨String.ofList (Text.outside ((t.nodes.filter Node.vanishes).map Node.span) 0
          source.toList), ⟨t.nodes.filterMap Node.undefined?⟩⟩ ∧
      (t.run context loader options defaultDepth).loads = [] := by
  have hrun := run_of_unbound h hunbound loader hquiet defaultDepth
  rw [report, hrun, outside_eq h, String.ofList_toList, ← Node.output_leftoverRun,
    ← Node.diagnostics_leftoverRun]
  exact ⟨reportOf_eq_done_iff.2 ⟨rfl, rfl⟩, Node.loads_leftoverRun t.nodes⟩

/-- A text without tags can be read, and its nodes are plain text. -/
lemma exists_of_no_tags
    (h : ∀ (form : TagForm) (before after : List Char), form.WellFormed →
      source.toList ≠ before ++ form.write d ++ after) :
    ∃ t, compileWith d source = .ok t ∧ (∀ u, .tag u ∉ t.tokens) ∧
      ∀ n ∈ t.nodes, n.name? = none := by
  have hnone : ∀ u, .tag u ∉ Token.ofText d 0 source := by
    intro u hu
    obtain ⟨form, before, rest, hsource, hread, -⟩ := Token.exists_read?_of_tag_mem hu
    exact h form before rest (TagForm.read?_sound hread).1 (by rw [hsource, List.append_assoc])
  cases hn : Node.ofTokens (Token.ofText d 0 source) with
  | error e =>
    -- only an opening tag can be one too many
    exfalso
    cases hrun : Builder.empty.run 0 (Token.ofText d 0 source) with
    | ok b =>
      rw [Node.ofTokens, hrun] at hn
      cases hn
    | error e' =>
      obtain ⟨before, u, after, c, hsplit, -, hstep⟩ := Builder.exists_of_run_eq_error hrun
      obtain ⟨v, kind, rfl, -⟩ := Builder.step_eq_error_iff.1 hstep
      exact hnone v (by rw [hsplit]; simp)
  | ok nodes =>
    refine ⟨⟨d, source, Token.ofText d 0 source, nodes⟩, ?_, hnone, fun n hmem => ?_⟩
    · unfold compileWith
      simp only [hn]
      rfl
    · rw [Option.eq_none_iff_forall_ne_some]
      intro name hname
      obtain ⟨u, hu, -⟩ := Node.exists_tag_of_name? (Node.ofTokens_eq _ ▸ hn) hmem hname
      exact hnone u hu

/-- **What is left of a text if no name has a value.**

If none of the names of its tags has a value in the context, then a template is rendered, leniently,
into its text without the places of the blocks and partials that stand outside of all blocks. Each
value that stands outside of all blocks is warned about, in their order, and there are no other
warnings. Nothing is loaded. A text in which no tag is written can always be read, and comes back as
it is in every rendering.

**Proof sketch.** Without values no partial is put in, so the nodes of the template are rendered as
they are. Plain text and values leave what stands in their places, blocks and partials leave
nothing, and together the places make up the text. -/
theorem text_is_left_of_unbound_names (d : Delimiters) (source : String) :
    (∀ t, compileWith d source = .ok t → ∀ context : Context,
      (∀ u, .tag u ∈ t.tokens → (Scope.root context).resolve u.name = none) →
      ∀ (loader : Loader) (options : Options), options.strict = false →
        t.report context loader options =
          .done ⟨String.ofList (Text.outside ((t.nodes.filter Node.vanishes).map Node.span) 0
            source.toList), ⟨t.nodes.filterMap Node.undefined?⟩⟩ ∧
        (t.run context loader options defaultDepth).loads = []) ∧
    ((∀ (form : TagForm) (before after : List Char), form.WellFormed →
        source.toList ≠ before ++ form.write d ++ after) →
      ∃ t, compileWith d source = .ok t ∧
        ∀ (context : Context) (loader : Loader) (options : Options),
          t.report context loader options = .done ⟨source, .empty⟩ ∧
          (t.run context loader options defaultDepth).loads = []) := by
  constructor
  · exact fun t h context hunbound loader options hlenient =>
      report_of_unbound h hunbound loader (.inl hlenient)
  · intro hplain
    obtain ⟨t, h, htags, hnames⟩ := exists_of_no_tags hplain
    refine ⟨t, h, fun context loader options => ?_⟩
    have hvanishes : t.nodes.filter Node.vanishes = [] :=
      List.filter_eq_nil_iff.2 fun n hn => by
        simp [(Node.vanishes_eq_false_of_name? (hnames n hn)).1]
    have hundefined : ∀ n ∈ t.nodes, n.undefined? = none := fun n hn =>
      (Node.vanishes_eq_false_of_name? (hnames n hn)).2
    have hnone : t.nodes.filterMap Node.undefined? = [] :=
      List.filterMap_eq_nil_iff.2 hundefined
    have houtside : Text.outside [] 0 source.toList = source.toList :=
      Text.outside_eq_self (by simp)
    have hunbound : ∀ u, .tag u ∈ t.tokens → (Scope.root context).resolve u.name = none :=
      fun u hu => absurd hu (htags u)
    have hquiet : options.strict = false ∨ ∀ n ∈ t.nodes, n.undefined? = none := .inr hundefined
    have hreport := report_of_unbound h hunbound loader hquiet
    rw [hvanishes, hnone, List.map_nil, houtside, String.ofList_toList] at hreport
    exact hreport

/-- A case with a value, a closed block, a stray closing tag, a partial, and a block that never
closes around another value; and a text that is full of markers, but without tags. -/
theorem text_is_left_of_unbound_names_of_stray_tags :
    (∃ t, compileWith .standard "é{{x}}{{#b}}{{y}}{{/b}}{{/c}}{{>p}}{{#u}}{{z}}{{a b}}" = .ok t ∧
      ∀ loader, t.report (Context.ofList [("q", .scalar "1")]) loader {} =
        .done ⟨"é{{x}}{{/c}}{{#u}}{{z}}{{a b}}",
          ⟨[⟨.undefinedVariable, "Undefined variable: x", ⟨2, 7⟩⟩]⟩⟩) ∧
    ∃ t, compileWith .standard "{{ a b }}{{}}\x7b\x7b" = .ok t ∧ ∀ context loader options,
      t.report context loader options = .done ⟨"{{ a b }}{{}}\x7b\x7b", .empty⟩ := by
  constructor
  · obtain ⟨t, h⟩ := exists_of_isOk (show (compileWith .standard
      "é{{x}}{{#b}}{{y}}{{/b}}{{/c}}{{>p}}{{#u}}{{z}}{{a b}}").isOk = true by decide +kernel)
    refine ⟨t, h, fun loader => ?_⟩
    have hunbound : ∀ u, .tag u ∈ t.tokens →
        (Scope.root (Context.ofList [("q", .scalar "1")])).resolve u.name = none := by
      have hall : ∀ token ∈ Token.ofText .standard 0
          "é{{x}}{{#b}}{{y}}{{/b}}{{/c}}{{>p}}{{#u}}{{z}}{{a b}}", (match token with
            | .tag u => ((Scope.root (Context.ofList [("q", .scalar "1")])).resolve u.name).isNone
            | .text _ _ => true) = true := by
        decide +kernel
      rw [(of_compileWith h).2.1]
      exact fun u hu => Option.isNone_iff_eq_none.1 (hall _ hu)
    have hleft : (compileWith .standard
        "é{{x}}{{#b}}{{y}}{{/b}}{{/c}}{{>p}}{{#u}}{{z}}{{a b}}").toOption.map (fun t =>
          (Text.outside ((t.nodes.filter Node.vanishes).map Node.span) 0
            "é{{x}}{{#b}}{{y}}{{/b}}{{/c}}{{>p}}{{#u}}{{z}}{{a b}}".toList,
            t.nodes.filterMap Node.undefined?)) = some ("é{{x}}{{/c}}{{#u}}{{z}}{{a b}}".toList,
              [⟨.undefinedVariable, "Undefined variable: x", ⟨2, 7⟩⟩]) := by
      decide +kernel
    rw [h] at hleft
    obtain ⟨houtput, hdiagnostics⟩ := Prod.mk.inj (Option.some.inj hleft)
    have hreport := ((text_is_left_of_unbound_names .standard _).1 t h _ hunbound loader {} rfl).1
    rw [hreport, houtput, hdiagnostics, String.ofList_toList]
  · have hplain : ∀ (form : TagForm) (before after : List Char), form.WellFormed →
        "{{ a b }}{{}}\x7b\x7b".toList ≠ before ++ form.write .standard ++ after := by
      intro form before after hform hsource
      have hnone : ∀ n ∈ List.range 16,
          (TagForm.read? .standard ("{{ a b }}{{}}\x7b\x7b".toList.drop n)).isSome = false := by
        decide +kernel
      have hdrop : "{{ a b }}{{}}\x7b\x7b".toList.drop before.length =
          form.write .standard ++ after := by
        rw [hsource, List.append_assoc, List.drop_left]
      have hlength : before.length < 16 := by
        have := congrArg List.length hsource
        rw [List.append_assoc, List.length_append] at this
        have hfifteen : "{{ a b }}{{}}\x7b\x7b".toList.length = 15 := by decide +kernel
        omega
      have hread := TagForm.read?_isSome_of_wellFormed (d := .standard) hform after
      rw [← hdrop, hnone _ (List.mem_range.2 hlength)] at hread
      cases hread
    obtain ⟨t, h, hreport⟩ := (text_is_left_of_unbound_names .standard _).2 hplain
    exact ⟨t, h, fun context loader options => (hreport context loader options).1⟩

end Template

end Stencil
