import Stencil.Proofs.Excerpts
import Stencil.Proofs.Names
import Stencil.Proofs.Places
import Stencil.Proofs.Tiling

set_option relaxedAutoImplicit false
set_option autoImplicit false

/-!
# Bodies of blocks as templates

The body of a block is rendered in a scope, where a context may lie over the one of the template. It
is rendered in the same way as a template of its own would be, with the text between the two tags
and with a context that holds the values of both: what the context inside has comes first, and what
it does not have comes from the one around it. So a template that is a single block comes to a
sequence of renderings of its body.

## Main definitions

* `Stencil.Context.overlay` — a context with the entries of another one put over its own.
* `Stencil.Context.bodies` — the contexts with which the body of a block is rendered.

## Main results

* `Stencil.Context.get?_overlay` — keys in both contexts have the value of the one on top.
* `Stencil.Template.exists_body_of_single_block` — the tokens of a text that is a single block.
* `Stencil.Template.run_succ_alike` — a block is rendered as its body is, one level further up.
* `Stencil.Template.block_renders_like_body` — what this means for the results.
-/

namespace Stencil

/-! ### Contexts laid over each other -/

/-- The context with the entries of another one put over its own. Of several entries with the same
key the first one counts, as it does when the key is looked up. -/
def Context.overlay (base top : Context) : Context :=
  top.entries.foldr (fun entry c => c.insert entry.1 entry.2) base

/-- **Keys have the value of the context on top**, and if it has none, that of the other one. -/
theorem Context.get?_overlay (base top : Context) (key : String) :
    (base.overlay top).get? key = (top.get? key).or (base.get? key) := by
  obtain ⟨entries⟩ := top
  unfold overlay
  simp only [Context.entries]
  induction entries with
  | nil => rfl
  | cons entry entries ih =>
    obtain ⟨k, v⟩ := entry
    rw [List.foldr_cons, Context.get?_insert, ih]
    simp only [Context.get?, Context.entries, List.lookup_cons]
    by_cases hk : key = k
    · simp [hk]
    · simp [hk, beq_eq_false_iff_ne.2 hk]

/-- The contexts with which the body of a block with the given value is rendered. -/
def Value.contexts (context : Context) : BlockKind → Value → List Context
  | .plain, .list items => items.map context.overlay
  | .plain, .map top => [context.overlay top]
  | .plain, value => if value.isTruthy then [context] else []
  | .inverted, value => if value.isTruthy then [] else [context]

/-- The contexts with which the body of a block of the given name is rendered. There are none if the
name has no value. -/
def Context.bodies (context : Context) (kind : BlockKind) (name : String) : List Context :=
  match (Scope.root context).resolve name with
  | some value => value.contexts context kind
  | none => []

lemma Scope.root_overlay_alike (context top : Context) :
    ((root context).overlay top).Alike (root (context.overlay top)) := by
  intro key
  rw [get?_overlay]
  unfold root get?
  simp only [List.findSome?_cons, List.findSome?_nil, Context.get?_overlay]
  cases top.get? key <;> cases context.get? key <;> rfl

/-- The scopes of a body have the values of these contexts. -/
lemma Value.scopes_alike_contexts (context : Context) (kind : BlockKind) (value : Value) :
    List.Forall₂ (fun s c => s.Alike (Scope.root c)) (value.scopes (Scope.root context) kind)
      (value.contexts context kind) := by
  have one : List.Forall₂ (fun (s : Scope) c => s.Alike (Scope.root c)) [Scope.root context]
      [context] := .cons (.refl _) .nil
  cases kind with
  | inverted =>
    rw [Value.scopes_inverted]
    have hcontexts : value.contexts context .inverted =
        if value.isTruthy then [] else [context] := by
      cases value <;> rfl
    rw [hcontexts]
    split
    · exact .nil
    · exact one
  | plain =>
    cases value with
    | list items =>
      refine List.forall₂_map_left_iff.2 (List.forall₂_map_right_iff.2 ?_)
      exact List.forall₂_same.2 fun top _ => Scope.root_overlay_alike context top
    | map top => exact .cons (Scope.root_overlay_alike context top) .nil
    | bool b =>
      cases b with
      | true => exact one
      | false => exact .nil
    | scalar text => exact one
    | inline text => exact one
    | resource id => exact one

/-! ### The tokens of a single block -/

namespace Template

variable {d : Delimiters} {source : String} {t : Template} {kind : BlockKind} {name : String}
  {span : Span} {inner : TokenRange} {nodes : List Node}

/-- **The tokens of a text that is a single block**: its two tags are the first and the last one,
and its nodes lie side by side between them. -/
lemma exists_body_of_single_block (h : compileWith d source = .ok t)
    (hnodes : t.nodes = [.block kind name span inner nodes]) : ∃ opener mid closer,
      Token.ofText d 0 source = .tag opener :: (mid ++ [.tag closer]) ∧
      opener.role = .opens kind ∧ closer.role = .closes ∧ inner = ⟨1, 1 + mid.length⟩ ∧
      Node.readFrom 1 mid = .ok nodes ∧ opener.span.start = 0 ∧
      closer.span.stop = source.utf8ByteSize ∧
      Span.Tile opener.span.stop (nodes.map Node.span) closer.span.start := by
  obtain ⟨-, htokens, hread⟩ := of_compileWith h
  rw [htokens, Node.ofTokens_eq] at hread
  have htile := Token.tile_ofText d 0 source
  have hreads : ∀ u ∈ Token.ofText d 0 source, u.span.Reads source u.raw :=
    fun u hu => Token.reads_of_mem_ofText hu
  have hwhole := (Node.covers_of_readFrom hread htile hreads).tile
  rw [hnodes] at hread hwhole
  obtain ⟨before, opener, mid, closer, after, hsplit, ⟨hok, -⟩, ⟨hck, -⟩, rfl, rfl, hmid, hbefore,
    hbody, hafter⟩ := Node.exists_tags_of_block hread htile hreads List.mem_cons_self
  -- nothing stands outside of the block
  obtain ⟨hstart, -, hstop⟩ : opener.span.start = 0 ∧ opener.span.start < closer.span.stop ∧
      closer.span.stop = source.utf8ByteSize := by
    simpa only [List.map_cons, List.map_nil, Node.span, Span.tile_cons, Span.tile_nil] using hwhole
  rw [hstart] at hbefore
  rw [hstop] at hafter
  obtain rfl := List.map_eq_nil_iff.1 hbefore.eq_nil
  obtain rfl := List.map_eq_nil_iff.1 hafter.eq_nil
  exact ⟨opener, mid, closer, hsplit, hok, hck, rfl, hmid, hstart, hstop, hbody⟩

/-- The text between the tags is that of the body. -/
lemma join_raw_of_tile {openTag body closeTag : String} {opener closer : Tag} {mid : List Token}
    (hsplit : Token.ofText d 0 (openTag ++ body ++ closeTag) =
      .tag opener :: (mid ++ [.tag closer]))
    (hstart : opener.span.start = 0)
    (hstop : closer.span.stop = (openTag ++ body ++ closeTag).utf8ByteSize)
    (hnodes : Span.Tile opener.span.stop (nodes.map Node.span) closer.span.start)
    (hbody : Span.Tile openTag.utf8ByteSize (nodes.map Node.span)
      (openTag ++ body).utf8ByteSize) : String.join (mid.map Token.raw) = body := by
  have htext := Token.join_raw_ofText d 0 (openTag ++ body ++ closeTag)
  have hreads : ∀ u ∈ Token.ofText d 0 (openTag ++ body ++ closeTag),
      u.span.Reads (openTag ++ body ++ closeTag) u.raw := fun u hu => Token.reads_of_mem_ofText hu
  rw [hsplit] at htext hreads
  have hopener : opener.span.stop = opener.span.start + opener.raw.utf8ByteSize :=
    (hreads (.tag opener) List.mem_cons_self).stop_eq
  have hcloser : closer.span.stop = closer.span.start + closer.raw.utf8ByteSize :=
    (hreads (.tag closer) (by simp)).stop_eq
  rw [List.map_cons, List.map_append, String.join_cons, String.join_append] at htext
  change opener.raw ++ (String.join (mid.map Token.raw) ++ String.join [closer.raw]) = _ at htext
  rw [String.join_cons, String.join_nil, String.append_empty, ← String.append_assoc] at htext
  have hsize := congrArg String.utf8ByteSize htext
  simp only [String.utf8ByteSize_append] at hsize hstop hbody
  by_cases hne : nodes = []
  · subst hne
    have hempty : body.utf8ByteSize = 0 := by
      have : openTag.utf8ByteSize = openTag.utf8ByteSize + body.utf8ByteSize := hbody
      omega
    have hjoin : (String.join (mid.map Token.raw)).utf8ByteSize = 0 := by
      have : opener.span.stop = closer.span.start := hnodes
      omega
    rw [String.utf8ByteSize_eq_zero_iff.1 hempty, String.utf8ByteSize_eq_zero_iff.1 hjoin]
  · obtain ⟨hfirst, hlast⟩ :=
      Span.Tile.ends_eq (fun h => hne (List.map_eq_nil_iff.1 h)) hnodes hbody
    obtain ⟨hfront, -⟩ := Span.eq_of_append_eq_append htext (by
      simp only [String.utf8ByteSize_append]
      omega)
    exact (Span.eq_of_append_eq_append hfront (by omega)).2

/-! ### Rendering a single block -/

/-- Tokens with the letters of tokens that can be read can be read. -/
lemma exists_of_letters_eq {i : Nat} {body : String} {mid : List Token}
    (hmid : Node.readFrom i mid = .ok nodes)
    (hletters : Token.letters (Token.ofText d 0 body) = Token.letters mid) :
    ∃ t, compileWith d body = .ok t := by
  rw [← Nat.zero_add i, Node.readFrom_add] at hmid
  rcases Node.ofTokens_lettered hletters with ⟨nodes', -, hbody, -, -⟩ | ⟨e, -, he⟩
  · exact ⟨_, by rw [compileWith, hbody]; rfl⟩
  · rw [← Node.ofTokens_eq, he] at hmid
    cases hmid

/-- **A block is rendered as its body is, one level further up.** -/
theorem run_succ_alike {body : String} {b : Template} {mid : List Token} {opener closer : Tag}
    {context : Context} (h : compileWith d source = .ok t) (hb : compileWith d body = .ok b)
    (hnodes : t.nodes = [.block kind name span ⟨1, 1 + mid.length⟩ nodes])
    (hsplit : Token.ofText d 0 source = .tag opener :: (mid ++ [.tag closer]))
    (hok : opener.role = .opens kind) (hck : closer.role = .closes)
    (hletters : Token.letters (Token.ofText d 0 body) = Token.letters mid)
    (hpartials : ∀ p ∈ Token.partials (Token.ofText d 0 body),
      (Scope.root context).resolve p = none) (loader : Loader) (options : Options) (depth : Nat) :
    Run.Alike Eq (t.run context loader options (depth + 1))
      ((context.bodies kind name).forM fun c => b.run c loader options depth) := by
  have hpartials' : Token.partials (Token.ofText d 0 source) =
      Token.partials (Token.ofText d 0 body) := by
    rw [Token.partials_eq_of_letters hletters, hsplit]
    simp [Token.partials, Token.partial?, hok, hck]
  obtain ⟨-, htokens, hread⟩ := of_compileWith h
  rw [htokens, hnodes] at hread
  have hbetween : Token.ofText d 0 source = [.tag opener] ++ (mid ++ [.tag closer]) := hsplit
  have hslice : (⟨1, 1 + mid.length⟩ : TokenRange).slice (Token.ofText d 0 source) = mid :=
    (TokenRange.between hbetween rfl rfl).2
  have hrun : t.run context loader options (depth + 1) =
      (⟨d, loader, options⟩ : Setting).renderNode (fun _ inner =>
        (⟨d, loader, options⟩ : Setting).renderAnew depth
          (inner.slice (Token.ofText d 0 source))) (Scope.root context)
        (.block kind name span ⟨1, 1 + mid.length⟩ nodes) := by
    rw [run_eq_renderAnew h, Setting.renderAnew, Setting.renderAnewWith_eq, Setting.expand,
      Setting.expandTo_of_unbound _ _ (hpartials' ▸ hpartials), Run.pure_bind,
      Setting.renderExpandedWith, hread]
    exact Run.bind_pure _
  rw [hrun]
  simp only [Setting.renderNode, Context.bodies, hslice]
  cases (Scope.root context).resolve name with
  | none => exact .refl _
  | some value =>
    refine .forM (value.scopes_alike_contexts context kind) fun s c hs => ?_
    rw [run_eq_renderAnew hb]
    exact Setting.renderAnew_alike _ hs depth hletters.symm

/-- **A block renders like its body as a template of its own.**

Let a text be a single block whose body is read from the text between the first and the last tag,
and let no partial of that text have a value in the context. Then the text between the tags is a
template as well. To render the block is to render this template in sequence, once for each context
that the value of the block calls for: for each item of a list laid over the context, for a context
laid over it, for the context itself if the value is anything else that is not false, and for none
if the value is false or missing; an inverted block calls for the context itself if there is a value
and it is false. Whatever the depths that both are granted, if they come to an end, then in the same
way, and they write the same, load the same and give the same diagnostics, apart from places. What
is written is the concatenation of what these renderings write, if none of them fails.

**Proof sketch.** The tokens between the two tags have the letters of the body, and the scopes in
which they are rendered have the values of these contexts. Both renderings are as they are with
every greater depth, and with one level more for the block they are equal apart from places. -/
theorem block_renders_like_body {openTag body closeTag : String} {context : Context}
    (h : compileWith d (openTag ++ body ++ closeTag) = .ok t)
    (hnodes : t.nodes = [.block kind name span inner nodes])
    (hbody : Span.Tile openTag.utf8ByteSize (nodes.map Node.span) (openTag ++ body).utf8ByteSize)
    (hpartials : ∀ p ∈ Token.partials (Token.ofText d 0 body),
      (Scope.root context).resolve p = none) :
    ∃ b, compileWith d body = .ok b ∧
      ∀ (loader : Loader) (options : Options) (depth depth' : Nat),
        let whole := t.run context loader options depth
        let parts := (context.bodies kind name).forM fun c => b.run c loader options depth'
        whole.outcome ≠ .exhausted → parts.outcome ≠ .exhausted →
          whole.outcome = parts.outcome ∧ whole.output = parts.output ∧
          whole.loads = parts.loads ∧
          whole.diagnostics.diagnostics.map (fun x => (x.code, x.message)) =
            parts.diagnostics.diagnostics.map (fun x => (x.code, x.message)) ∧
          ((∀ c ∈ context.bodies kind name, (b.run c loader options depth').outcome = .done ()) →
            whole.output = String.join ((context.bodies kind name).map fun c =>
              (b.run c loader options depth').output)) := by
  obtain ⟨opener, mid, closer, hsplit, hok, hck, rfl, hmid, hstart, hstop, htile⟩ :=
    exists_body_of_single_block h hnodes
  have hletters : Token.letters (Token.ofText d 0 body) = Token.letters mid := by
    have hbetween : Token.ofText d 0 (openTag ++ body ++ closeTag) =
        [.tag opener] ++ (mid ++ [.tag closer]) := hsplit
    rw [← join_raw_of_tile hsplit hstart hstop htile hbody]
    exact Token.letters_ofText_excerpt hbetween
  obtain ⟨b, hb⟩ := exists_of_letters_eq hmid hletters
  refine ⟨b, hb, ?_⟩
  intro loader options depth depth' whole parts hwhole hparts
  have hle := run_succ_alike h hb hnodes hsplit hok hck hletters hpartials loader options
    (depth + depth')
  have hwhole' : t.run context loader options (depth + depth' + 1) = whole :=
    Call.run_below_of_le (t.setting loader options)
      (show depth ≤ depth + depth' + 1 by omega) (t.entry context) hwhole
  have hparts' : ((context.bodies kind name).forM fun c =>
      b.run c loader options (depth + depth')) = parts := by
    refine Run.Below.forM (fun c => ?_) (context.bodies kind name) hparts
    exact Call.run_below_of_le (b.setting loader options)
      (show depth' ≤ depth + depth' by omega) (b.entry c)
  rw [hwhole', hparts'] at hle
  refine ⟨hle.outcome.eq, hle.output_eq, hle.loads_eq, ?_, fun hdone => ?_⟩
  · rw [Run.diagnostics_map_eq, Run.diagnostics_map_eq, hle.warnings_eq]
  · rw [hle.output_eq]
    exact Run.output_forM hdone

/-- A case where the body holds a closing tag of nothing, a path, and a partial that only one of the
items has a text for. -/
theorem block_renders_like_body_of_items :
    let t : Template := ⟨.standard, "{{#l}}{{/q}}{{a.b}}{{>p}}{{/l}}",
      [.tag ⟨.opens .plain, "l", "{{#l}}", ⟨0, 6⟩, 0⟩, .tag ⟨.closes, "q", "{{/q}}", ⟨6, 12⟩, 0⟩,
        .tag ⟨.value, "a.b", "{{a.b}}", ⟨12, 19⟩, 0⟩, .tag ⟨.includes, "p", "{{>p}}", ⟨19, 25⟩, 0⟩,
        .tag ⟨.closes, "l", "{{/l}}", ⟨25, 31⟩, 0⟩],
      [.block .plain "l" ⟨0, 31⟩ ⟨1, 4⟩ [.text "{{/q}}" ⟨6, 12⟩, .value "a.b" "{{a.b}}" ⟨12, 19⟩,
        .inclusion "p" ⟨19, 25⟩]]⟩
    let context := Context.ofList [("a", .map (.ofList [("b", .scalar "0")])),
      ("l", .list [.ofList [("p", .inline "{{c}}")], .ofList [("a", .scalar "1")]])]
    compileWith .standard "{{#l}}{{/q}}{{a.b}}{{>p}}{{/l}}" = .ok t ∧
      ∃ b, compileWith .standard "{{/q}}{{a.b}}{{>p}}" = .ok b ∧
        (t.run context Loader.empty {} 1).outcome = .done () ∧
        (t.run context Loader.empty {} 1).output =
          ((context.bodies .plain "l").forM fun c => b.run c Loader.empty {} 0).output ∧
        (t.run context Loader.empty {} 1).output = "{{/q}}0{{c}}{{/q}}{{a.b}}" := by
  intro t context
  have htokens : Token.ofText .standard 0 "{{#l}}{{/q}}{{a.b}}{{>p}}{{/l}}" = t.tokens := by
    decide +kernel +zetaReduce
  have hcompile : compileWith .standard "{{#l}}{{/q}}{{a.b}}{{>p}}{{/l}}" = .ok t := by
    unfold compileWith
    rw [htokens]
    rfl
  have hsource : "{{#l}}{{/q}}{{a.b}}{{>p}}{{/l}}" =
      "{{#l}}" ++ "{{/q}}{{a.b}}{{>p}}" ++ "{{/l}}" := by
    decide +kernel
  have hpartials : ∀ p ∈ Token.partials (Token.ofText .standard 0 "{{/q}}{{a.b}}{{>p}}"),
      (Scope.root context).resolve p = none := by
    have hp : Token.partials (Token.ofText .standard 0 "{{/q}}{{a.b}}{{>p}}") = ["p"] := by
      decide +kernel
    rw [hp]
    exact List.forall_mem_singleton.2 rfl
  have h := hcompile
  rw [hsource] at h
  have hbody : Span.Tile "{{#l}}".utf8ByteSize
      [⟨6, 12⟩, ⟨12, 19⟩, ⟨19, 25⟩] ("{{#l}}" ++ "{{/q}}{{a.b}}{{>p}}").utf8ByteSize := by
    rw [show "{{#l}}".utf8ByteSize = 6 by decide +kernel,
      show ("{{#l}}" ++ "{{/q}}{{a.b}}{{>p}}").utf8ByteSize = 25 by decide +kernel]
    exact ⟨rfl, by decide, rfl, by decide, rfl, by decide, rfl⟩
  obtain ⟨b, hb, hlike⟩ := block_renders_like_body h rfl hbody hpartials
  have hparts : ((context.bodies .plain "l").forM fun c => b.run c Loader.empty {} 0) =
      (context.bodies .plain "l").forM fun c => (⟨.standard, Loader.empty, {}⟩ : Setting).renderAnew
        0 (Token.ofText .standard 0 "{{/q}}{{a.b}}{{>p}}") (Scope.root c) :=
    Run.forM_congr fun c _ => run_eq_renderAnew hb c _ _ _
  have hwhole : (t.run context Loader.empty {} 1).outcome = .done () :=
    Outcome.eq_done_of_isDone (by decide +kernel +zetaReduce)
  have hdone : ((context.bodies .plain "l").forM fun c =>
      b.run c Loader.empty {} 0).outcome = .done () := by
    rw [hparts]
    exact Outcome.eq_done_of_isDone (by decide +kernel +zetaReduce)
  have hout : (t.run context Loader.empty {} 1).output = "{{/q}}0{{c}}{{/q}}{{a.b}}" := by
    decide +kernel +zetaReduce
  refine ⟨hcompile, b, hb, hwhole, (hlike Loader.empty {} 1 0 ?_ ?_).2.1, hout⟩
  · rw [hwhole]
    simp
  · rw [hdone]
    simp

end Template

end Stencil
