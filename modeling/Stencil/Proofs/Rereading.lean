import Mathlib.Logic.Relation
import Stencil.Proofs.Calls

set_option relaxedAutoImplicit false
set_option autoImplicit false

/-!
# Rendering without stored nodes

The nodes of a template are read once, and a block without partials is rendered with the nodes
that it got then. A plainer renderer has no nodes at hand: in every block it puts in the partials
and pairs the tokens anew. Both leave the same trail and come to the same end.

## Main definitions

* `Stencil.Setting.renderAnew`, `Stencil.Template.runAnew` — the plainer renderer.
* `Stencil.Template.setting`, `Stencil.Template.entry` — what a rendering of a template starts from.

## Main results

* `Stencil.Setting.renderBlock_eq_renderAnew` — rendering a block with its nodes is rendering its
  tokens.
* `Stencil.Setting.readIn_of_reachable` — every block that is rendered has the nodes of its tokens.
* `Stencil.Template.run_eq_renderAnew` — rendering a template is rendering the tokens of its text.
* `Stencil.Template.run_eq_runAnew` — the plainer renderer does the same with a whole template.
-/

namespace Stencil

namespace Setting

/-- Renders tokens: their partials are put in, and their blocks are paired. Bodies are rendered by
`renderBody`, which gets their tokens. -/
def renderAnewWith (set : Setting) (renderBody : List Token → Scope → Run Unit)
    (tokens : List Token) (scope : Scope) : Run Unit := do
  let expanded ← set.expand scope tokens
  let nodes ← Run.ofExcept (Node.ofTokens expanded)
  nodes.forM (set.renderNode (fun _ inner => renderBody (inner.slice expanded)) scope)

/-- Renders tokens, where the tokens of every block are paired anew. Bodies of blocks may nest in
it to the given depth. -/
def renderAnew (set : Setting) : Nat → List Token → Scope → Run Unit
  | 0 => set.renderAnewWith fun _ _ => Run.exhausted
  | depth + 1 => set.renderAnewWith (set.renderAnew depth)

end Setting

namespace Template

/-- What is fixed during a rendering of the template. -/
def setting (t : Template) (loader : Loader) (options : Options) : Setting :=
  ⟨t.delimiters, loader, options⟩

/-- What the rendering of the whole template is given. -/
def entry (t : Template) (context : Context) : Call :=
  ⟨t.nodes, t.tokens, ⟨0, t.tokens.length⟩, Scope.root context⟩

/-- Renders the tokens of the template, where the tokens of every block are paired anew. -/
def runAnew (t : Template) (context : Context) (loader : Loader) (options : Options)
    (depth : Nat) : Run Unit :=
  (t.setting loader options).renderAnew depth t.tokens (Scope.root context)

/-- A run is reported if it has a result, with what it writes and its diagnostics. -/
lemma reportOf_eq_done_iff {r : Run Unit} {report : Report} :
    reportOf r = .done report ↔ r.outcome = .done () ∧ report = ⟨r.output, r.diagnostics⟩ := by
  unfold reportOf
  cases r.outcome with
  | done u => simp [Outcome.map, eq_comm]
  | failed e => simp [Outcome.map]
  | exhausted => simp [Outcome.map]

/-- A text that can be read has a template. -/
lemma exists_of_isOk {d : Delimiters} {source : String}
    (h : (compileWith d source).isOk = true) : ∃ t, compileWith d source = .ok t := by
  cases ht : compileWith d source with
  | ok t => exact ⟨t, rfl⟩
  | error e =>
    rw [ht] at h
    cases h

/-- A template that has been read has the tokens of its text, and their nodes. -/
lemma of_compileWith {d : Delimiters} {source : String} {t : Template}
    (h : compileWith d source = .ok t) : t.delimiters = d ∧ t.tokens = Token.ofText d 0 source ∧
      Node.ofTokens t.tokens = .ok t.nodes := by
  unfold compileWith at h
  cases hn : Node.ofTokens (Token.ofText d 0 source) with
  | error e =>
    simp only [hn] at h
    cases h
  | ok nodes =>
    simp only [hn] at h
    cases h
    exact ⟨rfl, rfl, hn⟩

/-- The nodes of a template that has been read are those of its tokens. -/
lemma readIn_of_compileWith {d : Delimiters} {source : String} {t : Template}
    (h : compileWith d source = .ok t) : Node.ReadIn ⟨0, t.tokens.length⟩ t.tokens t.nodes :=
  Node.readIn_all (of_compileWith h).2.2

end Template

namespace Setting

variable (set : Setting)

/-! ### One block -/

/-- A node is rendered in the same way if the bodies of blocks are. -/
lemma renderNode_congr {f g : List Node → TokenRange → Scope → Run Unit} {scope : Scope} {n : Node}
    (h : ∀ kind name span inner body s, n = .block kind name span inner body →
      f body inner s = g body inner s) :
    set.renderNode f scope n = set.renderNode g scope n := by
  cases n with
  | block kind name span inner body =>
    simp only [renderNode]
    cases scope.resolve name with
    | none => rfl
    | some value => exact Run.forM_congr fun s _ => h kind name span inner body s rfl
  | text content span => rfl
  | value name raw span => rfl
  | inclusion name span => rfl

/-- Positions further on make no difference to what is rendered beside the bodies. -/
lemma renderNode_shift (f : List Node → TokenRange → Scope → Run Unit) (scope : Scope) (k : Nat)
    (n : Node) : set.renderNode f scope (n.shift k) =
      set.renderNode (fun body inner => f (Node.shiftAll k body) (inner.shift k)) scope n := by
  cases n with
  | block kind name span inner body => rfl
  | text content span => rfl
  | value name raw span => rfl
  | inclusion name span => rfl

/-- **Nodes and the tokens in a range.** If bodies are rendered by their tokens, then the nodes that
were read in a range are rendered as those of its tokens are.

**Proof sketch.** The nodes are those of the tokens on their own, up to the positions of the tokens,
and a body has the same tokens in the range as among all. -/
lemma forM_renderNode_slice (g : List Token → Scope → Run Unit) {nodes nodes' : List Node}
    {tokens : List Token} {range : TokenRange} (hread : Node.ReadIn range tokens nodes)
    (hnodes : Node.ofTokens (range.slice tokens) = .ok nodes') (scope : Scope) :
    nodes.forM (set.renderNode (fun _ inner => g (inner.slice tokens)) scope) =
      nodes'.forM
        (set.renderNode (fun _ inner => g (inner.slice (range.slice tokens))) scope) := by
  have hshift := hread.map_shiftAll
  rw [hnodes] at hshift
  cases hshift
  rw [Node.shiftAll_eq_map, Run.forM_map]
  refine Run.forM_congr fun n hmem => ?_
  rw [renderNode_shift]
  refine set.renderNode_congr ?_
  rintro kind name span inner body s rfl
  rw [TokenRange.slice_shift ((Node.readIn_all hnodes).block hmem).1.within]

/-- **One block.** If the bodies of blocks are rendered as their tokens are, then so is the block.

**Proof sketch.** If there are partials, then both renderers read the nodes of the expanded tokens.
If there are none, then the expansion changes nothing, and the nodes that are read anew are those
at hand, up to the positions of the tokens. -/
lemma renderWith_eq_renderAnewWith {f : List Node → List Token → TokenRange → Scope → Run Unit}
    {g : List Token → Scope → Run Unit}
    (hfg : ∀ body tokens inner s, Node.ReadIn inner tokens body →
      f body tokens inner s = g (inner.slice tokens) s)
    {nodes : List Node} {tokens : List Token} {range : TokenRange}
    (hread : Node.ReadIn range tokens nodes) (scope : Scope) :
    set.renderWith f nodes tokens range scope =
      set.renderAnewWith g (range.slice tokens) scope := by
  have hbodies : ∀ {nodes : List Node} {tokens : List Token} {range : TokenRange},
      Node.ReadIn range tokens nodes →
        nodes.forM (set.renderNode (fun body inner => f body tokens inner) scope) =
          nodes.forM (set.renderNode (fun _ inner => g (inner.slice tokens)) scope) := by
    intro nodes tokens range hread
    refine Run.forM_congr fun n hmem => set.renderNode_congr ?_
    rintro kind name span inner body s rfl
    exact hfg body tokens inner s (hread.block hmem).1
  unfold renderWith renderAnewWith prepare
  split
  · rw [bind_assoc]
    refine Run.bind_congr_done fun expanded _ => ?_
    rw [bind_assoc]
    cases hn : Node.ofTokens expanded with
    | error e => rfl
    | ok nodes' => exact hbodies (Node.readIn_all hn)
  · next hany =>
    rw [set.expand_slice_of_plain hread hany, pure_bind, pure_bind]
    cases hn : Node.ofTokens (range.slice tokens) with
    | error e =>
      have hshift := hread.map_shiftAll
      rw [hn] at hshift
      cases hshift
    | ok nodes' =>
      exact (hbodies hread).trans (set.forM_renderNode_slice g hread hn scope)

/-- **Rendering a block with its nodes is rendering its tokens**, with every grant. -/
theorem renderBlock_eq_renderAnew (depth : Nat) {nodes : List Node} {tokens : List Token}
    {range : TokenRange} (hread : Node.ReadIn range tokens nodes) (scope : Scope) :
    set.renderBlock depth nodes tokens range scope =
      set.renderAnew depth (range.slice tokens) scope := by
  induction depth generalizing nodes tokens range scope with
  | zero =>
    exact set.renderWith_eq_renderAnewWith (f := fun _ _ _ _ => Run.exhausted)
      (g := fun _ _ => Run.exhausted) (fun _ _ _ _ _ => rfl) hread scope
  | succ depth ih =>
    exact set.renderWith_eq_renderAnewWith (fun _ _ _ s h => ih h s) hread scope

/-- Every block that is rendered has the nodes of its tokens, if the first one has. -/
lemma readIn_of_reachable {c c' : Call} (hc : Node.ReadIn c.range c.tokens c.nodes)
    (h : Relation.ReflTransGen set.Calls c c') : Node.ReadIn c'.range c'.tokens c'.nodes := by
  induction h with
  | refl => exact hc
  | tail _ hcall ih => exact (hcall.body ih).1

end Setting

/-! ### Whole templates -/

/-- The rendering of a template that has been read is that of the tokens of its text. -/
lemma Template.run_eq_renderAnew {d : Delimiters} {source : String} {t : Template}
    (h : Template.compileWith d source = .ok t) (context : Context) (loader : Loader)
    (options : Options) (depth : Nat) :
    t.run context loader options depth =
      (⟨d, loader, options⟩ : Setting).renderAnew depth (Token.ofText d 0 source)
        (Scope.root context) := by
  obtain ⟨hd, htokens, -⟩ := Template.of_compileWith h
  have hrun := (⟨d, loader, options⟩ : Setting).renderBlock_eq_renderAnew depth
    (Template.readIn_of_compileWith h) (Scope.root context)
  rw [TokenRange.slice_all] at hrun
  rw [← htokens, ← hrun, ← hd]
  rfl

/-- **A template is rendered as if nothing had been read before.**

Every block that is rendered on the way has a range inside its tokens, and its nodes are those of
the tokens in this range, with all positions moved up by the start of the range. Therefore the
rendering leaves the same trail and comes to the same end as the plainer renderer, which puts in
the partials and pairs the tokens in every block anew. -/
theorem Template.run_eq_runAnew {d : Delimiters} {source : String} {t : Template}
    (h : Template.compileWith d source = .ok t) (context : Context) (loader : Loader)
    (options : Options) :
    (∀ c, Relation.ReflTransGen (t.setting loader options).Calls (t.entry context) c →
      c.range.start ≤ c.range.stop ∧ c.range.stop ≤ c.tokens.length ∧
      (Node.ofTokens (c.range.slice c.tokens)).map (Node.shiftAll c.range.start) = .ok c.nodes) ∧
    ∀ depth, t.run context loader options depth = t.runAnew context loader options depth := by
  have hread := Template.readIn_of_compileWith h
  constructor
  · intro c hc
    have hcread := (t.setting loader options).readIn_of_reachable (c := t.entry context) hread hc
    exact ⟨hcread.within.start_le_stop, hcread.within.stop_le_length, hcread.map_shiftAll⟩
  · intro depth
    have := (t.setting loader options).renderBlock_eq_renderAnew depth hread (Scope.root context)
    rwa [TokenRange.slice_all] at this

/-- A case where the partial ends the block around it in each of its rounds, and opens it again. -/
theorem Template.run_eq_runAnew_of_closing_partial :
    ∃ t, Template.compileWith .standard "{{#a}}{{>p}}{{/b}}{{/a}}" = .ok t ∧
      let context := Context.ofList
        [("a", .list [Context.empty, Context.empty]), ("p", .inline "x{{/a}}{{#a}}")]
      let loader : Loader := ⟨fun id => .error (.notFound id)⟩
      (∀ c, Relation.ReflTransGen (t.setting loader {}).Calls (t.entry context) c →
        c.range.start ≤ c.range.stop ∧ c.range.stop ≤ c.tokens.length ∧
        (Node.ofTokens (c.range.slice c.tokens)).map (Node.shiftAll c.range.start) =
          .ok c.nodes) ∧
      ∀ depth, t.run context loader {} depth = t.runAnew context loader {} depth := by
  obtain ⟨t, ht⟩ := Template.exists_of_isOk
    (show (Template.compileWith .standard "{{#a}}{{>p}}{{/b}}{{/a}}").isOk = true by decide +kernel)
  exact ⟨t, ht, Template.run_eq_runAnew ht _ _ _⟩

end Stencil
