import Stencil.Proofs.BlockPairs
import Stencil.Proofs.Origins
import Stencil.Proofs.Termination

set_option relaxedAutoImplicit false
set_option autoImplicit false

/-!
# How deep bodies nest

The limit for blocks inside one another is kept by each reading of tokens. When a partial gets its
value in the body of a block, the body is read anew and the limit starts again there. So bodies nest
no deeper than the limit once, and once more for each body on the way whose partials get their
values so late.

## Main definitions

* `Stencil.Node.height` — how deep blocks nest in a node.
* `Stencil.Call.Expands` — a partial of a block gets its value there.
* `Stencil.Setting.Nest` — how deep a block is nested, and how many blocks on the way expand.

## Main results

* `Stencil.Node.heightAll_le_of_readFrom` — a reading keeps the limit.
* `Stencil.Setting.Nest.bounded` — how deep bodies nest.
* `Stencil.Setting.exists_nest_of_exhausted` — a grant that is too small shows a deeper nest.
* `Stencil.Setting.exists_nestingTooDeep_iff` — when a rendering fails since blocks nest too deep.
* `Stencil.Template.bodies_nest_within_limits` — all this for a template.
* `Stencil.Template.bodies_nest_beyond_limit` — a rendering that goes beyond the limit.
-/

namespace Stencil

/-! ### The height of nodes -/

mutual

/-- How many blocks lie inside one another in the node, itself included. -/
def Node.height : Node → Nat
  | .block _ _ _ _ body => Node.heightAll body + 1
  | .text _ _ | .value _ _ _ | .inclusion _ _ => 0

/-- How many blocks lie inside one another in the nodes. -/
def Node.heightAll : List Node → Nat
  | [] => 0
  | n :: ns => max n.height (Node.heightAll ns)

end

lemma Node.heightAll_le_iff {nodes : List Node} {h : Nat} :
    Node.heightAll nodes ≤ h ↔ ∀ n ∈ nodes, n.height ≤ h := by
  induction nodes with
  | nil => simp [Node.heightAll]
  | cons n ns ih => rw [Node.heightAll, Nat.max_le, ih, List.forall_mem_cons]

mutual

/-- Positions make no difference to how deep blocks nest. -/
lemma Node.height_shift (k : Nat) : ∀ n : Node, (n.shift k).height = n.height
  | .block _ _ _ _ body => congrArg (· + 1) (Node.heightAll_shiftAll k body)
  | .text _ _ | .value _ _ _ | .inclusion _ _ => rfl

lemma Node.heightAll_shiftAll (k : Nat) :
    ∀ nodes : List Node, Node.heightAll (Node.shiftAll k nodes) = Node.heightAll nodes
  | [] => rfl
  | n :: ns => congrArg₂ max (Node.height_shift k n) (Node.heightAll_shiftAll k ns)

end

/-! ### Reading within the limit -/

/-- The nodes of each open block leave room for the block and for those around it. -/
def Frame.Fit : List Frame → Prop
  | [] => True
  | f :: rest =>
    rest.length < maxBlockDepth ∧ (∀ n ∈ f.nodes, n.height + rest.length < maxBlockDepth) ∧
      Frame.Fit rest

/-- The blocks outside the limit have no room. -/
lemma Frame.Fit.length_le {frames : List Frame} (h : Frame.Fit frames) :
    frames.length ≤ maxBlockDepth := by
  cases frames with
  | nil => exact Nat.zero_le _
  | cons f rest => exact h.1

/-- What is inside an open block leaves room for it. -/
lemma Frame.Fit.append {gone rest : List Frame} (h : Frame.Fit (gone ++ rest)) :
    Frame.Fit rest ∧
      ∀ g ∈ gone, ∀ n ∈ g.nodes, n.height + rest.length < maxBlockDepth := by
  induction gone with
  | nil => exact ⟨h, by simp⟩
  | cons g gone ih =>
    rw [List.cons_append] at h
    obtain ⟨-, hnodes, hgone⟩ := h
    obtain ⟨hrest, hother⟩ := ih hgone
    refine ⟨hrest, List.forall_mem_cons.2 ⟨fun n hn => ?_, hother⟩⟩
    have := hnodes n hn
    rw [List.length_append] at this
    omega

namespace Builder

/-- All nodes read so far leave room for the blocks around them. -/
structure Fits (b : Builder) : Prop where
  root : ∀ n ∈ b.root, n.height ≤ maxBlockDepth
  frames : Frame.Fit b.frames

namespace Fits

variable {b c : Builder}

lemma empty : Builder.empty.Fits := ⟨by simp [Builder.empty], trivial⟩

lemma push (hb : b.Fits) {n : Node} (hn : n.height + b.frames.length ≤ maxBlockDepth) :
    (b.push n).Fits := by
  obtain ⟨root, frames⟩ := b
  cases frames with
  | nil =>
    refine ⟨?_, trivial⟩
    exact Node.forall_push (P := fun n => n.height ≤ maxBlockDepth) (fun _ _ => Nat.zero_le _)
      hb.root hn
  | cons f rest =>
    obtain ⟨hlt, hnodes, hrest⟩ := hb.frames
    refine ⟨hb.root, hlt, ?_, hrest⟩
    refine Node.forall_push (P := fun n => n.height + rest.length < maxBlockDepth)
      (fun _ _ => ?_) hnodes hn
    rwa [Node.height, Nat.zero_add]

/-- A block that is closed leaves room for those around it. -/
lemma height_closed {gone rest : List Frame} {f : Frame}
    (h : Frame.Fit (gone ++ f :: rest)) :
    Node.heightAll (⟨f.nodes, gone⟩ : Builder).finish + 1 + rest.length ≤ maxBlockDepth := by
  obtain ⟨⟨hlt, hnodes, -⟩, hgone⟩ := h.append
  have hall : (⟨f.nodes, gone⟩ : Builder).All fun n => n.height + rest.length < maxBlockDepth := by
    refine ⟨hnodes, fun g hg n hn => ?_⟩
    have := hgone g hg n hn
    rw [List.length_cons] at this
    omega
  have hheight : Node.heightAll (⟨f.nodes, gone⟩ : Builder).finish ≤
      maxBlockDepth - (rest.length + 1) := by
    refine Node.heightAll_le_iff.2 fun n hn => ?_
    have := hall.finish (fun _ _ => by rwa [Node.height, Nat.zero_add]) n hn
    omega
  omega

/-- **A step keeps the limit.** -/
lemma step (hb : b.Fits) {i : Nat} {t : Token} (h : b.Reads i t c) : c.Fits := by
  have htext : ∀ {n : Node}, n.height = 0 → (b.push n).Fits := by
    intro n hn
    refine hb.push ?_
    rw [hn, Nat.zero_add]
    exact hb.frames.length_le
  cases h with
  | @leaf _ n hn =>
    refine htext ?_
    rcases t with ⟨content, span⟩ | u
    · cases hn
      rfl
    · cases hu : u.role <;> simp only [Token.leaf?, hu, reduceCtorEq, Option.some.injEq] at hn
      · cases hn
        rfl
      · cases hn
        rfl
  | opens hu hlt => exact ⟨hb.root, hlt, by simp, hb.frames⟩
  | stray hu hne => exact htext rfl
  | @closes u gone rest f hu hframes hgone hf =>
    have hfit := hframes ▸ hb.frames
    have hrest : (⟨b.root, rest⟩ : Builder).Fits := ⟨hb.root, hfit.append.1.2.2⟩
    exact hrest.push (height_closed hfit)

/-- So do all steps. -/
lemma run (hb : b.Fits) {i : Nat} {ts : List Token} (h : b.run i ts = .ok c) : c.Fits := by
  induction ts generalizing b i with
  | nil =>
    cases h
    exact hb
  | cons t ts ih =>
    rw [run_cons] at h
    cases hstep : b.step i t with
    | error e =>
      rw [hstep] at h
      cases h
    | ok d =>
      rw [hstep] at h
      exact ih (hb.step (step_eq_ok_iff.1 hstep)) h

end Fits

end Builder

/-- **A reading keeps the limit.** -/
theorem Node.heightAll_le_of_readFrom {start : Nat} {ts : List Token} {nodes : List Node}
    (h : Node.readFrom start ts = .ok nodes) : Node.heightAll nodes ≤ maxBlockDepth := by
  obtain ⟨b, hb, rfl⟩ := Node.readFrom_eq_ok.1 h
  have hfits := Builder.Fits.empty.run hb
  refine Node.heightAll_le_iff.2 ?_
  have hall : b.All fun n => n.height ≤ maxBlockDepth := by
    refine ⟨hfits.root, fun f hf n hn => ?_⟩
    obtain ⟨gone, rest, hframes⟩ := List.append_of_mem hf
    have hfit := hframes ▸ hfits.frames
    have := hfit.append.1.2.1 n hn
    omega
  exact hall.finish fun _ _ => Nat.zero_le _

/-! ### Nests of bodies -/

/-- A partial among the tokens of the block has a value in its scope. -/
def Call.Expands (c : Call) : Prop :=
  ∃ name ∈ Token.partials (c.range.slice c.tokens), c.scope.resolve name ≠ none

namespace Setting

variable (set : Setting)

/-- The rendering of the block `c₀` comes to a block inside `k` bodies, counting its own, where `p`
of these bodies have partials that get their values there. -/
inductive Nest (c₀ : Call) : Nat → Nat → Call → Prop where
  /-- The block itself. -/
  | entry : Nest c₀ 0 0 c₀
  /-- A body in which no partial gets a value. -/
  | kept {k p : Nat} {c c' : Call} (h : Nest c₀ k p c) (hcall : set.Calls c c')
    (hkept : ¬ c'.Expands) : Nest c₀ (k + 1) p c'
  /-- A body in which a partial gets its value. -/
  | late {k p : Nat} {c c' : Call} (h : Nest c₀ k p c) (hcall : set.Calls c c')
    (hlate : c'.Expands) : Nest c₀ (k + 1) (p + 1) c'

variable {set} {c₀ c c' : Call} {k p : Nat}

/-- One body more. -/
lemma Nest.calls (h : set.Nest c₀ k p c) (hcall : set.Calls c c') :
    ∃ p', set.Nest c₀ (k + 1) p' c' := by
  by_cases hlate : c'.Expands
  · exact ⟨p + 1, h.late hcall hlate⟩
  · exact ⟨p, h.kept hcall hlate⟩

lemma exists_nest_of_reached (h : Relation.ReflTransGen set.Calls c₀ c) :
    ∃ k p, set.Nest c₀ k p c := by
  induction h with
  | refl => exact ⟨0, 0, .entry⟩
  | tail _ hcall ih =>
    obtain ⟨k, p, hnest⟩ := ih
    exact ⟨k + 1, hnest.calls hcall⟩

lemma Nest.reached (h : set.Nest c₀ k p c) : Relation.ReflTransGen set.Calls c₀ c := by
  induction h with
  | entry => exact .refl
  | kept _ hcall _ ih => exact ih.tail hcall
  | late _ hcall _ ih => exact ih.tail hcall

/-- A block in which no partial gets a value has the tokens that it had. -/
lemma expand_of_not_expands (h : ¬ c.Expands) :
    set.expand c.scope (c.range.slice c.tokens) = pure (c.range.slice c.tokens) := by
  refine set.expandTo_of_unbound _ fun name hname => ?_
  by_contra hne
  exact h ⟨name, hname, hne⟩

/-- The nodes that a block is rendered with keep the limit; and they are no higher than those that
it had, if no partial gets a value. -/
lemma heightAll_of_prepare_done (hread : Node.ReadIn c.range c.tokens c.nodes)
    {nodes : List Node} {tokens : List Token}
    (h : (set.prepare c.scope c.nodes c.tokens c.range).outcome = .done (nodes, tokens)) :
    Node.heightAll nodes ≤ maxBlockDepth ∧
      (¬ c.Expands → Node.heightAll nodes = Node.heightAll c.nodes) := by
  obtain ⟨range, hread', hexp⟩ := readIn_of_prepare_done hread h
  refine ⟨Node.heightAll_le_of_readFrom hread'.read, fun hkept => ?_⟩
  rw [expand_of_not_expands hkept] at hexp
  have hslice : c.range.slice c.tokens = range.slice tokens := Outcome.done.inj hexp
  have hbefore := hread.map_shiftAll
  have hafter := hread'.map_shiftAll
  rw [← hslice] at hafter
  cases hn : Node.ofTokens (c.range.slice c.tokens) with
  | error e =>
    rw [hn] at hbefore
    cases hbefore
  | ok read =>
    rw [hn] at hbefore hafter
    rw [← Except.ok.inj hbefore, ← Except.ok.inj hafter, Node.heightAll_shiftAll,
      Node.heightAll_shiftAll]

/-- The body of a block is lower than the nodes that the block is among. -/
lemma Calls.heightAll_lt (h : set.Calls c c') : ∃ nodes tokens,
    (set.prepare c.scope c.nodes c.tokens c.range).outcome = .done (nodes, tokens) ∧
      Node.heightAll c'.nodes < Node.heightAll nodes := by
  obtain ⟨nodes, tokens, before, after, depth, hprep, hjobs, -⟩ := h
  obtain ⟨kind, name, span, value, s, hmem, -, -, -⟩ :=
    mem_jobs_body (c := c') (by rw [hjobs]; simp)
  exact ⟨nodes, tokens, hprep, Node.heightAll_le_iff.1 (Nat.le_refl _) _ hmem⟩

/-- **How deep bodies nest**: no deeper than the limit once, and once more for each body whose
partials get their values there. What the nodes of a block add to this is counted as well.

**Proof sketch.** A body is lower by one than the nodes of the block that it is in. If no partial
gets a value in it, then its nodes stay as they are; else it is read anew and keeps the limit. -/
theorem Nest.bounded (hread : Node.ReadIn c₀.range c₀.tokens c₀.nodes) (h : set.Nest c₀ k p c) :
    k ≤ maxBlockDepth * (p + 1) ∧ ∀ nodes tokens,
      (set.prepare c.scope c.nodes c.tokens c.range).outcome = .done (nodes, tokens) →
        k + Node.heightAll nodes ≤ maxBlockDepth * (p + 1) := by
  have hbody : ∀ {k p : Nat} {c c' : Call}, (∀ nodes tokens,
      (set.prepare c.scope c.nodes c.tokens c.range).outcome = .done (nodes, tokens) →
        k + Node.heightAll nodes ≤ maxBlockDepth * (p + 1)) → set.Calls c c' →
      k + 1 + Node.heightAll c'.nodes ≤ maxBlockDepth * (p + 1) := by
    intro k p c c' ih hcall
    obtain ⟨nodes, tokens, hprep, hlt⟩ := hcall.heightAll_lt
    have := ih nodes tokens hprep
    omega
  induction h with
  | entry =>
    refine ⟨Nat.zero_le _, fun nodes tokens hprep => ?_⟩
    have := (heightAll_of_prepare_done hread hprep).1
    omega
  | @kept k p c c' h hcall hkept ih =>
    have hle := hbody ih.2 hcall
    refine ⟨by omega, fun nodes tokens hprep => ?_⟩
    rw [(heightAll_of_prepare_done
      (readIn_of_reachable set hread (h.reached.tail hcall)) hprep).2 hkept]
    exact hle
  | @late k p c c' h hcall hlate ih =>
    have hle := hbody ih.2 hcall
    have hmore : maxBlockDepth * (p + 1 + 1) = maxBlockDepth * (p + 1) + maxBlockDepth :=
      Nat.mul_succ _ _
    refine ⟨by omega, fun nodes tokens hprep => ?_⟩
    have := (heightAll_of_prepare_done
      (readIn_of_reachable set hread (h.reached.tail hcall)) hprep).1
    omega

/-- **A grant that is too small shows a deeper nest**: there is a body for each level of it, and one
more. -/
theorem exists_nest_of_exhausted {depth : Nat} (h : set.Nest c₀ k p c)
    (hexhausted : (c.run set depth).outcome = .exhausted) :
    ∃ p' c', set.Nest c₀ (k + depth + 1) p' c' := by
  induction depth using Nat.strongRecOn generalizing k p c with
  | ind depth ih =>
    rcases Call.exists_of_run_ne_done (by rw [hexhausted]; simp) with
      ⟨e, -, hend⟩ | ⟨nodes, tokens, r, hr, hend⟩ | ⟨c', hcall, hend⟩
    · rw [hexhausted] at hend
      cases hend
    · exact absurd (hend.symm.trans hexhausted) (set.leaf_outcome_ne_exhausted hr)
    · obtain ⟨p', hnest⟩ := h.calls hcall
      cases depth with
      | zero => exact ⟨p', c', hnest⟩
      | succ depth =>
        obtain ⟨p'', c'', hnest'⟩ := ih depth (Nat.lt_succ_self depth) hnest
          (hend.symm.trans hexhausted)
        exact ⟨p'', c'', by rwa [show k + (depth + 1) + 1 = k + 1 + depth + 1 by omega]⟩

/-! ### Blocks that nest too deep -/

/-- **When a rendering fails since blocks nest too deep**: in what comes out of the expansion of a
block that is reached, too many opening tags are pending where there is another one. -/
theorem exists_nestingTooDeep_iff (hread : Node.ReadIn c.range c.tokens c.nodes) :
    (∃ depth, (c.run set depth).outcome = .failed (.nestingTooDeep maxBlockDepth)) ↔
      ∃ c', Relation.ReflTransGen set.Calls c c' ∧ ∃ expanded,
        (set.expand c'.scope (c'.range.slice c'.tokens)).outcome = .done expanded ∧
          Pairing.Overfull expanded := by
  constructor
  · rintro ⟨depth, h⟩
    rcases exists_reached_of_failed h with ⟨-, w, hw⟩ | ⟨c', hreach, hprep⟩
    · exact absurd hw.symm (w.toError_ne_limit _).1
    · refine ⟨c', hreach, ?_⟩
      rcases (prepare_failed (readIn_of_reachable set hread hreach)).1 hprep with
        hexp | ⟨expanded, hexp, hn⟩
      · rcases expand_failed hexp with ⟨-, w, hw⟩ | ⟨name, hname⟩
        · exact absurd hw.symm (w.toError_ne_limit _).1
        · cases hname
      · exact ⟨expanded, hexp, (Pairing.overfull_of_error hn).2⟩
  · rintro ⟨c', hreach, expanded, hexp, hfull⟩
    refine exists_failed_of_reached hreach
      ((prepare_failed (readIn_of_reachable set hread hreach)).2 (.inr ⟨expanded, hexp, ?_⟩))
    cases hn : Node.ofTokens expanded with
    | ok nodes => exact absurd hfull (Pairing.exists_layout_of_ok hn).1
    | error e => rw [(Pairing.overfull_of_error hn).1]

end Setting

/-! ### Whole templates -/

namespace Template

/-- **How deep bodies nest in a rendering.**

A body lies inside no more bodies than the limit, counting itself, once and once more for each of
these bodies in which a partial gets its value. If there are never more than `m` of those on the
way, then a grant of so many limits is enough. The rendering fails since blocks nest too deep
exactly if it comes to a block with too many opening tags pending where there is another one, after
its partials have been put in. -/
theorem bodies_nest_within_limits {d : Delimiters} {source : String} {t : Template}
    (h : compileWith d source = .ok t) (context : Context) (loader : Loader) (options : Options) :
    (∀ k p c, (t.setting loader options).Nest (t.entry context) k p c →
      k ≤ maxBlockDepth * (p + 1)) ∧
    (∀ m, (∀ k p c, (t.setting loader options).Nest (t.entry context) k p c → p ≤ m) →
      ∀ depth, maxBlockDepth * (m + 1) ≤ depth →
        (t.run context loader options depth).outcome ≠ .exhausted) ∧
    ((∃ depth, (t.run context loader options depth).outcome =
        .failed (.nestingTooDeep maxBlockDepth)) ↔
      ∃ c, Relation.ReflTransGen (t.setting loader options).Calls (t.entry context) c ∧
        ∃ expanded, ((t.setting loader options).expand c.scope
          (c.range.slice c.tokens)).outcome = .done expanded ∧ Pairing.Overfull expanded) := by
  have hread := readIn_of_compileWith h
  have hbounded : ∀ k p c, (t.setting loader options).Nest (t.entry context) k p c →
      k ≤ maxBlockDepth * (p + 1) := fun k p c hnest => (hnest.bounded hread).1
  refine ⟨hbounded, fun m hm depth hdepth hexhausted => ?_,
    Setting.exists_nestingTooDeep_iff (c := t.entry context) hread⟩
  have hentry : (t.setting loader options).Nest (t.entry context) 0 0 (t.entry context) := .entry
  obtain ⟨p, c, hnest⟩ := Setting.exists_nest_of_exhausted hentry hexhausted
  have hk := hbounded _ p c hnest
  have hp := Nat.mul_le_mul_left maxBlockDepth (Nat.add_le_add_right (hm _ p c hnest) 1)
  omega

/-- A case where the partial gets its value inside the block, and brings the same block again. -/
theorem bodies_nest_within_limits_of_late_partial :
    ∃ t, compileWith .standard "{{#a}}{{>p}}{{/a}}" = .ok t ∧
      let context := Context.ofList
        [("a", .list [Context.ofList [("p", .inline "{{#a}}{{>q}}{{/a}}")]])]
      (∀ k p c, (t.setting Loader.empty {}).Nest (t.entry context) k p c →
        k ≤ maxBlockDepth * (p + 1)) ∧
      ((∃ depth, (t.run context Loader.empty {} depth).outcome =
          .failed (.nestingTooDeep maxBlockDepth)) ↔
        ∃ c, Relation.ReflTransGen (t.setting Loader.empty {}).Calls (t.entry context) c ∧
          ∃ expanded, ((t.setting Loader.empty {}).expand c.scope
            (c.range.slice c.tokens)).outcome = .done expanded ∧ Pairing.Overfull expanded) := by
  obtain ⟨t, ht⟩ := exists_of_isOk
    (show (compileWith .standard "{{#a}}{{>p}}{{/a}}").isOk = true by decide +kernel)
  obtain ⟨hbounded, -, hiff⟩ := bodies_nest_within_limits ht (Context.ofList
    [("a", .list [Context.ofList [("p", .inline "{{#a}}{{>q}}{{/a}}")]])]) Loader.empty {}
  exact ⟨t, ht, hbounded, hiff⟩

end Template

namespace Hiding

/-- In the block `x` of this context the path `c.d` leads to as many blocks inside one another as
may be, and the path `a.b` of the partial in the midst of them leads nowhere. -/
def deepContext : Context :=
  .ofList [("t", .bool true), ("x", .map (x 255)), ("y", .bool true)]

/-- A partial without value is done at once. -/
lemma renderAnewWith_unbound {g : List Token → Scope → Run Unit} {u : Tag} {s : Scope}
    (hu : u.role = .includes) (hname : s.resolve u.name = none) :
    (setting.renderAnewWith g [.tag u] s).outcome = .done () := by
  have hunbound : ∀ m ∈ Token.partials [.tag u], s.resolve m = none := by
    simpa [Token.partials, Token.partial?, hu] using hname
  have hnodes : Node.ofTokens [.tag u] = .ok [.inclusion u.name u.span] := by
    simp [Node.ofTokens, Builder.run, Builder.step, hu, Builder.push, Builder.modifyNodes,
      Builder.empty, Node.push, Builder.finish, Builder.giveUp, Except.map]
  rw [Setting.renderAnewWith, Setting.expand, setting.expandTo_of_unbound _ hunbound, pure_bind,
    hnodes]
  rfl

/-- The body of `x` and those of the blocks in its partial are granted one by one. -/
lemma renderAnew_deepContext (depth : Nat) :
    (setting.renderAnew depth (Token.ofText .standard 0 "{{#x}}{{>c.d}}{{/x}}")
      (Scope.root deepContext)).outcome = if depth ≤ 256 then .exhausted else .done () := by
  have hexpand : (setting.expand (Scope.root deepContext)
      (Token.ofText .standard 0 "{{#x}}{{>c.d}}{{/x}}")).outcome =
        .done (Token.ofText .standard 0 "{{#x}}{{>c.d}}{{/x}}") := by
    have hunbound : ∀ m ∈ Token.partials (Token.ofText .standard 0 "{{#x}}{{>c.d}}{{/x}}"),
        (Scope.root deepContext).resolve m = none := by
      intro m hm
      rw [show Token.ofText .standard 0 "{{#x}}{{>c.d}}{{/x}}" =
        Token.ofText .standard 0 (padded 0 "{{#x}}{{>c.d}}{{/x}}") from rfl,
        (wrapped_x 0 0).partials] at hm
      cases List.mem_singleton.1 hm
      rfl
    rw [Setting.expand, setting.expandTo_of_unbound _ hunbound]
    rfl
  obtain ⟨u, hu, hname, houter⟩ := (wrapped_x 0 0).outcome_eq (s := Scope.root deepContext)
    (by decide) rfl rfl rfl rfl
  have hinside : (setting.expand ((Scope.root deepContext).overlay (x 255)) [.tag u]).outcome =
      .done (Token.ofText .standard (u.level + 1) (padded 255 "{{#y}}{{>a.b}}{{/y}}")) :=
    expand_partial (wrapped_y 255 (u.level + 1)) hu (by rw [hname]; rfl) rfl
  obtain ⟨u', hu', hname', hinner⟩ := (wrapped_y 255 (u.level + 1)).outcome_eq
    (s := (Scope.root deepContext).overlay (x 255)) (by decide) rfl rfl rfl rfl
  have hcore : ∀ depth, (setting.renderAnew depth [.tag u']
      ((Scope.root deepContext).overlay (x 255))).outcome = .done () := by
    intro depth
    cases depth with
    | zero => exact renderAnewWith_unbound hu' (by rw [hname']; rfl)
    | succ depth => exact renderAnewWith_unbound hu' (by rw [hname']; rfl)
  rw [houter _ _ hexpand, hinner _ _ hinside, hcore]
  split_ifs <;> first | rfl | omega

end Hiding

/-- **Bodies nest deeper than the limit** in this rendering, and it does not fail. -/
theorem Template.bodies_nest_beyond_limit :
    ∃ t, compileWith .standard "{{#x}}{{>c.d}}{{/x}}" = .ok t ∧
      (∃ depth, (t.run Hiding.deepContext Loader.empty ⟨false, 1⟩ depth).outcome = .done ()) ∧
      ∃ p c, (t.setting Loader.empty ⟨false, 1⟩).Nest (t.entry Hiding.deepContext)
        (maxBlockDepth + 1) p c := by
  obtain ⟨t, ht⟩ := exists_of_isOk
    (show (compileWith .standard "{{#x}}{{>c.d}}{{/x}}").isOk = true by decide +kernel)
  have hrun : ∀ depth, (t.run Hiding.deepContext Loader.empty ⟨false, 1⟩ depth).outcome =
      if depth ≤ 256 then .exhausted else .done () := by
    intro depth
    rw [run_eq_renderAnew ht]
    exact Hiding.renderAnew_deepContext depth
  refine ⟨t, ht, ⟨257, hrun 257⟩, ?_⟩
  have hentry : (t.setting Loader.empty ⟨false, 1⟩).Nest (t.entry Hiding.deepContext) 0 0
      (t.entry Hiding.deepContext) := .entry
  obtain ⟨p, c, hnest⟩ := Setting.exists_nest_of_exhausted hentry (hrun 256)
  rw [Nat.zero_add] at hnest
  exact ⟨p, c, hnest⟩

end Stencil
