import Stencil.Proofs.Nesting

set_option relaxedAutoImplicit false
set_option autoImplicit false

/-!
# How deep partials include each other

The level of a tag tells how many inclusions lie between the template and its text. In one expansion
the levels are limited, since an inclusion too deep is a failure. A partial that stays, and gets its
value in the body of a block, is expanded there with the full limit, whatever its level is. So the
levels keep the limit once, and once more for each body on the way in which a partial gets its
value.

## Main definitions

* `Stencil.Token.level` — the level of a tag.
* `Stencil.Setting.Chain` — partials lie inside one another.

## Main results

* `Stencil.Setting.Nest.levels` — the levels of the partials that are put in for a block.
* `Stencil.Setting.exists_failed_of_chain`, `Stencil.Setting.exists_chain_of_failed` — an expansion
  fails because of partials inside one another, and only then.
* `Stencil.Template.partials_keep_levels` — all this for a template.
* `Stencil.Template.partial_beyond_level` — a rendering that goes beyond the limit.
-/

namespace Stencil

/-! ### Levels in an expansion -/

namespace Token

/-- The level of a tag. Plain text has none. -/
def level : Token → Nat
  | .text _ _ => 0
  | .tag t => t.level

/-- The tags of a text have its level. -/
lemma level_le_of_mem_ofText {d : Delimiters} {l : Nat} {source : String} {t : Token}
    (h : t ∈ ofText d l source) : t.level ≤ l := by
  obtain ⟨before, p, after, -, -, rfl⟩ := exists_of_mem_ofText h
  cases p with
  | text content => exact Nat.zero_le _
  | tag form => exact Nat.le_refl _

end Token

namespace Setting

variable {set : Setting} {scope : Scope}

/-- **In one expansion the levels rise by less than the limit** up to the partials that are put in,
and at most by the limit up to what comes out.

**Proof sketch.** The level of a token and the depth that is left for it do not exceed the level at
the start and the limit together. -/
theorem expand_levels {ts : List Token} {l : Nat} (h : ∀ t ∈ ts, t.level ≤ l) :
    (∀ tag text, .enter tag text ∈ (set.expand scope ts).events →
      tag.level < l + set.options.maxPartialDepth) ∧
    ∀ us, (set.expand scope ts).outcome = .done us →
      ∀ u ∈ us, u.level ≤ l + set.options.maxPartialDepth := by
  have hensures : Run.Ensures
      (fun e => ∀ tag text, e = .enter tag text → tag.level < l + set.options.maxPartialDepth)
      (fun _ => True) (fun us => ∀ u ∈ us, u.level ≤ l + set.options.maxPartialDepth)
      (set.expand scope ts) := by
    refine set.expandTo_ensures
      (P := fun e => ∀ tag text, e = .enter tag text → tag.level < l + set.options.maxPartialDepth)
      (Q := fun depth t => t.level + depth ≤ l + set.options.maxPartialDepth)
      (fun _ _ _ => nofun) (fun _ _ _ _ => nofun) (fun _ _ => nofun) (fun _ _ => trivial)
      (fun _ => trivial) ?_ ?_ _ ?_
    · intro depth t ht _
      omega
    · intro depth tag value text ht _ _ _
      have ht' : tag.level + (depth + 1) ≤ l + set.options.maxPartialDepth := ht
      refine ⟨?_, fun t hmem => ?_⟩
      · rintro _ _ ⟨rfl, rfl⟩
        omega
      · have := Token.level_le_of_mem_ofText hmem
        omega
    · intro t ht
      have := h t ht
      omega
  exact ⟨fun tag text he => hensures.events _ he tag text rfl, hensures.result⟩

/-! ### Levels in a nest of bodies -/

variable {c₀ c : Call} {k p : Nat}

/-- **The levels of the partials that are put in for a block** keep the limit once, and once more
for each body on the way in which a partial gets its value.

**Proof sketch.** The tokens of a body are among those that come out of the expansion around it. If
none of its partials gets a value, nothing is put in; else the levels rise once more. -/
theorem Nest.levels (hread : Node.ReadIn c₀.range c₀.tokens c₀.nodes)
    (hlevel : ∀ t ∈ c₀.range.slice c₀.tokens, t.level ≤ 0) (h : set.Nest c₀ k p c) :
    (∀ tag text, .enter tag text ∈ (set.expand c.scope (c.range.slice c.tokens)).events →
      tag.level < set.options.maxPartialDepth * (p + 1)) ∧
    ∀ us, (set.expand c.scope (c.range.slice c.tokens)).outcome = .done us →
      ∀ u ∈ us, u.level ≤ set.options.maxPartialDepth * (p + 1) := by
  -- the tokens of a body come out of the expansion around it
  have hbody : ∀ {k p : Nat} {c c' : Call}, set.Nest c₀ k p c → set.Calls c c' →
      (∀ us, (set.expand c.scope (c.range.slice c.tokens)).outcome = .done us →
        ∀ u ∈ us, u.level ≤ set.options.maxPartialDepth * (p + 1)) →
      ∀ t ∈ c'.range.slice c'.tokens, t.level ≤ set.options.maxPartialDepth * (p + 1) := by
    intro k p c c' hnest hcall ih t ht
    obtain ⟨-, expanded, before, opener, closer, after, _, _, hexp, hsplit, -, -, -⟩ :=
      hcall.body (readIn_of_reachable set hread hnest.reached)
    exact ih expanded hexp t (by simp [hsplit, ht])
  induction h with
  | entry =>
    have hfirst := @expand_levels set c₀.scope _ 0 hlevel
    rw [Nat.zero_add] at hfirst
    rwa [Nat.zero_add, Nat.mul_one]
  | @kept k p c c' h hcall hkept ih =>
    rw [expand_of_not_expands hkept]
    refine ⟨fun tag text he => (by cases he), fun us hus => ?_⟩
    cases hus
    exact hbody h hcall ih.2
  | @late k p c c' h hcall hlate ih =>
    exact expand_levels (hbody h hcall ih.2)

/-! ### Partials inside one another -/

/-- The token is a partial with a text, and `n` more partials with texts lie inside one another in
that text. -/
inductive Chain (set : Setting) (scope : Scope) : Nat → Token → Prop where
  | last {tag : Tag} {value : Value} {text : String} (hr : tag.role = .includes)
    (hv : scope.resolve tag.name = some value) (htext : set.text? value = some text) :
    Chain set scope 0 (.tag tag)
  | more {n : Nat} {tag : Tag} {value : Value} {text : String} {u : Token}
    (hr : tag.role = .includes) (hv : scope.resolve tag.name = some value)
    (htext : set.text? value = some text)
    (hu : u ∈ Token.ofText set.delimiters (tag.level + 1) text) (h : Chain set scope n u) :
    Chain set scope (n + 1) (.tag tag)

/-- **Partials inside one another make an expansion fail** if there are more than may be.

**Proof sketch.** Induction on the partials. If the expansion had a result, then so would that of
the text of each partial, with less depth each time, and in the end with none. -/
theorem exists_failed_of_chain {depth : Nat} {ts : List Token} {u : Token} (hu : u ∈ ts)
    (h : set.Chain scope depth u) : ∃ e, (set.expandTo scope depth ts).outcome = .failed e := by
  have hnone : ∀ us, (set.expandTo scope depth ts).outcome ≠ .done us := by
    induction h generalizing ts with
    | last hr hv htext =>
      intro us hdone
      obtain ⟨vs, hvs⟩ := HasText.included_done ⟨hr, _, hv, htext⟩ hu hdone
      cases hvs
    | more hr hv htext hmem _ ih =>
      intro us hdone
      obtain ⟨vs, hvs⟩ := HasText.included_done ⟨hr, _, hv, htext⟩ hu hdone
      exact ih hmem vs hvs
  cases hend : (set.expandTo scope depth ts).outcome with
  | done us => exact absurd hend (hnone us)
  | failed e => exact ⟨e, rfl⟩
  | exhausted => exact absurd hend (set.expandTo_outcome_ne_exhausted depth ts)

/-- **Only partials inside one another** make an expansion fail for that reason. -/
theorem exists_chain_of_failed {depth : Nat} {ts : List Token} {name : String} {limit : Nat}
    (h : (set.expandTo scope depth ts).outcome = .failed (.recursivePartial name limit)) :
    ∃ u ∈ ts, set.Chain scope depth u := by
  -- one of the tokens is a partial with a text, and that text cannot be put in
  have htoken : ∀ {depth : Nat} {ts : List Token},
      (set.expandTo scope depth ts).outcome = .failed (.recursivePartial name limit) →
      ∃ tag value text, .tag tag ∈ ts ∧ tag.role = .includes ∧
        scope.resolve tag.name = some value ∧ set.text? value = some text ∧
        (set.included scope depth tag text).outcome = .failed (.recursivePartial name limit) := by
    intro depth ts h
    rcases set.expandTo_failed h with ⟨-, w, hw⟩ |
      ⟨before, tag, text, after, us, rfl, -, ⟨hr, value, hv, htext⟩, hincluded⟩
    · exact absurd hw.symm ((w.toError_ne_limit _).2 _)
    · exact ⟨tag, value, text, by simp, hr, hv, htext, hincluded⟩
  induction depth generalizing ts with
  | zero =>
    obtain ⟨tag, value, text, ht, hr, hv, htext, -⟩ := htoken h
    exact ⟨_, ht, .last hr hv htext⟩
  | succ depth ih =>
    obtain ⟨tag, value, text, ht, hr, hv, htext, hincluded⟩ := htoken h
    obtain ⟨u, hu, hchain⟩ := ih hincluded
    exact ⟨_, ht, .more hr hv htext hu hchain⟩

end Setting

/-! ### Whole templates -/

namespace Template

/-- **How deep partials include each other in a rendering.**

Each text that is put in stands for a partial in a block that is reached, and the level of the
partial is below the limit once, and once more for each body on the way in which a partial gets its
value. If there are more partials than may be inside one another in a block that is reached, then
the rendering fails, and unless it is strict, then for this reason. It never fails for this reason
otherwise. -/
theorem partials_keep_levels {d : Delimiters} {source : String} {t : Template}
    (h : compileWith d source = .ok t) (context : Context) (loader : Loader) (options : Options) :
    let set := t.setting loader options
    (∀ depth tag text, .enter tag text ∈ (t.run context loader options depth).events →
      ∃ k p c, set.Nest (t.entry context) k p c ∧
        .enter tag text ∈ (set.expand c.scope (c.range.slice c.tokens)).events ∧
          tag.level < options.maxPartialDepth * (p + 1)) ∧
    (∀ c, Relation.ReflTransGen set.Calls (t.entry context) c →
      (∃ u ∈ c.range.slice c.tokens, set.Chain c.scope options.maxPartialDepth u) →
        ∃ depth e, (t.run context loader options depth).outcome = .failed e ∧
          (options.strict = false → ∃ name, e = .recursivePartial name options.maxPartialDepth)) ∧
    ∀ depth name limit, (t.run context loader options depth).outcome =
        .failed (.recursivePartial name limit) →
      limit = options.maxPartialDepth ∧
        ∃ c, Relation.ReflTransGen set.Calls (t.entry context) c ∧
          ∃ u ∈ c.range.slice c.tokens, set.Chain c.scope options.maxPartialDepth u := by
  intro set
  have hread := readIn_of_compileWith h
  have hlevel : ∀ u ∈ (t.entry context).range.slice (t.entry context).tokens, u.level ≤ 0 := by
    intro u hu
    rw [entry, TokenRange.slice_all, (of_compileWith h).2.1] at hu
    exact Token.level_le_of_mem_ofText hu
  refine ⟨fun depth tag text henter => ?_, fun c hreach hchain => ?_,
    fun depth name limit hfailed => ?_⟩
  · have henter' : .enter tag text ∈ ((t.entry context).run set depth).events := henter
    obtain ⟨c, hreach, hexp⟩ := Setting.exists_reached_of_enter henter'
    obtain ⟨k, p, hnest⟩ := Setting.exists_nest_of_reached hreach
    exact ⟨k, p, c, hnest, hexp, (hnest.levels hread hlevel).1 tag text hexp⟩
  · obtain ⟨u, hu, hchain⟩ := hchain
    obtain ⟨e, he⟩ := Setting.exists_failed_of_chain hu hchain
    have hprep :=
      (Setting.prepare_failed (Setting.readIn_of_reachable set hread hreach)).2 (.inl he)
    obtain ⟨depth, hdepth⟩ := Setting.exists_failed_of_reached hreach hprep
    refine ⟨depth, e, hdepth, fun hlenient => ?_⟩
    rcases Setting.expand_failed he with ⟨hstrict, -⟩ | hname
    · rw [show set.options.strict = false from hlenient] at hstrict
      cases hstrict
    · exact hname
  · have hfailed' : ((t.entry context).run set depth).outcome =
        .failed (.recursivePartial name limit) := hfailed
    rcases Setting.exists_reached_of_failed hfailed' with ⟨-, w, hw⟩ | ⟨c, hreach, hprep⟩
    · exact absurd hw.symm ((w.toError_ne_limit _).2 _)
    · rcases (Setting.prepare_failed (Setting.readIn_of_reachable set hread hreach)).1 hprep with
        hexp | ⟨expanded, -, hn⟩
      · refine ⟨?_, c, hreach, Setting.exists_chain_of_failed hexp⟩
        rcases Setting.expand_failed hexp with ⟨-, w, hw⟩ | ⟨name', hname⟩
        · exact absurd hw.symm ((w.toError_ne_limit _).2 _)
        · cases hname
          rfl
      · cases (Pairing.overfull_of_error hn).1

/-- A case where the partial gets its value inside the block, and brings another partial. -/
theorem partials_keep_levels_of_late_partial :
    ∃ t, compileWith .standard "{{#a}}{{>p}}{{/a}}" = .ok t ∧
      let context := Context.ofList [("a", .list [Context.ofList
        [("p", .inline "{{>q}}"), ("q", .inline "x")]])]
      let set := t.setting Loader.empty {}
      (∀ depth tag text, .enter tag text ∈ (t.run context Loader.empty {} depth).events →
        ∃ k p c, set.Nest (t.entry context) k p c ∧
          .enter tag text ∈ (set.expand c.scope (c.range.slice c.tokens)).events ∧
            tag.level < ({} : Options).maxPartialDepth * (p + 1)) ∧
      ∀ depth name limit, (t.run context Loader.empty {} depth).outcome =
          .failed (.recursivePartial name limit) →
        limit = ({} : Options).maxPartialDepth ∧
          ∃ c, Relation.ReflTransGen set.Calls (t.entry context) c ∧
            ∃ u ∈ c.range.slice c.tokens,
              set.Chain c.scope ({} : Options).maxPartialDepth u := by
  obtain ⟨t, ht⟩ := exists_of_isOk
    (show (compileWith .standard "{{#a}}{{>p}}{{/a}}").isOk = true by decide +kernel)
  obtain ⟨hlevels, -, hfailed⟩ := partials_keep_levels ht (Context.ofList [("a", .list
    [Context.ofList [("p", .inline "{{>q}}"), ("q", .inline "x")]])]) Loader.empty {}
  exact ⟨t, ht, hlevels, hfailed⟩

/-- **Partials include each other deeper than the limit** in this rendering, and it does not fail:
the partial in the text of another one gets its value only in the block around it. -/
theorem partial_beyond_level :
    ∃ t, compileWith .standard "{{>p}}" = .ok t ∧
      let context := Context.ofList [("p", .inline "{{#s}}{{>q}}{{/s}}"),
        ("s", .map (Context.ofList [("q", .inline "x")]))]
      (t.run context Loader.empty ⟨false, 1⟩ 1).outcome = .done () ∧
        ∃ tag text, .enter tag text ∈ (t.run context Loader.empty ⟨false, 1⟩ 1).events ∧
          1 ≤ tag.level := by
  obtain ⟨t, ht⟩ := exists_of_isOk
    (show (compileWith .standard "{{>p}}").isOk = true by decide +kernel)
  refine ⟨t, ht, ?_⟩
  intro context
  rw [run_eq_renderAnew ht]
  refine ⟨Outcome.eq_done_of_isDone (by decide +kernel), ?_⟩
  have hdeep : ((⟨.standard, Loader.empty, ⟨false, 1⟩⟩ : Setting).renderAnew 1
      (Token.ofText .standard 0 "{{>p}}") (Scope.root context)).events.any (fun
        | .enter tag _ => decide (1 ≤ tag.level)
        | _ => false) = true := by decide +kernel
  obtain ⟨e, he, hlevel⟩ := List.any_eq_true.1 hdeep
  cases e with
  | enter tag text => exact ⟨tag, text, he, of_decide_eq_true hlevel⟩
  | text content => cases hlevel
  | value v => cases hlevel
  | warning w span => cases hlevel
  | load id => cases hlevel
  | leave => cases hlevel

end Template

end Stencil
