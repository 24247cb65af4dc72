import Stencil.Proofs.Nesting
import Stencil.Proofs.Places

set_option relaxedAutoImplicit false
set_option autoImplicit false

/-!
# The texts of scalars

Values are written as they stand. No tag in them is ever read, and no choice depends on the text of
a scalar: not which names have values, not which bodies are rendered, and not what is warned of. So
other texts in the same places change nothing but themselves, as long as no value is put in as a
partial.

## Main definitions

* `Stencil.Context.mapScalars` — the context with other texts of scalars.
* `Stencil.Run.mapEvents` — the run with other events.
* `Stencil.Segment` — part of an output, which is fixed or the text of a scalar.

## Main results

* `Stencil.Scope.resolve_mapScalars`, `Stencil.Value.scopes_mapScalars` — names and blocks do not
  depend on the texts of scalars.
* `Stencil.Call.run_mapScalars` — what is rendered with other texts of scalars.
* `Stencil.Setting.reached_mapScalars_iff` — the same bodies are rendered.
* `Stencil.Template.scalars_are_written_only` — all this for a template without partials.
-/

namespace Stencil

/-! ### Other texts of scalars -/

mutual

/-- The value with `f` applied to the texts of all scalars in it. -/
def Value.mapScalars (f : String → String) : Value → Value
  | .scalar text => .scalar (f text)
  | .bool b => .bool b
  | .list items => .list (Context.mapItems f items)
  | .map context => .map (context.mapScalars f)
  | .inline text => .inline text
  | .resource id => .resource id

/-- The context with `f` applied to the texts of all scalars in it. -/
def Context.mapScalars (f : String → String) : Context → Context
  | .ofEntries entries => .ofEntries (Context.mapEntries f entries)

/-- The entries with `f` applied to the texts of all scalars in them. -/
def Context.mapEntries (f : String → String) : List (String × Value) → List (String × Value)
  | [] => []
  | (key, v) :: rest => (key, v.mapScalars f) :: Context.mapEntries f rest

/-- The contexts with `f` applied to the texts of all scalars in them. -/
def Context.mapItems (f : String → String) : List Context → List Context
  | [] => []
  | c :: rest => c.mapScalars f :: Context.mapItems f rest

end

variable (f : String → String)

lemma Context.mapItems_eq_map (items : List Context) :
    Context.mapItems f items = items.map (Context.mapScalars f) := by
  induction items with
  | nil => rfl
  | cons c rest ih => rw [Context.mapItems, ih, List.map_cons]

lemma Context.get?_mapScalars (c : Context) (key : String) :
    (c.mapScalars f).get? key = (c.get? key).map (Value.mapScalars f) := by
  obtain ⟨entries⟩ := c
  unfold Context.get? Context.mapScalars Context.entries
  induction entries with
  | nil => rfl
  | cons entry rest ih =>
    obtain ⟨k, v⟩ := entry
    rw [Context.mapEntries, List.lookup_cons, List.lookup_cons]
    cases key == k with
    | true => rfl
    | false => exact ih

namespace Value

lemma get?_mapScalars (v : Value) (key : String) :
    (v.mapScalars f).get? key = (v.get? key).map (mapScalars f) := by
  cases v with
  | map context => exact context.get?_mapScalars f key
  | scalar text => rfl
  | bool b => rfl
  | list items => rfl
  | inline text => rfl
  | resource id => rfl

lemma follow_mapScalars (v : Value) (keys : List String) :
    (v.mapScalars f).follow keys = (v.follow keys).map (mapScalars f) := by
  induction keys generalizing v with
  | nil => rfl
  | cons key keys ih =>
    rw [follow, follow, get?_mapScalars]
    cases v.get? key with
    | none => rfl
    | some w => exact ih w

/-- No text makes a scalar false. -/
lemma isTruthy_mapScalars (v : Value) : (v.mapScalars f).isTruthy = v.isTruthy := by
  cases v with
  | list items => cases items <;> rfl
  | scalar text => rfl
  | bool b => rfl
  | map context => rfl
  | inline text => rfl
  | resource id => rfl

end Value

namespace Scope

/-- The scope with `f` applied to the texts of all scalars in it. -/
def mapScalars (s : Scope) : Scope := ⟨s.frames.map (Context.mapScalars f)⟩

lemma get?_mapScalars (s : Scope) (key : String) :
    (s.mapScalars f).get? key = (s.get? key).map (Value.mapScalars f) := by
  obtain ⟨frames⟩ := s
  unfold get? mapScalars
  induction frames with
  | nil => rfl
  | cons c rest ih =>
    rw [List.map_cons, List.findSome?_cons, List.findSome?_cons, Context.get?_mapScalars]
    cases c.get? key with
    | none => exact ih
    | some v => rfl

/-- **The same names have values**, with other texts of scalars in them. -/
theorem resolve_mapScalars (s : Scope) (name : String) :
    (s.mapScalars f).resolve name = (s.resolve name).map (Value.mapScalars f) := by
  unfold resolve
  rw [get?_mapScalars]
  cases s.get? name with
  | some v => rfl
  | none =>
    cases (segments name.toList).map String.ofList with
    | nil => rfl
    | cons key keys =>
      dsimp only [Option.map_none]
      rw [get?_mapScalars]
      cases s.get? key with
      | none => rfl
      | some v => exact v.follow_mapScalars f keys

end Scope

/-- **The same bodies are rendered**, in scopes with other texts of scalars. -/
theorem Value.scopes_mapScalars (s : Scope) (kind : BlockKind) (v : Value) :
    (v.mapScalars f).scopes (s.mapScalars f) kind =
      (v.scopes s kind).map (Scope.mapScalars f) := by
  cases kind with
  | inverted =>
    rw [scopes_inverted, scopes_inverted, isTruthy_mapScalars]
    split <;> rfl
  | plain =>
    cases v with
    | list items =>
      simp only [mapScalars, scopes, Context.mapItems_eq_map, List.map_map]
      rfl
    | map context => rfl
    | scalar text => rfl
    | bool b => cases b <;> rfl
    | inline text => rfl
    | resource id => rfl

/-! ### Runs with other events -/

namespace Run

variable {α β : Type} (g : Event → Event)

/-- The run with `g` applied to its events. -/
def mapEvents (r : Run α) : Run α := ⟨r.events.map g, r.outcome⟩

lemma mapEvents_bind (r : Run α) (k : α → Run β) :
    (r >>= k).mapEvents g = r.mapEvents g >>= fun a => (k a).mapEvents g := by
  obtain ⟨events, outcome⟩ := r
  cases outcome with
  | done a => simp [mapEvents, bind_eq, Run.bind]
  | failed e => rfl
  | exhausted => rfl

lemma mapEvents_forM (k : α → Run Unit) (as : List α) :
    (as.forM k).mapEvents g = as.forM fun a => (k a).mapEvents g := by
  induction as with
  | nil => rfl
  | cons a as ih =>
    rw [forM_cons, mapEvents_bind, forM_cons]
    congr 1
    funext _
    exact ih

end Run

/-- The event with `f` applied to the texts of all scalars in it. -/
def Event.mapScalars : Event → Event
  | .value v => .value (v.mapScalars f)
  | e => e

/-! ### Rendering with other texts of scalars -/

/-- The block with `f` applied to the texts of all scalars in its scope. -/
def Call.mapScalars (c : Call) : Call := { c with scope := c.scope.mapScalars f }

/-- The part of a rendering with other texts of scalars. -/
def Job.mapScalars : Job → Job
  | leaf r => leaf (r.mapEvents (Event.mapScalars f))
  | body c => body (c.mapScalars f)

variable (set : Setting)

/-- A warning says nothing about texts of scalars. -/
lemma Setting.warn_mapEvents (w : Warning) (span : Span) :
    (set.warn w span).mapEvents (Event.mapScalars f) = set.warn w span := by
  unfold warn
  split <;> rfl

/-- **Rendering a node comes to the same**, with other texts of scalars. -/
theorem Node.jobs_mapScalars (s : Scope) (tokens : List Token) (n : Node) :
    n.jobs set (s.mapScalars f) tokens = (n.jobs set s tokens).map (Job.mapScalars f) := by
  cases n with
  | text content span => rfl
  | inclusion name span => rfl
  | value name raw span =>
    simp only [jobs, Setting.renderNode, Scope.resolve_mapScalars, List.map_singleton,
      Job.mapScalars]
    cases s.resolve name with
    | some v => rfl
    | none =>
      simp only [Option.map_none, Run.mapEvents_bind, Setting.warn_mapEvents]
      rfl
  | block kind name span inner body =>
    simp only [jobs, Scope.resolve_mapScalars]
    cases s.resolve name with
    | none => rfl
    | some v =>
      simp only [Option.map_some, Value.scopes_mapScalars, List.map_map]
      rfl

/-- The jobs of a block with other texts of scalars leave other events. -/
lemma Job.forM_mapScalars {g : Call → Run Unit} {jobs : List Job}
    (h : ∀ c, .body c ∈ jobs → g (c.mapScalars f) = (g c).mapEvents (Event.mapScalars f)) :
    (jobs.map (mapScalars f)).forM (Job.run g) =
      (jobs.forM (Job.run g)).mapEvents (Event.mapScalars f) := by
  rw [Run.forM_map, Run.mapEvents_forM]
  refine Run.forM_congr fun job hjob => ?_
  cases job with
  | leaf r => rfl
  | body c => exact h c hjob

/-! ### Blocks without partials -/

namespace Call

variable {set} {c c' : Call}

/-- No partial is among the nodes of the block, at any depth. -/
def Plain (c : Call) : Prop := Node.anyContainsPartial c.nodes = false

/-- The bodies of blocks without partials have none. -/
lemma Plain.of_mem_jobs {nodes : List Node} {tokens : List Token} {s : Scope}
    (hnodes : Node.anyContainsPartial nodes = false)
    (h : .body c' ∈ nodes.flatMap (Node.jobs set s tokens)) : c'.Plain := by
  obtain ⟨kind, name, span, value, s', hmem, -⟩ := Setting.mem_jobs_body h
  exact Node.anyContainsPartial_body hnodes hmem

/-- A block without partials has the nodes that it had. -/
lemma Plain.prepare (h : c.Plain) :
    set.prepare c.scope c.nodes c.tokens c.range = pure (c.nodes, c.tokens) := by
  rw [Setting.prepare, h]
  rfl

lemma Plain.calls (h : c.Plain) (hcall : set.Calls c c') : c'.Plain := by
  obtain ⟨nodes, tokens, before, after, depth, hprep, hjobs, -⟩ := hcall
  rw [h.prepare] at hprep
  cases hprep
  exact .of_mem_jobs h (by rw [hjobs]; simp)

/-- The jobs of a block are the same ones, with other texts of scalars. -/
lemma flatMap_jobs_mapScalars (c : Call) :
    c.nodes.flatMap (Node.jobs set (c.scope.mapScalars f) c.tokens) =
      (c.nodes.flatMap (Node.jobs set c.scope c.tokens)).map (Job.mapScalars f) := by
  rw [List.map_flatMap]
  exact congrArg (List.flatMap · c.nodes)
    (funext fun n => Node.jobs_mapScalars f set c.scope c.tokens n)

/-- **What is rendered with other texts of scalars** is what is rendered, with these texts where the
scalars are written.

**Proof sketch.** Induction on the depth that is granted. A block without partials comes to the same
jobs in the same order, and its bodies have no partials either. -/
theorem run_mapScalars (h : c.Plain) (depth : Nat) :
    (c.mapScalars f).run set depth = (c.run set depth).mapEvents (Event.mapScalars f) := by
  induction depth using Nat.strongRecOn generalizing c with
  | ind depth ih =>
    have hmap : (c.mapScalars f).Plain := h
    rw [run_eq, run_eq, runWith, runWith, hmap.prepare, h.prepare, pure_bind, pure_bind]
    change (c.nodes.flatMap (Node.jobs set (c.scope.mapScalars f) c.tokens)).forM
      (Job.run (runBody set depth)) = _
    rw [flatMap_jobs_mapScalars]
    refine Job.forM_mapScalars f fun c' hbody => ?_
    cases depth with
    | zero => rfl
    | succ depth => exact ih depth (Nat.lt_succ_self depth) (.of_mem_jobs h hbody)

end Call

namespace Setting

variable {set} {c c' : Call}

/-- The same bodies are called. -/
lemma calls_mapScalars_iff (h : c.Plain) {d : Call} :
    set.Calls (c.mapScalars f) d ↔ ∃ c', set.Calls c c' ∧ d = c'.mapScalars f := by
  have hmap : (c.mapScalars f).Plain := h
  have hdone : ∀ {before after : List Job} {depth : Nat},
      c.nodes.flatMap (Node.jobs set c.scope c.tokens) = before ++ after →
      ((before.map (Job.mapScalars f)).forM (Job.run (Call.run set depth))).outcome =
        (before.forM (Job.run (Call.run set depth))).outcome := by
    intro before after depth hjobs
    rw [Job.forM_mapScalars f fun c' hbody => ?_]
    · rfl
    · exact Call.run_mapScalars f (.of_mem_jobs h (by rw [hjobs]; simp [hbody])) depth
  constructor
  · rintro ⟨nodes, tokens, before, after, depth, hprep, hjobs, hbefore⟩
    rw [hmap.prepare] at hprep
    cases hprep
    change c.nodes.flatMap (Node.jobs set (c.scope.mapScalars f) c.tokens) = _ at hjobs
    rw [Call.flatMap_jobs_mapScalars] at hjobs
    obtain ⟨before', rest, hsplit, rfl, hrest⟩ := List.map_eq_append_iff.1 hjobs
    obtain ⟨job, after', rfl, hjob, rfl⟩ := List.map_eq_cons_iff.1 hrest
    cases job with
    | leaf r => cases hjob
    | body c' =>
      cases hjob
      exact ⟨c', ⟨c.nodes, c.tokens, before', after', depth, congrArg Run.outcome h.prepare, hsplit,
        (hdone hsplit).symm.trans hbefore⟩, rfl⟩
  · rintro ⟨c', ⟨nodes, tokens, before, after, depth, hprep, hjobs, hbefore⟩, rfl⟩
    rw [h.prepare] at hprep
    cases hprep
    refine ⟨c.nodes, c.tokens, before.map (Job.mapScalars f), after.map (Job.mapScalars f), depth,
      congrArg Run.outcome hmap.prepare, ?_, (hdone hjobs).trans hbefore⟩
    change c.nodes.flatMap (Node.jobs set (c.scope.mapScalars f) c.tokens) = _
    rw [Call.flatMap_jobs_mapScalars, hjobs, List.map_append, List.map_cons]
    rfl

/-- **The same bodies are rendered.** -/
theorem reached_mapScalars_iff (h : c.Plain) {d : Call} :
    Relation.ReflTransGen set.Calls (c.mapScalars f) d ↔
      ∃ c', Relation.ReflTransGen set.Calls c c' ∧ d = c'.mapScalars f := by
  have hplain : ∀ {c'}, Relation.ReflTransGen set.Calls c c' → c'.Plain := by
    intro c' hreach
    induction hreach with
    | refl => exact h
    | tail _ hcall ih => exact ih.calls hcall
  constructor
  · intro hreach
    induction hreach with
    | refl => exact ⟨c, .refl, rfl⟩
    | tail _ hcall ih =>
      obtain ⟨c', hreach, rfl⟩ := ih
      obtain ⟨c'', hcall', rfl⟩ := (calls_mapScalars_iff f (hplain hreach)).1 hcall
      exact ⟨c'', hreach.tail hcall', rfl⟩
  · rintro ⟨c', hreach, rfl⟩
    induction hreach with
    | refl => exact .refl
    | tail hbefore hcall ih =>
      exact ih.tail ((calls_mapScalars_iff f (hplain hbefore)).2 ⟨_, hcall, rfl⟩)

/-- Where there are no partials, none gets its value late. -/
lemma Nest.eq_zero {c₀ : Call} {k p : Nat} (hread : Node.ReadIn c₀.range c₀.tokens c₀.nodes)
    (hplain : c₀.Plain) (h : set.Nest c₀ k p c) : c.Plain ∧ p = 0 := by
  induction h with
  | entry => exact ⟨hplain, rfl⟩
  | kept _ hcall _ ih => exact ⟨ih.1.calls hcall, ih.2⟩
  | @late k p c c' h hcall hlate ih =>
    obtain ⟨name, hname, -⟩ := hlate
    have hread' := readIn_of_reachable set hread (h.reached.tail hcall)
    have hany := (Node.anyContainsPartial_of_readFrom hread'.read).2 (List.ne_nil_of_mem hname)
    rw [ih.1.calls hcall] at hany
    cases hany

/-- **Without partials the limit for blocks is grant enough.** -/
theorem outcome_ne_exhausted_of_plain (hread : Node.ReadIn c.range c.tokens c.nodes)
    (hplain : c.Plain) {depth : Nat} (hdepth : maxBlockDepth ≤ depth) :
    (c.run set depth).outcome ≠ .exhausted := by
  intro hexhausted
  obtain ⟨p, c', hnest⟩ := exists_nest_of_exhausted .entry hexhausted
  have hbounded := (hnest.bounded hread).1
  rw [(hnest.eq_zero hread hplain).2] at hbounded
  omega

/-! ### What is written -/

/-- What is not the body of a block writes no value but that of a name. -/
lemma mem_parts_of_leaf {scope : Scope} {tokens : List Token} {nodes : List Node} {r : Run Unit}
    {v : Value} (h : .leaf r ∈ nodes.flatMap (Node.jobs set scope tokens))
    (hv : .value v ∈ r.events) : v ∈ scope.parts := by
  rcases set.leaf_cases h with ⟨content, rfl⟩ | ⟨name, value, hvalue, rfl⟩ |
    ⟨name, raw, span, rfl⟩ | rfl
  · cases List.mem_singleton.1 hv
  · cases List.mem_singleton.1 hv
    exact Scope.parts_subset_of_resolve hvalue (Value.mem_parts_self _)
  · unfold warn at hv
    split at hv
    · cases hv
    · simp [Run.emit, Run.bind_eq, Run.bind] at hv
  · cases hv

/-- **Every value that is written stands in the scope**, or inside a value there. -/
theorem mem_parts_of_mem_events {depth : Nat} {v : Value}
    (h : .value v ∈ (c.run set depth).events) : v ∈ c.scope.parts := by
  induction depth using Nat.strongRecOn generalizing c with
  | ind depth ih =>
    rcases Call.exists_of_mem_events_run h with
      hprep | ⟨nodes, tokens, r, hr, he⟩ | ⟨c', hcall, he⟩
    · have hensures : Run.Ensures (fun e => ∀ v, e ≠ .value v) (fun _ => True)
          (fun us => ∀ u ∈ us, True) (set.expand c.scope (c.range.slice c.tokens)) :=
        set.expandTo_ensures (P := fun e => ∀ v, e ≠ .value v) (Q := fun _ _ => True)
          (fun _ _ => nofun) (fun _ _ _ => nofun) (fun _ => nofun) (fun _ _ => trivial)
          (fun _ => trivial) (fun _ _ _ _ => trivial)
          (fun _ _ _ _ _ _ _ _ => ⟨fun _ => nofun, fun _ _ => trivial⟩) _ (fun _ _ => trivial)
      exact absurd rfl (hensures.events _ (mem_events_prepare hprep) v)
    · exact mem_parts_of_leaf hr he
    · cases depth with
      | zero => cases he
      | succ depth => exact hcall.parts_subset (ih depth (Nat.lt_succ_self depth) he)

end Setting

/-- Part of an output: it is fixed, or it is the text of a scalar. -/
inductive Segment where
  | fixed (text : String)
  | scalar (text : String)
  deriving DecidableEq, Repr

/-- The part as written, with `f` applied to the text of a scalar. -/
def Segment.write : Segment → String
  | fixed text => text
  | scalar text => f text

/-- What a value is written as. -/
def Value.segment : Value → Segment
  | .scalar text => .scalar text
  | v => .fixed v.display

/-- What is written in an event. -/
def Event.segment : Event → Segment
  | .value v => v.segment
  | e => .fixed e.written

lemma Value.display_mapScalars (v : Value) : (v.mapScalars f).display = v.segment.write f := by
  cases v <;> rfl

lemma Event.written_mapScalars (e : Event) : (e.mapScalars f).written = e.segment.write f := by
  cases e with
  | value v => exact v.display_mapScalars f
  | text content => rfl
  | warning w span => rfl
  | load id => rfl
  | enter tag text => rfl
  | leave => rfl

/-- Only a scalar is written as the text of a scalar. -/
lemma Event.segment_eq_scalar_iff {e : Event} {text : String} :
    e.segment = .scalar text ↔ e = .value (.scalar text) := by
  cases e with
  | value v => cases v <;> simp [segment, Value.segment]
  | text content => simp [segment]
  | warning w span => simp [segment]
  | load id => simp [segment]
  | enter tag text => simp [segment]
  | leave => simp [segment]

namespace Run

variable {α : Type}

/-- With other texts of scalars, these are written in place of the others. -/
lemma output_mapEvents (r : Run α) : (r.mapEvents (Event.mapScalars f)).output =
    String.join ((r.events.map Event.segment).map (Segment.write f)) := by
  rw [output, mapEvents, List.map_map, List.map_map]
  exact congrArg (fun g => String.join (r.events.map g))
    (funext fun e => e.written_mapScalars f)

/-- The warnings are the same ones. -/
lemma diagnostics_mapEvents (r : Run α) :
    (r.mapEvents (Event.mapScalars f)).diagnostics = r.diagnostics := by
  unfold diagnostics mapEvents
  rw [List.filterMap_map]
  congr 2
  funext e
  cases e <;> rfl

end Run

/-! ### Whole templates -/

namespace Template

/-- Where no token is a partial, there is none among the nodes. -/
lemma entry_plain {d : Delimiters} {source : String} {t : Template}
    (h : compileWith d source = .ok t) (hnone : Token.partials t.tokens = []) (context : Context) :
    (t.entry context).Plain := by
  refine Bool.eq_false_iff.2 fun hany => ?_
  have hpartials := (Node.anyContainsPartial_of_readFrom (readIn_of_compileWith h).read).1 hany
  rw [TokenRange.slice_all] at hpartials
  exact hpartials hnone

/-- **The texts of scalars are written, and nothing else is done with them.**

To render a template without partials gives one failure, whatever the texts of the scalars are; or
else there are fixed texts and texts of scalars of the context such that, whatever is put in place
of the texts of scalars, the output is the concatenation with these replaced, and the diagnostics
are the same. The same bodies are rendered too, each with its scope. So a tag in the text of a
scalar is never read. -/
theorem scalars_are_written_only {d : Delimiters} {source : String} {t : Template}
    (h : compileWith d source = .ok t) (hnone : Token.partials t.tokens = [])
    (context : Context) (loader : Loader) (options : Options) :
    ((∃ (segments : List Segment) (log : DiagnosticLog),
      (∀ text, .scalar text ∈ segments → .scalar text ∈ context.parts) ∧
      ∀ f, t.report (context.mapScalars f) loader options =
        .done ⟨String.join (segments.map (Segment.write f)), log⟩) ∨
      ∃ e, ∀ f, t.report (context.mapScalars f) loader options = .failed e) ∧
    ∀ f c, Relation.ReflTransGen (t.setting loader options).Calls
        (t.entry (context.mapScalars f)) c ↔
      ∃ c', Relation.ReflTransGen (t.setting loader options).Calls (t.entry context) c' ∧
        c = c'.mapScalars f := by
  have hread := readIn_of_compileWith h
  have hplain := entry_plain h hnone context
  refine ⟨?_, fun f c => Setting.reached_mapScalars_iff f hplain⟩
  have hrun : ∀ f, t.run (context.mapScalars f) loader options defaultDepth =
      (t.run context loader options defaultDepth).mapEvents (Event.mapScalars f) :=
    fun f => Call.run_mapScalars f hplain defaultDepth
  have hend : (t.run context loader options defaultDepth).outcome ≠ .exhausted :=
    Setting.outcome_ne_exhausted_of_plain (c := t.entry context) hread hplain (by decide)
  have hparts : ∀ v, .value v ∈ (t.run context loader options defaultDepth).events →
      v ∈ context.parts := by
    intro v hv
    have hmem := Setting.mem_parts_of_mem_events (c := t.entry context) hv
    rwa [entry, Scope.parts_root] at hmem
  unfold report reportOf
  simp only [hrun, Run.output_mapEvents, Run.diagnostics_mapEvents]
  generalize t.run context loader options defaultDepth = r at hend hparts ⊢
  cases hr : r.outcome with
  | exhausted => exact absurd hr hend
  | failed e =>
    refine .inr ⟨e, fun f => ?_⟩
    rw [Run.mapEvents, hr]
    rfl
  | done u =>
    refine .inl ⟨r.events.map Event.segment, r.diagnostics, fun text htext => ?_, fun f => ?_⟩
    · obtain ⟨e, he, hsegment⟩ := List.mem_map.1 htext
      rw [Event.segment_eq_scalar_iff.1 hsegment] at he
      exact hparts _ he
    · rw [Run.mapEvents, hr]
      rfl

/-- A case where the text of a scalar looks like a block, and one like a partial. -/
theorem scalars_are_written_only_of_tags :
    ∃ t, compileWith .standard "{{#s}}{{v}}{{/s}}{{^n}}{{w}}{{/n}}" = .ok t ∧
      Token.partials t.tokens = [] ∧
      let context := Context.ofList [("s", .list [Context.ofList [("v", .scalar "{{#s}}")],
        Context.empty]), ("v", .scalar "{{>p}}"), ("n", .bool false), ("p", .inline "x")]
      ((∃ (segments : List Segment) (log : DiagnosticLog),
        (∀ text, .scalar text ∈ segments → .scalar text ∈ context.parts) ∧
        ∀ f, t.report (context.mapScalars f) Loader.empty {} =
          .done ⟨String.join (segments.map (Segment.write f)), log⟩) ∨
        ∃ e, ∀ f, t.report (context.mapScalars f) Loader.empty {} = .failed e) ∧
      ∀ f c, Relation.ReflTransGen (t.setting Loader.empty {}).Calls
          (t.entry (context.mapScalars f)) c ↔
        ∃ c', Relation.ReflTransGen (t.setting Loader.empty {}).Calls (t.entry context) c' ∧
          c = c'.mapScalars f := by
  obtain ⟨t, ht⟩ := exists_of_isOk (show
    (compileWith .standard "{{#s}}{{v}}{{/s}}{{^n}}{{w}}{{/n}}").isOk = true by decide +kernel)
  have hnone : Token.partials t.tokens = [] := by
    rw [(of_compileWith ht).2.1]
    decide +kernel
  exact ⟨t, ht, hnone, scalars_are_written_only ht hnone _ _ _⟩

end Template

end Stencil
