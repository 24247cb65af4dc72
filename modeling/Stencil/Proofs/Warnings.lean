import Stencil.Proofs.Relevance

set_option relaxedAutoImplicit false
set_option autoImplicit false

/-!
# What warnings point at

A warning is about a tag, and its place is a place in the text that the tag was read from. During a
rendering the tags of several texts stand in one list, and they are paired and expanded again at
every depth. They stay what they are: every warning has the name and the place of a tag that the
template has, or a text that was put in for a partial. A value without text is written as its tag
was, right behind its warning, and the warning about a partial comes right behind the attempt to
load it.

## Main definitions

* `Stencil.Tag.StandsIn` — the tag is one of the tags of the texts.
* `Stencil.Diagnostic.PointsAt` — a diagnostic is about a tag.
* `Stencil.Text.InOrder` — parts stand in a text one after the other.
* `Stencil.Setting.Traced` — a trail in which every warning is accounted for.
* `Stencil.Setting.Traces` — a run leaves such a trail as long as nothing else is put in.

## Main results

* `Stencil.Setting.Traced.append` — trails that follow one another.
* `Stencil.Setting.Traced.exists_tags` — the diagnostics of a trail point at tags.
* `Stencil.Setting.renderAnew_traces` — a rendering leaves such a trail.
* `Stencil.Template.diagnostics_point_at_tags` — all this for a template.
-/

namespace Stencil

/-! ### Tags and what is said about them -/

/-- The tag is one of the tags of the texts. -/
def Tag.StandsIn (d : Delimiters) (texts : List String) (u : Tag) : Prop :=
  ∃ text ∈ texts, ∃ level, Token.tag u ∈ Token.ofText d level text

/-- The diagnostic is about the tag, at its place: a value without text, or a partial that the
loader has just failed to load, for want of a text or for another cause. -/
def Diagnostic.PointsAt (loader : Loader) (events : List Event) (g : Diagnostic) (u : Tag) : Prop :=
  g.span = u.span ∧
  (u.role = .value ∧ g.code = .undefinedVariable ∧ g.message = "Undefined variable: " ++ u.name ∨
    u.role = .includes ∧ ∃ id cause, loader.load id = .error cause ∧
      [.load id, .warning (.partialUnavailable u.name cause) u.span] <:+: events ∧
      g.message = "Partial '" ++ u.name ++ "' skipped: " ++ cause.message ∧
      ((∃ missing, cause = .notFound missing) ∧ g.code = .partialNotFound ∨
        (∃ broken error, cause = .unreadable broken error) ∧ g.code = .partialUnreadable))

/-- The parts stand in the text in this order, and none of them reaches into the next one. -/
def Text.InOrder : List String → String → Prop
  | [], _ => True
  | part :: parts, text => ∃ before rest, text = before ++ part ++ rest ∧ InOrder parts rest

lemma Text.InOrder.append_left {parts : List String} {text : String} (h : InOrder parts text)
    (front : String) : InOrder parts (front ++ text) := by
  cases parts with
  | nil => trivial
  | cons part parts =>
    obtain ⟨before, rest, rfl, hrest⟩ := h
    exact ⟨front ++ before, rest, by simp only [String.append_assoc], hrest⟩

lemma Diagnostic.PointsAt.mono {loader : Loader} {events events' : List Event} {g : Diagnostic}
    {u : Tag} (h : g.PointsAt loader events u) (hsub : events <:+: events') :
    g.PointsAt loader events' u := by
  obtain ⟨hspan, hvalue | ⟨hrole, id, cause, hload, hevents, hwords⟩⟩ := h
  · exact ⟨hspan, .inl hvalue⟩
  · exact ⟨hspan, .inr ⟨hrole, id, cause, hload, hevents.trans hsub, hwords⟩⟩

/-! ### Trails -/

/-- The event is neither a warning nor an attempt to load a text. -/
def Event.IsQuiet : Event → Prop
  | warning _ _ => False
  | load _ => False
  | text _ => True
  | value _ => True
  | enter _ _ => True
  | leave => True

namespace Setting

/-- Every warning of the trail is about a tag with a certain property. A value without text is
written behind its warning as it stands, and a partial was asked for before its warning. -/
inductive Traced (set : Setting) (P : Tag → Prop) : List Event → Prop where
  | nil : Traced set P []
  | quiet {e : Event} {events : List Event} (he : e.IsQuiet) (h : Traced set P events) :
      Traced set P (e :: events)
  | loaded {id text : String} {events : List Event} (hload : set.loader.load id = .ok text)
      (h : Traced set P events) : Traced set P (.load id :: events)
  | unavailable {u : Tag} {id : String} {cause : LoadError} {events : List Event} (hu : P u)
      (hrole : u.role = .includes) (hload : set.loader.load id = .error cause)
      (h : Traced set P events) :
      Traced set P (.load id :: .warning (.partialUnavailable u.name cause) u.span :: events)
  | undefined {u : Tag} {events : List Event} (hu : P u) (hrole : u.role = .value)
      (h : Traced set P events) :
      Traced set P (.warning (.undefinedVariable u.name) u.span :: .text u.raw :: events)

variable {set : Setting} {P : Tag → Prop}

/-- **Trails that follow one another** are one trail. -/
lemma Traced.append {before after : List Event} (h : set.Traced P before)
    (h' : set.Traced P after) : set.Traced P (before ++ after) := by
  induction h with
  | nil => exact h'
  | quiet he _ ih => exact .quiet he ih
  | loaded hload _ ih => exact .loaded hload ih
  | unavailable hu hrole hload _ ih => exact .unavailable hu hrole hload ih
  | undefined hu hrole _ ih => exact .undefined hu hrole ih

/-- **The diagnostics of a trail point at tags**, and what is written has the values among these
tags in it, as they stand in their texts.

**Proof sketch.** Induction on the trail. The events in front of the rest add at most one
diagnostic. What they write stands in front of what the rest writes. -/
theorem Traced.exists_tags {events : List Event} (h : set.Traced P events) :
    ∃ us : List Tag, (∀ u ∈ us, P u) ∧
      List.Forall₂ (Diagnostic.PointsAt set.loader events)
        ((Event.warnings events).map fun p => p.1.diagnose p.2) us ∧
      Text.InOrder ((us.filter fun u => u.role = .value).map Tag.raw)
        (String.join (events.map Event.written)) := by
  induction h with
  | nil => exact ⟨[], by simp, .nil, trivial⟩
  | @quiet e events he _ ih =>
    obtain ⟨us, hus, hpoints, horder⟩ := ih
    refine ⟨us, hus, ?_, ?_⟩
    · have hnone : e.warning? = none := by cases e <;> trivial
      rw [Event.warnings, List.filterMap_cons_none hnone]
      exact hpoints.imp fun g u h => h.mono (List.infix_cons (List.infix_refl _))
    · rw [List.map_cons, String.join_cons]
      exact horder.append_left _
  | @loaded id text events hload _ ih =>
    obtain ⟨us, hus, hpoints, horder⟩ := ih
    refine ⟨us, hus, ?_, ?_⟩
    · exact hpoints.imp fun g u h => h.mono (List.infix_cons (List.infix_refl _))
    · rw [List.map_cons, String.join_cons]
      exact horder.append_left _
  | @unavailable u id cause events hu hrole hload _ ih =>
    obtain ⟨us, hus, hpoints, horder⟩ := ih
    refine ⟨u :: us, List.forall_mem_cons.2 ⟨hu, hus⟩, .cons ⟨rfl, .inr ⟨hrole, ?_⟩⟩ ?_, ?_⟩
    · refine ⟨id, cause, hload, ⟨[], events, rfl⟩, rfl, ?_⟩
      cases cause with
      | notFound missing => exact .inl ⟨⟨missing, rfl⟩, rfl⟩
      | unreadable broken error => exact .inr ⟨⟨broken, error, rfl⟩, rfl⟩
    · exact hpoints.imp fun g u h => h.mono
        (List.infix_cons (List.infix_cons (List.infix_refl _)))
    · rw [List.filter_cons_of_neg (by simp [hrole]), List.map_cons, List.map_cons,
        String.join_cons, String.join_cons]
      exact (horder.append_left _).append_left _
  | @undefined u events hu hrole _ ih =>
    obtain ⟨us, hus, hpoints, horder⟩ := ih
    refine ⟨u :: us, List.forall_mem_cons.2 ⟨hu, hus⟩,
      .cons ⟨rfl, .inl ⟨hrole, rfl, rfl⟩⟩ ?_, ?_⟩
    · exact hpoints.imp fun g u h => h.mono
        (List.infix_cons (List.infix_cons (List.infix_refl _)))
    · rw [List.filter_cons_of_pos (by simp [hrole]), List.map_cons, List.map_cons, List.map_cons,
        String.join_cons, String.join_cons]
      exact ⟨"", _, (String.append_assoc ..).symm, horder⟩

/-! ### Runs that leave such trails -/

/-- If the event puts in a text, then the tags of the text have the property. -/
def Admits (set : Setting) (P : Tag → Prop) : Event → Prop
  | .enter _ text => ∀ level u, .tag u ∈ Token.ofText set.delimiters level text → P u
  | _ => True

/-- As long as the run only puts in tags with the property, every warning of its trail is accounted
for, and `Q` holds of the result. -/
def Traces (set : Setting) (P : Tag → Prop) {α : Type} (Q : α → Prop) (r : Run α) : Prop :=
  (∀ e ∈ r.events, set.Admits P e) → set.Traced P r.events ∧ ∀ a, r.outcome = .done a → Q a

namespace Traces

variable {α β : Type} {Q : α → Prop} {R : β → Prop}

lemma pure {a : α} (h : Q a) : set.Traces P Q (Pure.pure a) :=
  fun _ => ⟨.nil, fun _ hb => by cases hb; exact h⟩

lemma fail (e : Error) : set.Traces P Q (Run.fail e) := fun _ => ⟨.nil, fun _ h => by cases h⟩

lemma exhausted : set.Traces P Q Run.exhausted := fun _ => ⟨.nil, fun _ h => by cases h⟩

lemma ofExcept (r : Except Error α) : set.Traces P (fun a => r = .ok a) (Run.ofExcept r) := by
  cases r with
  | ok a => exact .pure rfl
  | error e => exact .fail e

lemma emit {e : Event} (he : e.IsQuiet) : set.Traces P (fun _ => True) (Run.emit e) :=
  fun _ => ⟨.quiet he .nil, fun _ _ => trivial⟩

/-- **Runs in sequence.** The second one is only asked for if the first one has a result. -/
lemma bind {r : Run α} {f : α → Run β} (hr : set.Traces P Q r)
    (hf : ∀ a, Q a → set.Traces P R (f a)) : set.Traces P R (r >>= f) := by
  intro hadmits
  cases ha : r.outcome with
  | done a =>
    rw [Run.bind_of_done ha] at hadmits ⊢
    obtain ⟨hfirst, hsecond⟩ := List.forall_mem_append.1 hadmits
    obtain ⟨htraced, hQ⟩ := hr hfirst
    obtain ⟨htraced', hR⟩ := hf a (hQ a ha) hsecond
    exact ⟨htraced.append htraced', hR⟩
  | failed e =>
    rw [Run.bind_of_failed ha] at hadmits ⊢
    exact ⟨(hr hadmits).1, fun b hb => by cases hb⟩
  | exhausted =>
    rw [Run.bind_of_exhausted ha] at hadmits ⊢
    exact ⟨(hr hadmits).1, fun b hb => by cases hb⟩

lemma flatMap {f : α → Run (List β)} {as : List α}
    (h : ∀ a ∈ as, set.Traces P (fun bs => ∀ b ∈ bs, R b) (f a)) :
    set.Traces P (fun bs => ∀ b ∈ bs, R b) (Run.flatMap f as) := by
  induction as with
  | nil =>
    rw [Run.flatMap_nil]
    exact .pure (by simp)
  | cons a as ih =>
    obtain ⟨ha, has⟩ := List.forall_mem_cons.1 h
    rw [Run.flatMap_cons]
    exact ha.bind fun bs hbs => (ih has).bind fun rest hrest =>
      .pure (List.forall_mem_append.2 ⟨hbs, hrest⟩)

lemma forM {f : α → Run Unit} {as : List α} (h : ∀ a ∈ as, set.Traces P (fun _ => True) (f a)) :
    set.Traces P (fun _ => True) (as.forM f) := by
  induction as with
  | nil => exact .pure trivial
  | cons a as ih =>
    obtain ⟨ha, has⟩ := List.forall_mem_cons.1 h
    rw [Run.forM_cons]
    exact ha.bind fun _ _ => ih has

lemma between {tag : Tag} {text : String} {r : Run α}
    (h : set.Admits P (.enter tag text) → set.Traces P Q r) :
    set.Traces P Q (r.between (.enter tag text) .leave) := by
  intro hadmits
  obtain ⟨hentered, hrest⟩ := List.forall_mem_cons.1 hadmits
  obtain ⟨htraced, hQ⟩ := h hentered (List.forall_mem_append.1 hrest).1
  exact ⟨.quiet trivial (htraced.append (.quiet trivial .nil)), hQ⟩

end Traces

/-! ### Rendering -/

variable {scope : Scope}

/-- If the token is a tag, then it has the property. -/
def Admitted (P : Tag → Prop) (t : Token) : Prop := ∀ u, t = .tag u → P u

/-- **The text of a partial.** The warning follows the attempt to load it. -/
lemma partialText_traces (hlenient : set.options.strict = false) {tag : Tag} (htag : P tag)
    (hrole : tag.role = .includes) (value : Value) :
    set.Traces P (fun _ => True) (set.partialText tag value) := by
  cases value with
  | resource id =>
    intro _
    refine ⟨?_, fun _ _ => trivial⟩
    cases hload : set.loader.load id with
    | ok text =>
      have hevents : (set.partialText tag (.resource id)).events = [.load id] := by
        simp [partialText, hload, Run.bind_eq, Run.bind, Run.emit, Run.pure_eq]
      rw [hevents]
      exact .loaded hload .nil
    | error cause =>
      have hevents : (set.partialText tag (.resource id)).events =
          [.load id, .warning (.partialUnavailable tag.name cause) tag.span] := by
        simp [partialText, hload, warn, hlenient, Run.bind_eq, Run.bind, Run.emit, Run.pure_eq]
      rw [hevents]
      exact .unavailable htag hrole hload .nil
  | scalar text => exact .pure trivial
  | bool b => exact .pure trivial
  | list items => exact .pure trivial
  | map c => exact .pure trivial
  | inline text => exact .pure trivial

lemma expandToken_traces (hlenient : set.options.strict = false)
    {inclusion : Tag → String → Run (List Token)}
    (hinclusion : ∀ tag text, set.Traces P (fun us => ∀ u ∈ us, Admitted P u) (inclusion tag text))
    {t : Token} (ht : Admitted P t) :
    set.Traces P (fun us => ∀ u ∈ us, Admitted P u) (set.expandToken scope inclusion t) := by
  rcases unbound_or_bound scope t with hunbound | ⟨tag, value, rfl, hrole, hvalue⟩
  · rw [set.expandToken_of_unbound hunbound]
    exact .pure (List.forall_mem_singleton.2 ht)
  · rw [set.expandToken_of_bound hrole hvalue]
    refine (partialText_traces hlenient (ht tag rfl) hrole value).bind fun text _ => ?_
    cases text with
    | none => exact .pure (by simp)
    | some text => exact hinclusion tag text

/-- **Expansion.** What comes out has tags of the template and of what was put in.

**Proof sketch.** Induction on how deep partials may include partials. -/
lemma expandTo_traces (hlenient : set.options.strict = false) (depth : Nat) {ts : List Token}
    (hts : ∀ t ∈ ts, Admitted P t) :
    set.Traces P (fun us => ∀ u ∈ us, Admitted P u) (set.expandTo scope depth ts) := by
  induction depth generalizing ts with
  | zero =>
    rw [expandTo_eq]
    exact .flatMap fun t ht => expandToken_traces hlenient (fun tag text => .fail _) (hts t ht)
  | succ depth ih =>
    rw [expandTo_eq]
    refine .flatMap fun t ht => expandToken_traces hlenient (fun tag text => ?_) (hts t ht)
    refine .between fun hentered => ih fun u hu v hv => hentered (tag.level + 1) v ?_
    exact hv ▸ hu

/-- **A node.** A value without text is that of a tag among the tokens. -/
lemma renderNode_traces (hlenient : set.options.strict = false) {tokens : List Token}
    (htokens : ∀ t ∈ tokens, Admitted P t) {f : List Node → TokenRange → Scope → Run Unit}
    (hf : ∀ body inner s, set.Traces P (fun _ => True) (f body inner s)) {n : Node}
    (hn : n.FromTag tokens) : set.Traces P (fun _ => True) (set.renderNode f scope n) := by
  cases n with
  | text content span => exact .emit trivial
  | inclusion name span => exact .pure trivial
  | value name raw span =>
    obtain ⟨u, hu, hrole, rfl, rfl, rfl⟩ := hn
    simp only [renderNode]
    cases scope.resolve u.name with
    | some value => exact .emit trivial
    | none =>
      intro _
      refine ⟨?_, fun _ _ => trivial⟩
      have hwarn : set.warn (.undefinedVariable u.name) u.span =
          Run.emit (.warning (.undefinedVariable u.name) u.span) :=
        if_neg (by simp [hlenient])
      rw [hwarn]
      exact .undefined (htokens _ hu u rfl) hrole .nil
  | block kind name span inner body =>
    simp only [renderNode]
    cases scope.resolve name with
    | none => exact .pure trivial
    | some value => exact .forM fun s _ => hf body inner s

lemma renderAnewWith_traces (hlenient : set.options.strict = false)
    {f : List Token → Scope → Run Unit}
    (hf : ∀ ts s, (∀ t ∈ ts, Admitted P t) → set.Traces P (fun _ => True) (f ts s))
    {ts : List Token} (hts : ∀ t ∈ ts, Admitted P t) (scope : Scope) :
    set.Traces P (fun _ => True) (set.renderAnewWith f ts scope) := by
  refine (expandTo_traces hlenient _ hts).bind fun expanded hexpanded => ?_
  refine (Traces.ofExcept _).bind fun nodes hnodes => .forM fun n hn => ?_
  refine renderNode_traces hlenient hexpanded (fun _ inner s => hf _ s fun t ht => ?_)
    (Node.fromTag_of_readFrom (Node.ofTokens_eq _ ▸ hnodes) n hn)
  exact hexpanded t (List.mem_of_mem_drop (List.mem_of_mem_take ht))

/-- **A rendering accounts for every warning**, with every grant. -/
theorem renderAnew_traces (hlenient : set.options.strict = false) (depth : Nat) {ts : List Token}
    (hts : ∀ t ∈ ts, Admitted P t) (scope : Scope) :
    set.Traces P (fun _ => True) (set.renderAnew depth ts scope) := by
  induction depth generalizing ts scope with
  | zero =>
    exact renderAnewWith_traces (f := fun _ _ => Run.exhausted) hlenient (fun _ _ _ => .exhausted)
      hts scope
  | succ depth ih =>
    exact renderAnewWith_traces (f := set.renderAnew depth) hlenient (fun _ s h => ih h s) hts scope

end Setting

/-! ### Whole templates -/

namespace Template

/-- **The trail of a rendering accounts for every warning** by a tag of the template or of a text
that was put in, with every grant and whatever the end is. -/
lemma run_traced {d : Delimiters} {source : String} {t : Template}
    (h : compileWith d source = .ok t) (context : Context) (loader : Loader) {options : Options}
    (hlenient : options.strict = false) (depth : Nat) :
    (⟨d, loader, options⟩ : Setting).Traced
      (Tag.StandsIn d (source :: (t.run context loader options depth).partialTexts))
      (t.run context loader options depth).events := by
  have hadmits : ∀ e ∈ (t.run context loader options depth).events,
      (⟨d, loader, options⟩ : Setting).Admits
        (Tag.StandsIn d (source :: (t.run context loader options depth).partialTexts)) e := by
    intro e he
    cases e with
    | enter tag text =>
      have htext : text ∈ (t.run context loader options depth).partialTexts :=
        List.mem_filterMap.2 ⟨_, he, rfl⟩
      exact fun level u hu => ⟨text, List.mem_cons_of_mem source htext, level, hu⟩
    | text content => trivial
    | value v => trivial
    | warning w span => trivial
    | load id => trivial
    | leave => trivial
  rw [run_eq_renderAnew h] at hadmits ⊢
  refine (Setting.renderAnew_traces hlenient depth (fun u hu v hv => ?_) _ hadmits).1
  exact ⟨source, List.mem_cons_self, 0, hv ▸ hu⟩

/-- **Every diagnostic points at its tag.**

To the diagnostics of a lenient rendering belong tags, one to each and in their order, which stand
in the template or in a text that the rendering puts in. A diagnostic has the place of its tag and
names it. The tag is that of a value, and then its name has none; or it is that of a partial, and
then the rendering has just asked for a text that the loader does not have, or could not read, and
the diagnostic tells these apart. The tags of the values stand in the output as they do in their
texts, in the order of the diagnostics and without overlap. This is so however deep bodies may nest
and whatever the end is; a report has the output and the diagnostics of its rendering.

**Proof sketch.** While tokens are expanded and paired anew, their tags stay those of the template
and of the texts that are put in, so this is so of each warning when it is given. What holds of the
trail of each part holds of the whole trail. -/
theorem diagnostics_point_at_tags {d : Delimiters} {source : String} {t : Template}
    (h : compileWith d source = .ok t) (context : Context) (loader : Loader) {options : Options}
    (hlenient : options.strict = false) (depth : Nat) :
    let r := t.run context loader options depth
    ∃ us : List Tag, (∀ u ∈ us, u.StandsIn d (source :: r.partialTexts)) ∧
      List.Forall₂ (Diagnostic.PointsAt loader r.events) r.diagnostics.diagnostics us ∧
      Text.InOrder ((us.filter fun u => u.role = .value).map Tag.raw) r.output ∧
      ∀ report, reportOf r = .done report → report = ⟨r.output, r.diagnostics⟩ := by
  intro r
  obtain ⟨us, hus, hpoints, horder⟩ := (run_traced h context loader hlenient depth).exists_tags
  rw [Run.diagnostics_eq]
  exact ⟨us, hus, hpoints, horder, fun report hreport => (reportOf_eq_done_iff.1 hreport).2⟩

/-- A case with tags of the template and of a partial inside a block with two rounds, and with
partials that are missing or cannot be read. -/
theorem diagnostics_point_at_tags_of_nested_partial :
    ∃ t report, compileWith .standard "é{{ x }}{{#l}}{{>p}}{{/l}}{{>m}}" = .ok t ∧
      let item := Context.ofList [("p", .inline "{{y}}{{>n}}")]
      let context := Context.ofList
        [("l", .list [item, item]), ("m", .resource "a"), ("n", .resource "b")]
      let loader : Loader := ⟨fun id =>
        .error (if id = "a" then .notFound id else .unreadable id .notText)⟩
      t.report context loader {} = .done report ∧
      report.diagnostics.diagnostics.map (fun g => (g.code, g.span)) =
        [(.partialNotFound, ⟨27, 33⟩), (.undefinedVariable, ⟨2, 9⟩),
          (.partialUnreadable, ⟨5, 11⟩), (.undefinedVariable, ⟨0, 5⟩),
          (.partialUnreadable, ⟨5, 11⟩), (.undefinedVariable, ⟨0, 5⟩)] ∧
      ∃ us : List Tag, (∀ u ∈ us, u.StandsIn .standard ("é{{ x }}{{#l}}{{>p}}{{/l}}{{>m}}" ::
          (t.run context loader {} defaultDepth).partialTexts)) ∧
        List.Forall₂ (Diagnostic.PointsAt loader (t.run context loader {} defaultDepth).events)
          report.diagnostics.diagnostics us ∧
        Text.InOrder ((us.filter fun u => u.role = .value).map Tag.raw) report.output := by
  obtain ⟨t, h⟩ := exists_of_isOk (show (compileWith .standard
    "é{{ x }}{{#l}}{{>p}}{{/l}}{{>m}}").isOk = true by decide +kernel)
  let item := Context.ofList [("p", .inline "{{y}}{{>n}}")]
  let context := Context.ofList
    [("l", .list [item, item]), ("m", .resource "a"), ("n", .resource "b")]
  let loader : Loader := ⟨fun id =>
    .error (if id = "a" then .notFound id else .unreadable id .notText)⟩
  have hdone : (t.run context loader {} defaultDepth).outcome = .done () := by
    rw [run_eq_renderAnew h]
    exact Outcome.eq_done_of_isDone (by decide +kernel)
  have hreport : t.report context loader {} = .done ⟨(t.run context loader {} defaultDepth).output,
      (t.run context loader {} defaultDepth).diagnostics⟩ :=
    reportOf_eq_done_iff.2 ⟨hdone, rfl⟩
  obtain ⟨us, hus, hpoints, horder, -⟩ :=
    diagnostics_point_at_tags h context loader (show ({} : Options).strict = false from rfl)
      defaultDepth
  refine ⟨t, _, h, hreport, ?_, us, hus, hpoints, horder⟩
  rw [run_eq_renderAnew h]
  decide +kernel

end Template

end Stencil
