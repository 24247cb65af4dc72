import Stencil.Proofs.Sameness
import Stencil.Proofs.Scalars

set_option relaxedAutoImplicit false
set_option autoImplicit false

/-!
# What a rendering asks for

Partials are put in before anything is rendered. If every partial that can come up has a value from
the start, then the expansion of the whole template leaves none, and nothing is asked for in any
block after that: not in a body that appears several times, and not in one that does not appear. So
what a rendering asks for can be read off the texts: it is the partials with identifiers, each
followed by those of its own text.

## Main definitions

* `Stencil.Inclusion` — a partial tag with those of its text.
* `Stencil.Inclusion.loadsAll` — the identifiers of inclusions, from the outside in.
* `Stencil.Setting.Unfolds` — the inclusions of partial tags.
* `Stencil.Setting.Includes` — a partial comes up among others or in their texts.
* `Stencil.Setting.Bound`, `Stencil.Setting.StandSame` — the partials that come up have values, and
  stand for the same in another scope.

## Main results

* `Stencil.Setting.Unfolds.unique` — partial tags have no other inclusions.
* `Stencil.Setting.exists_unfolds_of_expandTo_done` — what an expansion asks for.
* `Stencil.Setting.loads_of_plain` — where there are no partials, nothing is asked for.
* `Stencil.Template.loads_each_occurrence_once` — what the rendering of a template asks for.
-/

namespace Stencil

/-! ### What runs in sequence ask for -/

namespace Run

variable {α β : Type}

lemma loads_bind {r : Run α} {a : α} (h : r.outcome = .done a) (f : α → Run β) :
    (r >>= f).loads = r.loads ++ (f a).loads := by
  rw [bind_of_done h]
  exact List.filterMap_append

lemma loads_between (r : Run α) (tag : Tag) (text : String) :
    (r.between (.enter tag text) .leave).loads = r.loads := by
  unfold loads between
  rw [List.filterMap_cons_none rfl, List.filterMap_append]
  exact List.append_nil _

lemma loads_eq_nil_iff {r : Run α} : r.loads = [] ↔ ∀ id, .load id ∉ r.events := by
  unfold loads
  rw [List.filterMap_eq_nil_iff]
  constructor
  · intro h id hmem
    cases h _ hmem
  · intro h e he
    cases e with
    | load id => exact absurd he (h id)
    | text content => rfl
    | value v => rfl
    | warning w span => rfl
    | enter tag text => rfl
    | leave => rfl

end Run

/-! ### Inclusions -/

/-- A partial tag: its name, the identifier that its text is loaded under, if its value is one, and
the partial tags of its text. -/
inductive Inclusion where
  | node (name : String) (id? : Option String) (inner : List Inclusion)

mutual

/-- The identifiers that are asked for: that of the partial, then those of its text. -/
def Inclusion.loads : Inclusion → List String
  | .node _ id? inner => id?.toList ++ Inclusion.loadsAll inner

/-- The identifiers that are asked for, one inclusion after the other. -/
def Inclusion.loadsAll : List Inclusion → List String
  | [] => []
  | i :: rest => i.loads ++ Inclusion.loadsAll rest

end

lemma Inclusion.loadsAll_append (is js : List Inclusion) :
    loadsAll (is ++ js) = loadsAll is ++ loadsAll js := by
  induction is with
  | nil => rfl
  | cons i is ih => rw [List.cons_append, loadsAll, loadsAll, ih, List.append_assoc]

/-- The identifier of a text that has to be loaded. -/
def Value.identifier? : Value → Option String
  | .resource id => some id
  | .scalar _ | .bool _ | .list _ | .map _ | .inline _ => none

lemma Value.identifier?_eq_of_same {v w : Value} (h : v.same w = true) :
    v.identifier? = w.identifier? :=
  congr_of_same (f := identifier?) (fun _ _ => rfl) (fun _ _ => rfl) h

namespace Setting

variable (set : Setting) (scope : Scope)

/-- The partials of the given names, which all have values, stand for the inclusions: each has
those of its text inside it. -/
inductive Unfolds : List String → List Inclusion → Prop where
  | nil : Unfolds [] []
  | cons {name : String} {value : Value} {names : List String} {inner rest : List Inclusion}
    (hvalue : scope.resolve name = some value) (hinner : Unfolds (set.namesIn value) inner)
    (hrest : Unfolds names rest) :
    Unfolds (name :: names) (.node name value.identifier? inner :: rest)

/-- The partial of the given name comes up: among the given ones, or in the text of one that comes
up. -/
inductive Includes (names : List String) : String → Prop where
  | among {name : String} (h : name ∈ names) : Includes names name
  | inside {outer name : String} {value : Value} (h : Includes names outer)
    (hvalue : scope.resolve outer = some value) (hname : name ∈ set.namesIn value) :
    Includes names name

/-- The partials that come up have values. -/
def Bound (names : List String) : Prop :=
  ∀ name, set.Includes scope names name → (scope.resolve name).isSome

/-- In the scope `scope'` the partials that come up have values as well, with the same identifiers,
and with the same partials in their texts. -/
def StandSame (scope' : Scope) (names : List String) : Prop :=
  ∀ name, set.Includes scope names name → ∀ v, scope.resolve name = some v →
    ∃ w, scope'.resolve name = some w ∧ w.identifier? = v.identifier? ∧
      set.namesIn w = set.namesIn v

variable {set scope}

namespace Unfolds

lemma append {names names' : List String} {is js : List Inclusion}
    (h : set.Unfolds scope names is) (h' : set.Unfolds scope names' js) :
    set.Unfolds scope (names ++ names') (is ++ js) := by
  induction h with
  | nil => exact h'
  | cons hvalue hinner _ _ ih => exact .cons hvalue hinner ih

/-- **Partials stand for no other inclusions.** -/
theorem unique {names : List String} {is js : List Inclusion} (h : set.Unfolds scope names is)
    (h' : set.Unfolds scope names js) : is = js := by
  induction h generalizing js with
  | nil =>
    cases h'
    rfl
  | cons hvalue _ _ ihinner ihrest =>
    cases h' with
    | cons hvalue' hinner' hrest' =>
      rw [hvalue] at hvalue'
      cases hvalue'
      rw [ihinner hinner', ihrest hrest']

/-- In a scope where the partials that come up stand for the same, they stand for the same
inclusions. -/
lemma congr {scope' : Scope} {names₀ names : List String} {is : List Inclusion}
    (hsame : set.StandSame scope scope' names₀) (h : set.Unfolds scope names is)
    (hnames : ∀ name ∈ names, set.Includes scope names₀ name) : set.Unfolds scope' names is := by
  induction h with
  | nil => exact .nil
  | @cons name v names inner rest hvalue _ _ ihinner ihrest =>
    obtain ⟨hname, hnames⟩ := List.forall_mem_cons.1 hnames
    obtain ⟨w, hw, hid, htext⟩ := hsame name hname v hvalue
    rw [← hid]
    refine .cons hw ?_ (ihrest hnames)
    rw [htext]
    exact ihinner fun other hother => .inside hname hvalue hother

end Unfolds

/-- No other partials come up in a scope where those that do stand for the same. -/
lemma StandSame.includes {scope' : Scope} {names : List String} (hbound : set.Bound scope names)
    (hsame : set.StandSame scope scope' names) {name : String}
    (h : set.Includes scope' names name) : set.Includes scope names name := by
  induction h with
  | among hmem => exact .among hmem
  | @inside outer name w _ hw hname ih =>
    obtain ⟨v, hv⟩ := Option.isSome_iff_exists.1 (hbound outer ih)
    obtain ⟨w', hw', -, htext⟩ := hsame outer ih v hv
    rw [hw] at hw'
    cases hw'
    exact .inside ih hv (htext ▸ hname)

/-- They have values there. -/
lemma StandSame.bound {scope' : Scope} {names : List String} (hbound : set.Bound scope names)
    (hsame : set.StandSame scope scope' names) : set.Bound scope' names := by
  intro name hname
  have hname := hsame.includes hbound hname
  obtain ⟨v, hv⟩ := Option.isSome_iff_exists.1 (hbound name hname)
  obtain ⟨w, hw, -⟩ := hsame name hname v hv
  rw [hw]
  rfl

lemma namesIn_eq_of_same {v w : Value} (h : v.same w = true) : set.namesIn v = set.namesIn w :=
  Value.congr_of_same (f := set.namesIn) (fun _ _ => rfl) (fun _ _ => rfl) h

/-- Partials with equal values stand for the same. -/
lemma StandSame.of_rel {scope' : Scope} {names : List String}
    (h : ∀ name, set.Includes scope names name →
      Option.Rel (fun v w => v = w ∨ v.same w = true) (scope.resolve name)
        (scope'.resolve name)) : set.StandSame scope scope' names := by
  intro name hname v hv
  have hrel := h name hname
  rw [hv] at hrel
  generalize scope'.resolve name = w? at hrel
  cases hrel with
  | some hvw =>
    rcases hvw with rfl | hvw
    · exact ⟨_, rfl, rfl, rfl⟩
    · exact ⟨_, rfl, (Value.identifier?_eq_of_same hvw).symm, (namesIn_eq_of_same hvw).symm⟩

/-! ### What an expansion asks for -/

/-- The text of a partial is asked for exactly if its value is an identifier. -/
lemma loads_partialText (tag : Tag) (value : Value) :
    (set.partialText tag value).loads = value.identifier?.toList := by
  cases value with
  | resource id =>
    have hrest : ∀ r : Run (Option String), (∀ id, .load id ∉ r.events) →
        (Run.emit (.load id) >>= fun _ => r).loads = [id] := by
      intro r hr
      rw [Run.loads_bind rfl, Run.loads_eq_nil_iff.2 hr]
      rfl
    refine hrest _ fun id' => ?_
    cases set.loader.load id with
    | ok text => simp [Run.pure_eq]
    | error cause =>
      dsimp only
      unfold warn
      split <;> simp [Run.bind_eq, Run.bind, Run.fail, Run.emit, Run.pure_eq]
  | scalar text => rfl
  | bool b => rfl
  | list items => rfl
  | map c => rfl
  | inline text => rfl

/-- What a token asks for, if this is known of the texts that are put in. -/
lemma exists_unfolds_of_expandToken_done {names : List String}
    (hbound : set.Bound scope names) {inclusion : Tag → String → Run (List Token)}
    (hinclusion : ∀ (tag : Tag) (text : String) (us : List Token),
      (∀ name ∈ Token.partials (Token.ofText set.delimiters 0 text),
        set.Includes scope names name) →
      (inclusion tag text).outcome = .done us →
      ∃ is, set.Unfolds scope (Token.partials (Token.ofText set.delimiters 0 text)) is ∧
        (inclusion tag text).loads = Inclusion.loadsAll is)
    {t : Token} {us : List Token} (ht : ∀ name ∈ t.partial?, set.Includes scope names name)
    (h : (set.expandToken scope inclusion t).outcome = .done us) :
    ∃ is, set.Unfolds scope t.partial?.toList is ∧
      (set.expandToken scope inclusion t).loads = Inclusion.loadsAll is := by
  rcases unbound_or_bound scope t with hu | ⟨tag, value, rfl, hr, hv⟩
  · -- a partial would have a value, so this is none
    have hnone : t.partial? = none := by
      refine Option.eq_none_iff_forall_not_mem.2 fun name hname => ?_
      have hsome := hbound name (ht name hname)
      rw [hu name hname] at hsome
      cases hsome
    rw [set.expandToken_of_unbound hu, hnone]
    exact ⟨[], .nil, rfl⟩
  · have hname : Token.partial? (.tag tag) = some tag.name := by simp [Token.partial?, hr]
    rw [set.expandToken_of_bound hr hv] at h ⊢
    obtain ⟨text, htext, h⟩ := Run.bind_outcome_done_iff.1 h
    rw [Run.loads_bind htext, loads_partialText, hname]
    have htext := set.partialText_outcome_done htext
    cases text with
    | none =>
      have hinner : set.Unfolds scope (set.namesIn value) [] := by
        rw [namesIn, ← htext]
        exact .nil
      refine ⟨_, .cons hv hinner .nil, ?_⟩
      simp only [Inclusion.loadsAll, Inclusion.loads, List.append_nil]
      exact List.append_nil _
    | some text =>
      have hinner : set.namesIn value =
          Token.partials (Token.ofText set.delimiters 0 text) := by
        rw [namesIn, ← htext]
      obtain ⟨is, his, hloads⟩ := hinclusion tag text us
        (fun name hmem => .inside (ht tag.name hname) hv (hinner ▸ hmem)) h
      refine ⟨_, .cons hv (hinner ▸ his) .nil, ?_⟩
      dsimp only
      rw [hloads]
      simp [Inclusion.loadsAll, Inclusion.loads]

/-- **What an expansion asks for**, if it has a result and all partials that come up have values:
the identifiers of the inclusions that its partials stand for.

**Proof sketch.** Induction on how deep partials may include partials. For each depth the tokens are
gone through one by one. -/
theorem exists_unfolds_of_expandTo_done {names : List String}
    (hbound : set.Bound scope names) {depth : Nat} {ts us : List Token}
    (hts : ∀ name ∈ Token.partials ts, set.Includes scope names name)
    (h : (set.expandTo scope depth ts).outcome = .done us) :
    ∃ is, set.Unfolds scope (Token.partials ts) is ∧
      (set.expandTo scope depth ts).loads = Inclusion.loadsAll is := by
  have list : ∀ depth, (∀ (tag : Tag) (text : String) (us : List Token),
        (∀ name ∈ Token.partials (Token.ofText set.delimiters 0 text),
          set.Includes scope names name) →
        (set.included scope depth tag text).outcome = .done us →
        ∃ is, set.Unfolds scope (Token.partials (Token.ofText set.delimiters 0 text)) is ∧
          (set.included scope depth tag text).loads = Inclusion.loadsAll is) →
      ∀ (ts us : List Token), (∀ name ∈ Token.partials ts, set.Includes scope names name) →
        (set.expandTo scope depth ts).outcome = .done us →
        ∃ is, set.Unfolds scope (Token.partials ts) is ∧
          (set.expandTo scope depth ts).loads = Inclusion.loadsAll is := by
    intro depth hincluded ts
    induction ts with
    | nil => exact fun us _ _ => ⟨[], .nil, by rw [expandTo_nil]; rfl⟩
    | cons t ts ih =>
      intro us hts h
      have hcons : Token.partials (t :: ts) = t.partial?.toList ++ Token.partials ts := by
        unfold Token.partials
        cases ht : t.partial? with
        | none => rw [List.filterMap_cons_none ht]; rfl
        | some name => rw [List.filterMap_cons_some ht]; rfl
      rw [hcons] at hts ⊢
      obtain ⟨ht, hts⟩ := List.forall_mem_append.1 hts
      rw [expandTo_cons] at h ⊢
      obtain ⟨first, hfirst, h⟩ := Run.bind_outcome_done_iff.1 h
      obtain ⟨rest, hrest, -⟩ := Run.bind_outcome_done_iff.1 h
      obtain ⟨is, his, hloads⟩ := exists_unfolds_of_expandToken_done hbound hincluded
        (fun name hname => ht name (Option.mem_toList.2 hname)) hfirst
      obtain ⟨js, hjs, hloads'⟩ := ih rest hts hrest
      refine ⟨is ++ js, his.append hjs, ?_⟩
      rw [Run.loads_bind hfirst, Run.loads_bind hrest, hloads, hloads', Inclusion.loadsAll_append]
      exact congrArg _ (List.append_nil _)
  induction depth generalizing ts us with
  | zero => exact list 0 (fun tag text us _ h => by cases h) ts us hts h
  | succ depth ih =>
    refine list (depth + 1) (fun tag text us htext h => ?_) ts us hts h
    rw [← Token.partials_ofText _ (tag.level + 1) 0] at htext ⊢
    rw [included, Run.loads_between]
    exact ih htext h

/-- No partial is left then. -/
lemma partials_of_expandTo_done {names : List String} (hbound : set.Bound scope names)
    {depth : Nat} {ts us : List Token}
    (hts : ∀ name ∈ Token.partials ts, set.Includes scope names name)
    (h : (set.expandTo scope depth ts).outcome = .done us) : Token.partials us = [] := by
  have hus : ∀ u ∈ us, (∀ name ∈ u.partial?, set.Includes scope names name) ∧
      ∀ name ∈ u.partial?, scope.resolve name = none := by
    refine set.forall_of_expandTo_done
      (Q := fun u => ∀ name ∈ u.partial?, set.Includes scope names name) ?_ ?_ h
    · intro tag value text htag hr hv htext u hu name hname
      have hmem : name ∈ Token.partials (Token.ofText set.delimiters (tag.level + 1) text) :=
        List.mem_filterMap.2 ⟨u, hu, hname⟩
      rw [Token.partials_ofText _ _ 0] at hmem
      refine .inside (htag tag.name (by simp [Token.partial?, hr])) hv ?_
      simpa only [namesIn, htext] using hmem
    · exact fun t ht name hname => hts name (List.mem_filterMap.2 ⟨t, ht, hname⟩)
  refine List.filterMap_eq_nil_iff.2 fun u hu => Option.eq_none_iff_forall_not_mem.2 ?_
  intro name hname
  have hsome := hbound name ((hus u hu).1 name hname)
  rw [(hus u hu).2 name hname] at hsome
  cases hsome

/-! ### What a rendering asks for -/

/-- What is not the body of a block asks for nothing. -/
lemma leaf_loads {scope : Scope} {tokens : List Token} {nodes : List Node} {r : Run Unit}
    (h : .leaf r ∈ nodes.flatMap (Node.jobs set scope tokens)) (id : String) :
    .load id ∉ r.events := by
  rcases set.leaf_cases h with ⟨content, rfl⟩ | ⟨name, value, -, rfl⟩ |
    ⟨name, raw, span, rfl⟩ | rfl
  · simp [Run.emit]
  · simp [Run.emit]
  · unfold warn
    split <;> simp [Run.bind_eq, Run.bind, Run.fail, Run.emit]
  · simp [Run.pure_eq]

/-- **Where there are no partials, nothing is asked for**, in no body at any depth. -/
theorem loads_of_plain {c : Call} (h : c.Plain) (depth : Nat) : (c.run set depth).loads = [] := by
  refine Run.loads_eq_nil_iff.2 fun id => ?_
  induction depth using Nat.strongRecOn generalizing c with
  | ind depth ih =>
    intro hload
    rcases Call.exists_of_mem_events_run hload with
      hprep | ⟨nodes, tokens, r, hr, he⟩ | ⟨c', hcall, he⟩
    · rw [h.prepare] at hprep
      cases hprep
    · exact leaf_loads hr id he
    · cases depth with
      | zero => cases he
      | succ depth => exact ih depth (Nat.lt_succ_self depth) (h.calls hcall) he

/-- Putting in the partials of a block asks for what their expansion asks for. -/
lemma loads_prepare {scope : Scope} {nodes nodes' : List Node} {tokens tokens' : List Token}
    {range : TokenRange} (hread : Node.ReadIn range tokens nodes)
    (h : (set.prepare scope nodes tokens range).outcome = .done (nodes', tokens')) :
    (set.prepare scope nodes tokens range).loads =
      (set.expand scope (range.slice tokens)).loads := by
  unfold prepare at h ⊢
  split at h
  · next hany =>
    obtain ⟨expanded, hexpanded, h⟩ := Run.bind_outcome_done_iff.1 h
    obtain ⟨read, hr, -⟩ := Run.bind_outcome_done_iff.1 h
    rw [if_pos hany, Run.loads_bind hexpanded, Run.loads_bind hr]
    cases hn : Node.ofTokens expanded with
    | ok nodes => exact List.append_nil _
    | error e => exact List.append_nil _
  · next hany =>
    rw [if_neg hany, set.expand_slice_of_plain hread hany]
    rfl

/-- **What the rendering of a block asks for**, if all partials that come up have values: what the
expansion of its partials asks for, and nothing after that. -/
theorem exists_unfolds_of_run_done {c : Call} (hread : Node.ReadIn c.range c.tokens c.nodes)
    (hbound : set.Bound c.scope (Token.partials (c.range.slice c.tokens))) {depth : Nat}
    (h : (c.run set depth).outcome = .done ()) :
    ∃ is, set.Unfolds c.scope (Token.partials (c.range.slice c.tokens)) is ∧
      (c.run set depth).loads = Inclusion.loadsAll is := by
  rw [Call.run_eq, Call.runWith] at h ⊢
  obtain ⟨⟨nodes, tokens⟩, hprep, -⟩ := Run.bind_outcome_done_iff.1 h
  obtain ⟨range, hread', hexpanded⟩ := readIn_of_prepare_done hread hprep
  have hnames : ∀ name ∈ Token.partials (c.range.slice c.tokens),
      set.Includes c.scope (Token.partials (c.range.slice c.tokens)) name := fun _ => .among
  obtain ⟨is, his, hloads⟩ := exists_unfolds_of_expandTo_done hbound hnames hexpanded
  -- no partial is left for the nodes
  have hplain : Node.anyContainsPartial nodes = false := by
    refine Bool.eq_false_iff.2 fun hany => ?_
    exact (Node.anyContainsPartial_of_readFrom hread'.read).1 hany
      (partials_of_expandTo_done hbound hnames hexpanded)
  have hrest : ((nodes.flatMap (Node.jobs set c.scope tokens)).forM
      (Job.run (Call.runBody set depth))).loads = [] := by
    refine Run.loads_eq_nil_iff.2 fun id hload => ?_
    obtain ⟨before, job, after, hjobs, -, he⟩ := Run.exists_of_mem_events_forM hload
    have hmem : job ∈ nodes.flatMap (Node.jobs set c.scope tokens) := by
      rw [hjobs]
      simp
    cases job with
    | leaf r => exact leaf_loads hmem id he
    | body c' =>
      cases depth with
      | zero => cases he
      | succ depth =>
        exact Run.loads_eq_nil_iff.1 (loads_of_plain (.of_mem_jobs hplain hmem) depth) id he
  refine ⟨is, his, ?_⟩
  rw [Run.loads_bind hprep, loads_prepare hread hprep]
  exact (congrArg _ hrest).trans ((List.append_nil _).trans hloads)

end Setting

/-! ### Whole templates -/

namespace Template

/-- **Each occurrence of a partial is asked for once, whatever the blocks do.**

Let all partials that come up, in the template and in the texts of its partials, have values in the
context. If the rendering succeeds, then it asks for the identifiers among these values in the order
of the texts, each followed by those in its own text: once for each occurrence, whether the block
around it appears several times or not at all. So it asks for the same in every other context that
gives equal values to these partials.

**Proof sketch.** The expansion of the whole template asks for just this, and leaves no partial. The
blocks have no partials then, so nothing is put in or asked for in any of them. -/
theorem loads_each_occurrence_once {d : Delimiters} {source : String} {t : Template}
    (h : compileWith d source = .ok t) {context : Context} {loader : Loader} {options : Options}
    {depth : Nat}
    (hbound : ∀ name, (t.setting loader options).Includes (Scope.root context)
      (Token.partials t.tokens) name → ((Scope.root context).resolve name).isSome)
    (hdone : (t.run context loader options depth).outcome = .done ()) :
    (∃ inclusions, (t.setting loader options).Unfolds (Scope.root context)
        (Token.partials t.tokens) inclusions ∧
      (∀ others, (t.setting loader options).Unfolds (Scope.root context)
        (Token.partials t.tokens) others → others = inclusions) ∧
      (t.run context loader options depth).loads = Inclusion.loadsAll inclusions) ∧
    ∀ (context' : Context) (depth' : Nat),
      (∀ name, (t.setting loader options).Includes (Scope.root context)
          (Token.partials t.tokens) name →
        Option.Rel (fun v w => v = w ∨ v.same w = true) ((Scope.root context).resolve name)
          ((Scope.root context').resolve name)) →
      (t.run context' loader options depth').outcome = .done () →
      (t.run context' loader options depth').loads =
        (t.run context loader options depth).loads := by
  have hread := readIn_of_compileWith h
  have hwhole : (⟨0, t.tokens.length⟩ : TokenRange).slice t.tokens = t.tokens :=
    TokenRange.slice_all _
  have hunfolds : ∀ (context : Context) (depth : Nat),
      (t.setting loader options).Bound (Scope.root context) (Token.partials t.tokens) →
      (t.run context loader options depth).outcome = .done () →
      ∃ is, (t.setting loader options).Unfolds (Scope.root context) (Token.partials t.tokens) is ∧
        (t.run context loader options depth).loads = Inclusion.loadsAll is := by
    intro context depth hbound hdone
    rw [← hwhole] at hbound ⊢
    exact Setting.exists_unfolds_of_run_done (c := t.entry context) hread hbound hdone
  obtain ⟨is, his, hloads⟩ := hunfolds context depth hbound hdone
  refine ⟨⟨is, his, fun js hjs => hjs.unique his, hloads⟩, fun context' depth' hvalues hdone' => ?_⟩
  have hsame : (t.setting loader options).StandSame (Scope.root context) (Scope.root context')
      (Token.partials t.tokens) := .of_rel hvalues
  obtain ⟨js, hjs, hloads'⟩ := hunfolds context' depth' (hsame.bound hbound) hdone'
  rw [hloads', hloads, hjs.unique (his.congr hsame fun _ => .among)]

/-- A case where one block does not appear and the other one appears twice, both with the same
partial, which includes another one. The same texts are asked for if both blocks appear once. -/
theorem loads_each_occurrence_once_of_two_blocks :
    ∃ t, compileWith .standard "{{#n}}{{>p}}{{/n}}{{#l}}{{>p}}{{/l}}" = .ok t ∧
      let library := (Library.empty.add "f" "x{{>q}}").add "g" "y"
      let partials := [("p", Value.resource "f"), ("q", Value.resource "g")]
      let context := Context.ofList
        (("n", .bool false) :: ("l", .list [Context.empty, Context.empty]) :: partials)
      let context' := Context.ofList (("n", .bool true) :: ("l", .bool true) :: partials)
      (t.run context library.loader {} 1).loads = ["f", "g", "f", "g"] ∧
        (t.run context' library.loader {} 1).loads =
          (t.run context library.loader {} 1).loads := by
  obtain ⟨t, h⟩ := exists_of_isOk (show
    (compileWith .standard "{{#n}}{{>p}}{{/n}}{{#l}}{{>p}}{{/l}}").isOk = true by decide +kernel)
  refine ⟨t, h, ?_⟩
  intro library partials context context'
  have hpartials : Token.partials t.tokens = ["p", "p"] := by
    rw [(of_compileWith h).2.1]
    decide +kernel
  have hset : t.setting library.loader {} = ⟨.standard, library.loader, {}⟩ := by
    rw [setting, (of_compileWith h).1]
  have hf : (t.setting library.loader {}).namesIn (.resource "f") = ["q"] := by
    rw [hset]
    decide +kernel
  have hg : (t.setting library.loader {}).namesIn (.resource "g") = [] := by
    rw [hset]
    decide +kernel
  have hp : (Scope.root context).resolve "p" = some (.resource "f") := rfl
  have hq : (Scope.root context).resolve "q" = some (.resource "g") := rfl
  have hnames : ∀ name, (t.setting library.loader {}).Includes (Scope.root context)
      (Token.partials t.tokens) name → name = "p" ∨ name = "q" := by
    intro name hname
    induction hname with
    | among hmem =>
      rw [hpartials] at hmem
      exact .inl (by simpa using hmem)
    | inside _ hvalue hmem ih =>
      rcases ih with rfl | rfl
      · cases hp.symm.trans hvalue
        rw [hf] at hmem
        exact .inr (List.mem_singleton.1 hmem)
      · cases hq.symm.trans hvalue
        rw [hg] at hmem
        cases hmem
  have hbound : ∀ name, (t.setting library.loader {}).Includes (Scope.root context)
      (Token.partials t.tokens) name → ((Scope.root context).resolve name).isSome := by
    intro name hname
    rcases hnames name hname with rfl | rfl
    · rfl
    · rfl
  have hdone : (t.run context library.loader {} 1).outcome = .done () := by
    rw [run_eq_renderAnew h]
    exact Outcome.eq_done_of_isDone (by decide +kernel)
  have hdone' : (t.run context' library.loader {} 1).outcome = .done () := by
    rw [run_eq_renderAnew h]
    exact Outcome.eq_done_of_isDone (by decide +kernel)
  obtain ⟨⟨inclusions, -, hunique, hloads⟩, hsame⟩ := loads_each_occurrence_once h hbound hdone
  refine ⟨?_, hsame context' 1 (fun name hname => ?_) hdone'⟩
  · have hone : (t.setting library.loader {}).Unfolds (Scope.root context) ["p"]
        [.node "p" (some "f") [.node "q" (some "g") []]] :=
      .cons hp (hf ▸ .cons hq (hg ▸ .nil) .nil) .nil
    have hboth := hone.append hone
    rw [List.singleton_append, ← hpartials] at hboth
    rw [hloads, ← hunique _ hboth]
    rfl
  · rcases hnames name hname with rfl | rfl
    · exact .some (.inl rfl)
    · exact .some (.inl rfl)

end Template

end Stencil
