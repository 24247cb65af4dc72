import Stencil.Proofs.Places
import Stencil.Proofs.Sameness
import Stencil.Proofs.Scalars

set_option relaxedAutoImplicit false
set_option autoImplicit false

/-!
# What a rendering depends on

A tag looks its name up in two ways: as a key, and as a path that starts with a key. So a rendering
depends on a context only through the keys that its tags can look up, those of the template and of
the partials that it puts in. Two contexts with equal values under these keys are rendered alike; it
does not matter in which order entries stand, at whatever depth, and what other entries there are.

## Main definitions

* `Stencil.Scope.keysOf` — the keys that a name is looked up by.
* `Stencil.Template.relevantKeys` — the keys that the tags of a rendering are looked up by.
* `Stencil.Scope.AgreesOn` — two scopes have equal values under the given keys.
* `Stencil.Run.Follows` — as long as one run does what it may, the other one shows the same.
* `Stencil.Run.ShowsSame` — nothing can tell two runs apart.

## Main results

* `Stencil.Scope.AgreesOn.resolve` — the names of tags have equal values.
* `Stencil.Value.Agrees.scopes` — blocks go through scopes that agree.
* `Stencil.Setting.renderAnew_follows` — rendering in scopes that agree.
* `Stencil.Template.renders_by_relevant_keys` — all this for a template.
-/

namespace Stencil

/-! ### The keys of tags -/

/-- The keys that a name is looked up by: the whole name, and the first part of the path that it
is. -/
def Scope.keysOf (name : String) : List String :=
  name :: ((segments name.toList).map String.ofList).take 1

namespace Token

/-- The keys that a tag is looked up by. -/
def keys : Token → List String
  | .text _ _ => []
  | .tag t => Scope.keysOf t.name

/-- The keys that the tags among the tokens are looked up by. -/
def allKeys (tokens : List Token) : List String := tokens.flatMap keys

lemma allKeys_ofPieces (d : Delimiters) (level level' start : Nat) (ps : List Piece) :
    allKeys (ofPieces d level start ps) = allKeys (ofPieces d level' start ps) := by
  induction ps generalizing start with
  | nil => rfl
  | cons p ps ih =>
    unfold allKeys at ih ⊢
    rw [ofPieces, ofPieces, List.flatMap_cons, List.flatMap_cons, ih]
    cases p <;> rfl

/-- How deep a text is included makes no difference to the keys of its tags. -/
lemma allKeys_ofText (d : Delimiters) (level level' : Nat) (source : String) :
    allKeys (ofText d level source) = allKeys (ofText d level' source) :=
  allKeys_ofPieces d level level' 0 _

lemma allKeys_subset_iff {tokens : List Token} {keys : List String} :
    allKeys tokens ⊆ keys ↔ ∀ t ∈ tokens, t.keys ⊆ keys := by
  unfold allKeys
  constructor
  · exact fun h t ht key hkey => h (List.mem_flatMap.2 ⟨t, ht, hkey⟩)
  · intro h key hkey
    obtain ⟨t, ht, hkey⟩ := List.mem_flatMap.1 hkey
    exact h t ht hkey

end Token

/-! ### Scopes that agree -/

namespace Scope

/-- Under each of the given keys the scopes have equal values, or none. -/
def AgreesOn (keys : List String) (s s' : Scope) : Prop :=
  ∀ key ∈ keys, Option.Rel Value.Agrees (s.get? key) (s'.get? key)

namespace AgreesOn

variable {keys : List String} {s s' : Scope}

/-- Scopes agree on what they did, with equal contexts laid over them. -/
lemma overlay (h : s.AgreesOn keys s') {c c' : Context} (hc : c.Distinct)
    (hsame : c.same c' = true) : (s.overlay c).AgreesOn keys (s'.overlay c') := by
  intro key hkey
  rw [get?_overlay, get?_overlay]
  generalize c.get? key = v, c'.get? key = w, Context.rel_get? hc hsame key = hrel
  cases hrel with
  | some hvw => exact .some hvw
  | none => exact h key hkey

/-- **The names of tags have equal values** in scopes that agree on the keys of the names. -/
theorem resolve (h : s.AgreesOn keys s') {name : String} (hname : keysOf name ⊆ keys) :
    Option.Rel Value.Agrees (s.resolve name) (s'.resolve name) := by
  obtain ⟨hwhole, hfirst⟩ := List.cons_subset.1 hname
  unfold Scope.resolve
  generalize s.get? name = v, s'.get? name = w, h name hwhole = hrel
  cases hrel with
  | some hvw => exact .some hvw
  | none =>
    cases hsegments : (segments name.toList).map String.ofList with
    | nil => exact .none
    | cons key path =>
      have hkey : key ∈ keys := hfirst (by simp [hsegments])
      dsimp only
      generalize s.get? key = v, s'.get? key = w, h key hkey = hrel
      cases hrel with
      | some hvw => exact hvw.follow path
      | none => exact .none

end AgreesOn

end Scope

/-- **Blocks go through scopes that agree**, if their values are equal. -/
theorem Value.Agrees.scopes {v w : Value} (hvw : v.Agrees w) {keys : List String} {s s' : Scope}
    (h : s.AgreesOn keys s') (kind : BlockKind) :
    List.Forall₂ (Scope.AgreesOn keys) (v.scopes s kind) (w.scopes s' kind) := by
  have one : List.Forall₂ (Scope.AgreesOn keys) [s] [s'] := .cons h .nil
  obtain ⟨hdistinct, hsame⟩ := hvw
  cases kind with
  | inverted =>
    rw [Value.scopes_inverted, Value.scopes_inverted, Value.isTruthy_eq_of_same hsame]
    split
    · exact .nil
    · exact one
  | plain =>
    have items : ∀ {items items' : List Context}, (∀ c ∈ items, c.Distinct) →
        Context.sameItems items items' = true →
        List.Forall₂ (Scope.AgreesOn keys) (items.map s.overlay) (items'.map s'.overlay) := by
      intro items items' hitems hsame
      induction Context.sameItems_iff.1 hsame with
      | nil => exact .nil
      | @cons c c' items items' hc hrest ih =>
        obtain ⟨hd, hitems⟩ := List.forall_mem_cons.1 hitems
        exact .cons (h.overlay hd hc) (ih hitems (Context.sameItems_iff.2 hrest))
    rcases Value.cases_of_same hsame with rfl | ⟨_, _, rfl, rfl, hitems⟩ | ⟨c, c', rfl, rfl, hc⟩
    · cases v with
      | list contexts =>
        rw [Value.same] at hsame
        exact items (Context.distinctItems_iff.1 hdistinct) hsame
      | map c =>
        rw [Value.same] at hsame
        exact .cons (h.overlay hdistinct hsame) .nil
      | bool b =>
        cases b with
        | true => exact one
        | false => exact .nil
      | scalar text => exact one
      | inline text => exact one
      | resource id => exact one
    · exact items (Context.distinctItems_iff.1 hdistinct) hitems
    · exact .cons (h.overlay hdistinct hc) .nil

/-! ### Runs that show the same -/

/-- What can be seen of an event: of a value only the text that it is written as. -/
def Event.shown : Event → Event
  | .value v => .text v.display
  | e => e

namespace Run

variable {α β : Type}

/-- The texts of the partials that are put in, in order. -/
def partialTexts (r : Run α) : List String :=
  r.events.filterMap fun
    | .enter _ text => some text
    | _ => none

/-- Nothing can tell the runs apart: they end in the same way, write the same, give the same
diagnostics, ask for the same texts and put in the same ones. -/
structure ShowsSame (r s : Run α) : Prop where
  outcome : r.outcome = s.outcome
  output : r.output = s.output
  diagnostics : r.diagnostics = s.diagnostics
  loads : r.loads = s.loads
  partialTexts : r.partialTexts = s.partialTexts

lemma outcome_mapEvents (g : Event → Event) (r : Run α) : (r.mapEvents g).outcome = r.outcome := rfl

lemma ShowsSame.of_mapEvents_shown {r s : Run α}
    (h : r.mapEvents Event.shown = s.mapEvents Event.shown) : ShowsSame r s := by
  have hevents : r.events.map Event.shown = s.events.map Event.shown := congrArg Run.events h
  have hwritten : Event.written = Event.written ∘ Event.shown := by
    funext e
    cases e <;> rfl
  -- what is drawn from the single events
  have hdrawn : ∀ {γ : Type} (f : Event → Option γ), (∀ e, f e.shown = f e) →
      r.events.filterMap f = s.events.filterMap f := by
    intro γ f hf
    have hshown : f = f ∘ Event.shown := funext fun e => (hf e).symm
    rw [hshown, ← List.filterMap_map, ← List.filterMap_map, hevents]
  have houtcome : r.outcome = s.outcome := by
    rw [← outcome_mapEvents Event.shown r, h, outcome_mapEvents]
  refine ⟨houtcome, ?_, congrArg DiagnosticLog.mk (hdrawn _ fun e => ?_), hdrawn _ fun e => ?_,
    hdrawn _ fun e => ?_⟩
  · unfold Run.output
    rw [hwritten, ← List.map_map, ← List.map_map, hevents]
  · cases e <;> rfl
  · cases e <;> rfl
  · cases e <;> rfl

/-- As long as `P` holds of all that the run `r` does, the run `s` shows the same, and `Q` holds of
the result. -/
def Follows (P : Event → Prop) (Q : α → Prop) (r s : Run α) : Prop :=
  (∀ e ∈ r.events, P e) →
    r.mapEvents Event.shown = s.mapEvents Event.shown ∧ ∀ a, r.outcome = .done a → Q a

namespace Follows

variable {P : Event → Prop} {Q : α → Prop} {R : β → Prop}

lemma refl {r : Run α} (h : ∀ a, r.outcome = .done a → Q a) : Follows P Q r r :=
  fun _ => ⟨rfl, h⟩

lemma emit {e e' : Event} (h : e.shown = e'.shown) :
    Follows P (fun _ => True) (Run.emit e) (Run.emit e') :=
  fun _ => ⟨by simp [mapEvents, Run.emit, h], fun _ _ => trivial⟩

/-- **Runs in sequence.** The second one is only asked for if the first one has a result. -/
lemma bind {r s : Run α} {f g : α → Run β} (hrs : Follows P Q r s)
    (hfg : ∀ a, Q a → Follows P R (f a) (g a)) : Follows P R (r >>= f) (s >>= g) := by
  intro hP
  have hfirst : ∀ e ∈ r.events, P e := by
    intro e he
    refine hP e ?_
    cases hr : r.outcome with
    | done a => rw [bind_of_done hr]; exact List.mem_append_left _ he
    | failed error => rw [bind_of_failed hr]; exact he
    | exhausted => rw [bind_of_exhausted hr]; exact he
  obtain ⟨hshown, hQ⟩ := hrs hfirst
  have hnext : ∀ a, r.outcome = .done a →
      (f a).mapEvents Event.shown = (g a).mapEvents Event.shown ∧
        ∀ b, (f a).outcome = .done b → R b := by
    refine fun a ha => hfg a (hQ a ha) fun e he => hP e ?_
    rw [bind_of_done ha]
    exact List.mem_append_right _ he
  constructor
  · rw [mapEvents_bind, mapEvents_bind, ← hshown]
    exact bind_congr_done fun a ha => (hnext a ha).1
  · intro b hb
    obtain ⟨a, ha, hb⟩ := bind_outcome_done_iff.1 hb
    exact (hnext a ha).2 b hb

lemma flatMap {f g : α → Run (List β)} {as : List α}
    (h : ∀ a ∈ as, Follows P (fun bs => ∀ b ∈ bs, R b) (f a) (g a)) :
    Follows P (fun bs => ∀ b ∈ bs, R b) (Run.flatMap f as) (Run.flatMap g as) := by
  induction as with
  | nil =>
    rw [flatMap_nil, flatMap_nil]
    refine refl fun bs hbs => ?_
    cases hbs
    simp
  | cons a as ih =>
    obtain ⟨ha, has⟩ := List.forall_mem_cons.1 h
    rw [flatMap_cons, flatMap_cons]
    refine ha.bind fun bs hbs => (ih has).bind fun rest hrest => refl fun cs hcs => ?_
    cases hcs
    exact List.forall_mem_append.2 ⟨hbs, hrest⟩

lemma forM {S : α → α → Prop} {f g : α → Run Unit} {as bs : List α} (h : List.Forall₂ S as bs)
    (hfg : ∀ a b, S a b → Follows P (fun _ => True) (f a) (g b)) :
    Follows P (fun _ => True) (as.forM f) (bs.forM g) := by
  induction h with
  | nil => exact refl fun _ _ => trivial
  | cons hab _ ih =>
    rw [forM_cons, forM_cons]
    exact (hfg _ _ hab).bind fun _ _ => ih

lemma between {before after : Event} {r s : Run α} (h : P before → Follows P Q r s) :
    Follows P Q (r.between before after) (s.between before after) := by
  intro hP
  obtain ⟨hbefore, hrest⟩ := List.forall_mem_cons.1 hP
  obtain ⟨hshown, hQ⟩ := h hbefore (List.forall_mem_append.1 hrest).1
  have hevents : r.events.map Event.shown = s.events.map Event.shown := congrArg Run.events hshown
  have houtcome : r.outcome = s.outcome := by
    rw [← outcome_mapEvents Event.shown r, hshown, outcome_mapEvents]
  exact ⟨by simp [mapEvents, Run.between, hevents, houtcome], hQ⟩

end Follows

end Run

/-! ### Rendering in scopes that agree -/

namespace Setting

variable (set : Setting) {keys : List String} {s s' : Scope}

/-- What is put in has only tags that are looked up by the given keys. -/
def EntersOnly (keys : List String) : Event → Prop
  | .enter _ text => Token.allKeys (Token.ofText set.delimiters 0 text) ⊆ keys
  | _ => True

lemma partialText_eq_of_same (tag : Tag) {v w : Value} (h : v.same w = true) :
    set.partialText tag v = set.partialText tag w :=
  Value.congr_of_same (f := set.partialText tag) (fun _ _ => rfl) (fun _ _ => rfl) h

lemma expandToken_follows (hs : s.AgreesOn keys s') {f g : Tag → String → Run (List Token)}
    (hfg : ∀ tag text, (f tag text).Follows (set.EntersOnly keys)
      (fun us => ∀ u ∈ us, u.keys ⊆ keys) (g tag text)) {t : Token} (ht : t.keys ⊆ keys) :
    Run.Follows (set.EntersOnly keys) (fun us => ∀ u ∈ us, u.keys ⊆ keys)
      (set.expandToken s f t) (set.expandToken s' g t) := by
  have kept : (pure [t] : Run (List Token)).Follows (set.EntersOnly keys)
      (fun us => ∀ u ∈ us, u.keys ⊆ keys) (pure [t]) := by
    refine .refl fun us hus => ?_
    cases hus
    exact List.forall_mem_singleton.2 ht
  cases t with
  | text content span => exact kept
  | tag tag =>
    dsimp only [expandToken]
    by_cases hr : tag.role = .includes
    · rw [if_pos hr, if_pos hr]
      generalize s.resolve tag.name = v, s'.resolve tag.name = w, hs.resolve ht = hrel
      cases hrel with
      | none => exact kept
      | @some v w hvw =>
        dsimp only
        rw [set.partialText_eq_of_same tag hvw.2]
        refine Run.Follows.bind (Q := fun _ => True) (.refl fun _ _ => trivial) fun text _ => ?_
        cases text with
        | none =>
          refine .refl fun us hus => ?_
          cases hus
          simp
        | some text => exact hfg tag text
    · rw [if_neg hr, if_neg hr]
      exact kept

/-- **Expansion in scopes that agree.** What comes out has only tags that are looked up by the given
keys, if this is so of the tokens and of all texts that are put in.

**Proof sketch.** Induction on how deep partials may include partials. -/
lemma expandTo_follows (hs : s.AgreesOn keys s') (depth : Nat) {ts : List Token}
    (hts : ∀ t ∈ ts, t.keys ⊆ keys) :
    Run.Follows (set.EntersOnly keys) (fun us => ∀ u ∈ us, u.keys ⊆ keys)
      (set.expandTo s depth ts) (set.expandTo s' depth ts) := by
  induction depth generalizing ts with
  | zero =>
    rw [expandTo_eq, expandTo_eq]
    refine .flatMap fun t ht => set.expandToken_follows hs (fun tag text => ?_) (hts t ht)
    exact .refl fun us hus => by cases hus
  | succ depth ih =>
    rw [expandTo_eq, expandTo_eq]
    refine .flatMap fun t ht => set.expandToken_follows hs (fun tag text => ?_) (hts t ht)
    refine .between fun hentered => ih ?_
    rw [← Token.allKeys_subset_iff, Token.allKeys_ofText _ _ 0]
    exact hentered

lemma renderNode_follows (hs : s.AgreesOn keys s') {f g : TokenRange → Scope → Run Unit}
    {tokens : List Token} {nodes : List Node} (hnodes : Node.ofTokens tokens = .ok nodes)
    (htokens : ∀ t ∈ tokens, t.keys ⊆ keys)
    (hfg : ∀ inner s s', Scope.AgreesOn keys s s' →
      (f inner s).Follows (set.EntersOnly keys) (fun _ => True) (g inner s'))
    {n : Node} (hn : n ∈ nodes) :
    Run.Follows (set.EntersOnly keys) (fun _ => True) (set.renderNode (fun _ => f) s n)
      (set.renderNode (fun _ => g) s' n) := by
  have hread := Node.readIn_all hnodes
  cases n with
  | text content span => exact .refl fun _ _ => trivial
  | inclusion name span => exact .refl fun _ _ => trivial
  | value name raw span =>
    obtain ⟨u, hu, -, rfl, -, -⟩ := Node.fromTag_of_readFrom hread.read _ hn
    rw [TokenRange.slice_all] at hu
    simp only [renderNode]
    generalize s.resolve u.name = v, s'.resolve u.name = w, hs.resolve (htokens _ hu) = hrel
    cases hrel with
    | none => exact .refl fun _ _ => trivial
    | some hvw => exact .emit (congrArg Event.text (Value.display_eq_of_same hvw.2))
  | block kind name span inner body =>
    obtain ⟨-, before, opener, closer, after, hsplit, -, rfl, -⟩ := hread.block hn
    rw [TokenRange.slice_all] at hsplit
    have hopener : Token.tag opener ∈ tokens := by
      rw [hsplit]
      simp
    simp only [renderNode]
    generalize s.resolve opener.name = v, s'.resolve opener.name = w,
      hs.resolve (htokens _ hopener) = hrel
    cases hrel with
    | none => exact .refl fun _ _ => trivial
    | some hvw => exact .forM (hvw.scopes hs kind) fun s s' hss => hfg inner s s' hss

/-- **Rendering in scopes that agree**, where bodies of blocks are rendered alike. -/
lemma renderAnewWith_follows {f g : List Token → Scope → Run Unit}
    (hfg : ∀ ts s s', Scope.AgreesOn keys s s' → (∀ t ∈ ts, t.keys ⊆ keys) →
      (f ts s).Follows (set.EntersOnly keys) (fun _ => True) (g ts s'))
    (hs : s.AgreesOn keys s') {ts : List Token} (hts : ∀ t ∈ ts, t.keys ⊆ keys) :
    Run.Follows (set.EntersOnly keys) (fun _ => True) (set.renderAnewWith f ts s)
      (set.renderAnewWith g ts s') := by
  refine (set.expandTo_follows hs _ hts).bind fun expanded hexpanded => ?_
  refine Run.Follows.bind (Q := fun nodes => Node.ofTokens expanded = .ok nodes) ?_ ?_
  · cases hn : Node.ofTokens expanded with
    | ok nodes => exact .refl fun _ h => by cases h; rfl
    | error e => exact .refl fun _ h => by cases h
  · intro nodes hnodes
    refine .forM (S := fun n m => n = m ∧ n ∈ nodes) (List.forall₂_same.2 fun n hn => ⟨rfl, hn⟩) ?_
    rintro n _ ⟨rfl, hn⟩
    refine set.renderNode_follows hs hnodes hexpanded (fun inner s s' hss => ?_) hn
    refine hfg _ s s' hss fun t ht => hexpanded t ?_
    exact List.mem_of_mem_drop (List.mem_of_mem_take ht)

/-- **Rendering in scopes that agree** shows the same, with every grant, as long as all tags are
looked up by keys that the scopes agree on. -/
theorem renderAnew_follows (depth : Nat) (hs : s.AgreesOn keys s') {ts : List Token}
    (hts : ∀ t ∈ ts, t.keys ⊆ keys) :
    Run.Follows (set.EntersOnly keys) (fun _ => True) (set.renderAnew depth ts s)
      (set.renderAnew depth ts s') := by
  induction depth generalizing ts s s' with
  | zero =>
    exact set.renderAnewWith_follows (f := fun _ _ => Run.exhausted) (g := fun _ _ => Run.exhausted)
      (fun _ _ _ _ _ => .refl fun _ _ => trivial) hs hts
  | succ depth ih =>
    exact set.renderAnewWith_follows (f := set.renderAnew depth) (g := set.renderAnew depth)
      (fun _ _ _ hss hbody => ih hss hbody) hs hts

end Setting

/-! ### Whole templates -/

namespace Template

/-- The keys that the tags of a rendering are looked up by: those of the template, and of the texts
that are put in for partials. -/
def relevantKeys (t : Template) (r : Run Unit) : List String :=
  Token.allKeys t.tokens ++
    r.partialTexts.flatMap fun text => Token.allKeys (Token.ofText t.delimiters 0 text)

/-- Nothing is put in whose tags are looked up by other keys. -/
lemma entersOnly_relevantKeys (t : Template) (loader : Loader) (options : Options) (r : Run Unit) :
    ∀ e ∈ r.events, (t.setting loader options).EntersOnly (t.relevantKeys r) e := by
  intro e he
  cases e with
  | enter tag text =>
    have htext : text ∈ r.partialTexts := List.mem_filterMap.2 ⟨_, he, rfl⟩
    intro key hkey
    exact List.mem_append_right _ (List.mem_flatMap.2 ⟨text, htext, hkey⟩)
  | text content => trivial
  | value v => trivial
  | warning w span => trivial
  | load id => trivial
  | leave => trivial

/-- **Contexts that agree on the keys of a rendering** are rendered alike. -/
lemma showsSame_of_agreesOn {d : Delimiters} {source : String} {t : Template}
    (h : compileWith d source = .ok t) {context context' : Context} {loader : Loader}
    {options : Options} {depth : Nat}
    (hs : (Scope.root context).AgreesOn (t.relevantKeys (t.run context loader options depth))
      (Scope.root context')) :
    (t.run context loader options depth).ShowsSame (t.run context' loader options depth) := by
  obtain ⟨rfl, htokens, -⟩ := of_compileWith h
  have htags : ∀ u ∈ Token.ofText t.delimiters 0 source,
      u.keys ⊆ t.relevantKeys (t.run context loader options depth) := by
    rw [← Token.allKeys_subset_iff, ← htokens]
    exact List.subset_append_left _ _
  have hfollows := (t.setting loader options).renderAnew_follows depth hs htags
  rw [setting, ← run_eq_renderAnew h, ← run_eq_renderAnew h] at hfollows
  exact .of_mapEvents_shown (hfollows (t.entersOnly_relevantKeys loader options _)).1

/-- **A rendering depends only on the values that its tags can look up.**

Take the keys that are the name of a tag or the first part of one, in the template or in a text that
the rendering puts in. If another context has values under the same ones of these keys, and they are
equal up to the order of entries, then it is rendered in the same way: with the same output,
diagnostics and texts asked for, with the same end, and with the same texts put in. So a rendering
does not depend on the order of entries at any depth, nor on entries whose keys are none of these.

**Proof sketch.** The scopes in which bodies are rendered agree on the keys in question: the
contexts laid over the first one are equal, and names lead to equal values. So the same tags have
values, the same texts are put in, and no other keys come up. -/
theorem renders_by_relevant_keys {d : Delimiters} {source : String} {t : Template}
    (h : compileWith d source = .ok t) {context : Context} (hdistinct : context.Distinct)
    (loader : Loader) (options : Options) (depth : Nat) :
    let r := t.run context loader options depth
    (∀ context', (∀ key ∈ t.relevantKeys r, Option.Rel (fun v w => v.same w = true)
        (context.get? key) (context'.get? key)) →
      r.ShowsSame (t.run context' loader options depth)) ∧
    (∀ context', context.same context' = true →
      r.ShowsSame (t.run context' loader options depth)) ∧
    ∀ key value, key ∉ t.relevantKeys r →
      r.ShowsSame (t.run (context.insert key value) loader options depth) := by
  intro r
  refine ⟨fun context' hsame => showsSame_of_agreesOn h fun key hkey => ?_,
    fun context' hsame => showsSame_of_agreesOn h fun key _ => ?_,
    fun key value hkey => showsSame_of_agreesOn h fun other hother => ?_⟩
  · rw [Scope.get?_root, Scope.get?_root]
    have hrel := hsame key hkey
    cases hv : context.get? key with
    | none =>
      rw [hv] at hrel
      generalize context'.get? key = w at hrel
      cases hrel
      exact .none
    | some v =>
      rw [hv] at hrel
      generalize context'.get? key = w at hrel
      cases hrel with
      | some hvw => exact .some ⟨hdistinct.get? hv, hvw⟩
  · rw [Scope.get?_root, Scope.get?_root]
    exact Context.rel_get? hdistinct hsame key
  · have hne : other ≠ key := by
      rintro rfl
      exact hkey hother
    rw [Scope.get?_root, Scope.get?_root, Context.get?_insert, if_neg hne]
    cases hv : context.get? other with
    | none => exact .none
    | some v => exact .some ⟨hdistinct.get? hv, v.same_self (hdistinct.get? hv)⟩

/-- A case where the entries stand in another order, in the context and inside its values, and there
is one more of them. -/
theorem renders_by_relevant_keys_of_other_order :
    ∃ t, compileWith .standard "{{#l}}{{a.b}}{{>p}}{{/l}}" = .ok t ∧
      let context := Context.ofList
        [("l", .list [.ofList [("x", .scalar "1"), ("y", .bool true)]]),
          ("a", .map (.ofList [("b", .scalar "2"), ("c", .bool false)])), ("p", .inline "{{x}}")]
      let context' := Context.ofList
        [("p", .inline "{{x}}"), ("y", .scalar "3"),
          ("a", .map (.ofList [("c", .bool false), ("b", .scalar "2")])),
          ("l", .list [.ofList [("y", .bool true), ("x", .scalar "1")]])]
      context.Distinct ∧ (t.run context Loader.empty {} 1).ShowsSame
        (t.run context' Loader.empty {} 1) := by
  obtain ⟨t, h⟩ := exists_of_isOk (show
    (compileWith .standard "{{#l}}{{a.b}}{{>p}}{{/l}}").isOk = true by decide +kernel)
  refine ⟨t, h, ?_⟩
  intro context context'
  have hdistinct : context.Distinct := by
    have hitem : (Context.ofList [("x", .scalar "1"), ("y", .bool true)]).Distinct :=
      Context.distinct_ofList (by simp [Value.Distinct])
    have hmap : (Context.ofList [("b", .scalar "2"), ("c", .bool false)]).Distinct :=
      Context.distinct_ofList (by simp [Value.Distinct])
    exact Context.distinct_ofList
      (by simp [Value.Distinct, Context.DistinctItems, hitem, hmap])
  have hkeys : ∀ key ∈ t.relevantKeys (t.run context Loader.empty {} 1),
      key ∈ ["l", "a.b", "a", "p", "x"] := by
    rw [relevantKeys, run_eq_renderAnew h, (of_compileWith h).1, (of_compileWith h).2.1]
    decide +kernel
  refine ⟨hdistinct, (renders_by_relevant_keys h hdistinct Loader.empty {} 1).1 context' ?_⟩
  have hsame : ∀ key ∈ ["l", "a.b", "a", "p", "x"], Option.Rel (fun v w => v.same w = true)
      (context.get? key) (context'.get? key) :=
    List.forall_mem_cons.2 ⟨.some (by decide +kernel), List.forall_mem_cons.2 ⟨.none,
      List.forall_mem_cons.2 ⟨.some (by decide +kernel), List.forall_mem_cons.2
        ⟨.some (by decide +kernel), List.forall_mem_singleton.2 .none⟩⟩⟩⟩
  exact fun key hkey => hsame key (hkeys key hkey)

end Template

end Stencil
