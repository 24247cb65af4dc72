import Stencil.Proofs.Levels

set_option relaxedAutoImplicit false
set_option autoImplicit false

/-!
# The full expansion of partials

Partials are like macros without arguments: each one stands for the tokens of its text, these may
hold partials again, and so on. What the tokens come to in the end does not depend on any limit; the
limit only decides whether the end is reached. It is not reached if more partials lie inside one
another than may. Of all ways to go that far down, the expansion takes the leftmost one, since it
goes from left to right and does not come to a second one.

A way down is told by the positions of its partials: that of the first one among the tokens, then
that of the next one among the tokens of the text of the first one, and so on. Of two ways the one
further to the left comes first in the lexicographic order.

## Main definitions

* `Stencil.Setting.Descent` — a way down along partials that lie inside one another.
* `Stencil.Setting.FirstDescent` — the leftmost of the ways down that are equally long.
* `Stencil.Setting.FullyExpands` — what tokens come to when all partials in them are replaced.

## Main results

* `Stencil.Setting.FirstDescent.unique` — there is only one leftmost way down.
* `Stencil.Setting.FullyExpands.unique` — tokens come to one thing only.
* `Stencil.Setting.exists_firstDescent_of_failed` — an expansion fails at the leftmost way down.
* `Stencil.Setting.fullyExpands_of_expandTo_done` — an expansion with a result is a full one.
* `Stencil.Setting.expand_is_full` — all this for the limit of a rendering.
-/

namespace Stencil

namespace Setting

variable {set : Setting} {scope : Scope}

/-! ### Ways down -/

/-- A way down along partials that lie inside one another and whose texts can be had: the first one
is at a position of the tokens, each other one at a position of the tokens of the text of the one
before. The tag is that of the last one. -/
inductive Descent (set : Setting) (scope : Scope) : List Token → List Nat → Tag → Prop where
  | last {ts : List Token} {i : Nat} {tag : Tag} {text : String} (hi : ts[i]? = some (.tag tag))
    (htext : set.HasText scope tag text) : Descent set scope ts [i] tag
  | more {ts : List Token} {i : Nat} {tag last : Tag} {text : String} {path : List Nat}
    (hi : ts[i]? = some (.tag tag)) (htext : set.HasText scope tag text)
    (h : Descent set scope (Token.ofText set.delimiters (tag.level + 1) text) path last) :
    Descent set scope ts (i :: path) last

/-- A way down along `n` partials, and no other one along as many is further to the left. -/
structure FirstDescent (set : Setting) (scope : Scope) (n : Nat) (ts : List Token) (path : List Nat)
    (last : Tag) : Prop where
  descent : set.Descent scope ts path last
  length_eq : path.length = n
  le : ∀ path' last', set.Descent scope ts path' last' → path'.length = n → path ≤ path'

namespace Descent

lemma ne_nil {ts : List Token} {path : List Nat} {last : Tag} (h : set.Descent scope ts path last) :
    path ≠ [] := by
  cases h <;> exact List.cons_ne_nil _ _

/-- There is a partial at the first position. -/
lemma exists_tag {ts : List Token} {i : Nat} {path : List Nat} {last : Tag}
    (h : set.Descent scope ts (i :: path) last) :
    ∃ tag text, ts[i]? = some (.tag tag) ∧ set.HasText scope tag text ∧
      (path ≠ [] → set.Descent scope (Token.ofText set.delimiters (tag.level + 1) text) path last) ∧
        (path = [] → last = tag) := by
  cases h with
  | last hi htext => exact ⟨_, _, hi, htext, fun hne => absurd rfl hne, fun _ => rfl⟩
  | more hi htext h => exact ⟨_, _, hi, htext, fun _ => h, fun hnil => absurd hnil h.ne_nil⟩

/-- **The positions tell the partials.** -/
theorem unique {ts : List Token} {path : List Nat} {last last' : Tag}
    (h : set.Descent scope ts path last) (h' : set.Descent scope ts path last') : last = last' := by
  induction h with
  | last hi htext =>
    obtain ⟨tag', text', hi', -, -, hlast⟩ := h'.exists_tag
    rw [hi] at hi'
    cases hi'
    exact (hlast rfl).symm
  | more hi htext h ih =>
    obtain ⟨tag', text', hi', htext', hmore, -⟩ := h'.exists_tag
    rw [hi] at hi'
    cases hi'
    cases htext.unique htext'
    exact ih (hmore h.ne_nil)

/-- A way down that begins in the first part of a list is one of that part. -/
lemma of_append {before after : List Token} {i : Nat} {path : List Nat} {last : Tag}
    (h : set.Descent scope (before ++ after) (i :: path) last) (hi : i < before.length) :
    set.Descent scope before (i :: path) last := by
  cases h with
  | last hget htext =>
    rw [List.getElem?_append_left hi] at hget
    exact .last hget htext
  | more hget htext h =>
    rw [List.getElem?_append_left hi] at hget
    exact .more hget htext h

/-- The partials of a way down lie inside one another. -/
lemma exists_chain {ts : List Token} {path : List Nat} {last : Tag}
    (h : set.Descent scope ts path last) {n : Nat} (hn : path.length = n + 1) :
    ∃ u ∈ ts, set.Chain scope n u := by
  induction h generalizing n with
  | last hi htext =>
    obtain ⟨hr, value, hv, htext⟩ := htext
    obtain rfl : n = 0 := by simpa using hn.symm
    exact ⟨_, List.mem_of_getElem? hi, .last hr hv htext⟩
  | @more ts i tag last text path hi htext h ih =>
    obtain ⟨hr, value, hv, htext⟩ := htext
    rw [List.length_cons, Nat.add_right_cancel_iff] at hn
    have hpos : 0 < path.length := List.length_pos_of_ne_nil h.ne_nil
    obtain ⟨m, rfl⟩ : ∃ m, n = m + 1 := ⟨n - 1, by omega⟩
    obtain ⟨u, hu, hchain⟩ := ih hn
    exact ⟨_, List.mem_of_getElem? hi, .more hr hv htext hu hchain⟩

/-- An expansion with a result has no way down that is longer than it may be. -/
lemma length_ne_of_done {depth : Nat} {ts us : List Token} {path : List Nat} {last : Tag}
    (h : set.Descent scope ts path last)
    (hdone : (set.expandTo scope depth ts).outcome = .done us) :
    path.length ≠ depth + 1 := by
  intro hlength
  obtain ⟨u, hu, hchain⟩ := h.exists_chain hlength
  obtain ⟨e, hfailed⟩ := exists_failed_of_chain hu hchain
  rw [hdone] at hfailed
  cases hfailed

end Descent

/-- **There is only one leftmost way down.** -/
theorem FirstDescent.unique {n : Nat} {ts : List Token} {path path' : List Nat} {last last' : Tag}
    (h : set.FirstDescent scope n ts path last) (h' : set.FirstDescent scope n ts path' last') :
    path = path' ∧ last = last' := by
  have hpath : path = path' := by
    apply le_antisymm
    · exact h.le path' last' h'.descent h'.length_eq
    · exact h'.le path last h.descent h.length_eq
  subst hpath
  exact ⟨rfl, h.descent.unique h'.descent⟩

/-! ### Where an expansion fails -/

/-- A position after which nothing can be further to the left: no way down of this length begins
before it, and of those that begin at it the given one is leftmost. -/
lemma le_of_before {before after : List Token} {t : Token} {path : List Nat} {n : Nat}
    (hbefore : ∀ path' last', set.Descent scope before path' last' → path'.length ≠ n + 1)
    (hat : ∀ path' last', set.Descent scope (before ++ t :: after) (before.length :: path') last' →
      path'.length = n → path ≤ path') :
    ∀ path' last', set.Descent scope (before ++ t :: after) path' last' → path'.length = n + 1 →
      before.length :: path ≤ path' := by
  intro path' last' h hlength
  cases path' with
  | nil => exact absurd rfl h.ne_nil
  | cons i path' =>
    rcases Nat.lt_trichotomy i before.length with hi | rfl | hi
    · exact absurd hlength (hbefore _ _ (h.of_append hi))
    · exact List.cons_le_cons _ (hat path' last' h (Nat.succ.inj hlength))
    · exact le_of_lt (List.Lex.rel hi)

/-- **An expansion fails at the leftmost way down** that is longer than it may be, with the name of
its last partial.

**Proof sketch.** Induction on how deep partials may include partials. The tokens before the one
that fails have a result, so no way down that is too long begins there. The token that fails is a
partial, and the way goes on in its text, where the induction hypothesis has the leftmost one. -/
theorem exists_firstDescent_of_failed (hlenient : set.options.strict = false) {depth : Nat}
    {ts : List Token} {e : Error} (h : (set.expandTo scope depth ts).outcome = .failed e) :
    ∃ path last, set.FirstDescent scope (depth + 1) ts path last ∧
      e = .recursivePartial last.name set.options.maxPartialDepth := by
  -- no way down that is long enough begins before the partial that fails
  have hsplit : ∀ {depth : Nat} {ts : List Token},
      (set.expandTo scope depth ts).outcome = .failed e →
      ∃ before tag text after, ts = before ++ .tag tag :: after ∧ set.HasText scope tag text ∧
        (set.included scope depth tag text).outcome = .failed e ∧
        ∀ path last, set.Descent scope before path last → path.length ≠ depth + 1 := by
    intro depth ts h
    rcases set.expandTo_failed h with ⟨hstrict, -⟩ |
      ⟨before, tag, text, after, us, hts, hbefore, htext, hincluded⟩
    · rw [hlenient] at hstrict
      cases hstrict
    · refine ⟨before, tag, text, after, hts, htext, hincluded, fun path last hdescent => ?_⟩
      exact hdescent.length_ne_of_done hbefore
  induction depth generalizing ts with
  | zero =>
    obtain ⟨before, tag, text, after, rfl, htext, hincluded, hbefore⟩ := hsplit h
    have hfirst : set.FirstDescent scope 1 (before ++ .tag tag :: after) [before.length] tag := by
      refine ⟨.last (by simp) htext, rfl, le_of_before hbefore fun path' last' _ hlength => ?_⟩
      rw [List.length_eq_zero_iff] at hlength
      rw [hlength]
    cases hincluded
    exact ⟨_, _, hfirst, rfl⟩
  | succ depth ih =>
    obtain ⟨before, tag, text, after, rfl, htext, hincluded, hbefore⟩ := hsplit h
    have hinner : (set.expandTo scope depth
        (Token.ofText set.delimiters (tag.level + 1) text)).outcome = .failed e := hincluded
    obtain ⟨path, last, hfirst, rfl⟩ := ih hinner
    refine ⟨before.length :: path, last, ⟨.more (by simp) htext hfirst.descent, ?_, ?_⟩, rfl⟩
    · rw [List.length_cons, hfirst.length_eq]
    · refine le_of_before hbefore fun path' last' hd hlength => ?_
      obtain ⟨tag', text', hget, htext', hmore, -⟩ := hd.exists_tag
      obtain rfl : tag = tag' := by simpa using hget
      cases htext.unique htext'
      have hne : path' ≠ [] := by
        rintro rfl
        cases hlength
      exact hfirst.le path' last' (hmore hne) hlength

/-! ### The result of an expansion -/

/-- **What tokens come to when all partials in them are replaced**, with the diagnostics that are
given on the way. A token that is no partial with a value stays. A partial whose text can be had is
replaced, in its place, by what the tokens of its text come to. A partial whose text cannot be
loaded is removed, with one diagnostic. -/
inductive FullyExpands (set : Setting) (scope : Scope) :
    List Token → List Token → List Diagnostic → Prop where
  | nil : FullyExpands set scope [] [] []
  | kept {t : Token} {ts us : List Token} {ds : List Diagnostic}
    (ht : ∀ name ∈ t.partial?, scope.resolve name = none) (h : FullyExpands set scope ts us ds) :
    FullyExpands set scope (t :: ts) (t :: us) ds
  | replaced {tag : Tag} {text : String} {inner ts us : List Token} {ds ds' : List Diagnostic}
    (htext : set.HasText scope tag text)
    (hinner : FullyExpands set scope (Token.ofText set.delimiters (tag.level + 1) text) inner ds)
    (h : FullyExpands set scope ts us ds') :
    FullyExpands set scope (.tag tag :: ts) (inner ++ us) (ds ++ ds')
  | removed {tag : Tag} {cause : LoadError} {ts us : List Token} {ds : List Diagnostic}
    (hun : set.Unavailable scope tag cause) (h : FullyExpands set scope ts us ds) :
    FullyExpands set scope (.tag tag :: ts) us
      ((Warning.partialUnavailable tag.name cause).diagnose tag.span :: ds)

/-- **Tokens come to one thing only**, with the same diagnostics. -/
theorem FullyExpands.unique {ts us us' : List Token} {ds ds' : List Diagnostic}
    (h : set.FullyExpands scope ts us ds) (h' : set.FullyExpands scope ts us' ds') :
    us = us' ∧ ds = ds' := by
  induction h generalizing us' ds' with
  | nil =>
    cases h'
    exact ⟨rfl, rfl⟩
  | kept ht _ ih =>
    cases h' with
    | kept _ h' =>
      obtain ⟨rfl, rfl⟩ := ih h'
      exact ⟨rfl, rfl⟩
    | replaced htext _ _ => exact absurd ht htext.bound
    | removed hun _ => exact absurd ht hun.bound
  | replaced htext _ _ ihinner ih =>
    cases h' with
    | kept ht _ => exact absurd ht htext.bound
    | replaced htext' hinner' h' =>
      cases htext.unique htext'
      obtain ⟨rfl, rfl⟩ := ihinner hinner'
      obtain ⟨rfl, rfl⟩ := ih h'
      exact ⟨rfl, rfl⟩
    | removed hun _ => exact absurd hun htext.not_unavailable
  | removed hun _ ih =>
    cases h' with
    | kept ht _ => exact absurd ht hun.bound
    | replaced htext _ _ => exact absurd hun htext.not_unavailable
    | removed hun' h' =>
      cases hun.unique hun'
      obtain ⟨rfl, rfl⟩ := ih h'
      exact ⟨rfl, rfl⟩

/-- No partial that is left has a value. -/
theorem FullyExpands.unbound {ts us : List Token} {ds : List Diagnostic}
    (h : set.FullyExpands scope ts us ds) :
    ∀ name ∈ Token.partials us, scope.resolve name = none := by
  have hunbound : ∀ u ∈ us, ∀ name ∈ u.partial?, scope.resolve name = none := by
    induction h with
    | nil => simp
    | kept ht _ ih => exact List.forall_mem_cons.2 ⟨ht, ih⟩
    | replaced _ _ _ ihinner ih => exact List.forall_mem_append.2 ⟨ihinner, ih⟩
    | removed _ _ ih => exact ih
  intro name hname
  obtain ⟨u, hu, hname⟩ := List.mem_filterMap.1 hname
  exact hunbound u hu name hname

/-- **An expansion with a result is a full one.**

**Proof sketch.** Induction on how deep partials may include partials. For each depth the tokens are
gone through one by one. -/
theorem fullyExpands_of_expandTo_done (hlenient : set.options.strict = false) {depth : Nat}
    {ts us : List Token} (h : (set.expandTo scope depth ts).outcome = .done us) :
    set.FullyExpands scope ts us (set.expandTo scope depth ts).diagnostics.diagnostics := by
  have list : ∀ depth, (∀ tag text us, (set.included scope depth tag text).outcome = .done us →
        set.FullyExpands scope (Token.ofText set.delimiters (tag.level + 1) text) us
          (set.included scope depth tag text).diagnostics.diagnostics) →
      ∀ ts us, (set.expandTo scope depth ts).outcome = .done us →
        set.FullyExpands scope ts us (set.expandTo scope depth ts).diagnostics.diagnostics := by
    intro depth hincluded ts
    induction ts with
    | nil =>
      intro us h
      rw [expandTo_nil] at h ⊢
      cases h
      exact .nil
    | cons t ts ih =>
      intro us h
      rw [expandTo_cons] at h ⊢
      obtain ⟨vs, hvs, h⟩ := Run.bind_outcome_done_iff.1 h
      obtain ⟨rest, hrest, h⟩ := Run.bind_outcome_done_iff.1 h
      cases h
      have hlog : (pure (vs ++ rest) : Run (List Token)).diagnostics.diagnostics = [] := rfl
      rw [Run.diagnostics_bind hvs, Run.diagnostics_bind hrest, hlog, List.append_nil]
      rcases set.token_cases scope t with hu | ⟨tag, text, rfl, htext⟩ | ⟨tag, cause, rfl, hun⟩
      · rw [set.expandToken_of_unbound hu] at hvs ⊢
        cases hvs
        exact .kept hu (ih rest hrest)
      · obtain ⟨houtcome, hdiagnostics⟩ := htext.expandToken (set.included scope depth)
        rw [houtcome] at hvs
        rw [hdiagnostics]
        exact .replaced htext (hincluded tag text vs hvs) (ih rest hrest)
      · obtain ⟨houtcome, hdiagnostics⟩ :=
          hun.expandToken hlenient (set.included scope depth)
        rw [houtcome] at hvs
        cases hvs
        rw [hdiagnostics]
        exact .removed hun (ih rest hrest)
  induction depth generalizing ts us with
  | zero => exact list 0 (fun tag text us h => by cases h) ts us h
  | succ depth ih =>
    refine list (depth + 1) (fun tag text us h => ?_) ts us h
    have hlog := (set.expandTo scope depth
      (Token.ofText set.delimiters (tag.level + 1) text)).diagnostics_between tag text
    rw [included, hlog]
    exact ih h

/-! ### The expansion of a rendering -/

/-- **An expansion replaces all partials, or fails at the leftmost way too far down.**

It fails exactly if there is a way down along one partial more than may lie inside one another, and
then with the name of the last partial of the leftmost such way. Otherwise its result is what the
tokens come to when all partials are replaced, with the diagnostics that belong to that. No partial
that is left has a value, so a second expansion changes nothing, loads nothing and diagnoses
nothing. -/
theorem expand_is_full (hlenient : set.options.strict = false) (ts : List Token) :
    ((∃ e, (set.expand scope ts).outcome = .failed e) ↔
      ∃ path last, set.Descent scope ts path last ∧
        path.length = set.options.maxPartialDepth + 1) ∧
    (∀ e, (set.expand scope ts).outcome = .failed e ↔
      ∃ path last, set.FirstDescent scope (set.options.maxPartialDepth + 1) ts path last ∧
        e = .recursivePartial last.name set.options.maxPartialDepth) ∧
    ((∀ path last, set.Descent scope ts path last →
        path.length ≠ set.options.maxPartialDepth + 1) →
      ∃ us, (set.expand scope ts).outcome = .done us ∧
        set.FullyExpands scope ts us (set.expand scope ts).diagnostics.diagnostics ∧
        (∀ name ∈ Token.partials us, scope.resolve name = none) ∧
        set.expand scope us = pure us) := by
  have hfirst : ∀ e, (set.expand scope ts).outcome = .failed e →
      ∃ path last, set.FirstDescent scope (set.options.maxPartialDepth + 1) ts path last ∧
        e = .recursivePartial last.name set.options.maxPartialDepth :=
    fun e he => exists_firstDescent_of_failed hlenient he
  have hfails : ∀ path last, set.Descent scope ts path last →
      path.length = set.options.maxPartialDepth + 1 →
        ∃ e, (set.expand scope ts).outcome = .failed e := by
    intro path last hdescent hlength
    obtain ⟨u, hu, hchain⟩ := hdescent.exists_chain hlength
    exact exists_failed_of_chain hu hchain
  refine ⟨⟨?_, ?_⟩, fun e => ⟨hfirst e, ?_⟩, fun hnone => ?_⟩
  · rintro ⟨e, he⟩
    obtain ⟨path, last, h, -⟩ := hfirst e he
    exact ⟨path, last, h.descent, h.length_eq⟩
  · rintro ⟨path, last, hdescent, hlength⟩
    exact hfails path last hdescent hlength
  · rintro ⟨path, last, h, rfl⟩
    obtain ⟨e, he⟩ := hfails path last h.descent h.length_eq
    obtain ⟨path', last', h', rfl⟩ := hfirst e he
    rw [he, (h.unique h').2]
  · cases hend : (set.expand scope ts).outcome with
    | done us =>
      have hfull := fullyExpands_of_expandTo_done hlenient hend
      exact ⟨us, rfl, hfull, hfull.unbound, set.expandTo_of_unbound _ hfull.unbound⟩
    | failed e =>
      obtain ⟨path, last, h, -⟩ := hfirst e hend
      exact absurd h.length_eq (hnone path last h.descent)
    | exhausted => exact absurd hend (set.expandTo_outcome_ne_exhausted _ ts)

/-- A case with a partial in the text of another one, one that cannot be loaded, and one without a
value. With a limit of one, the partial in the text of the other one is too deep. -/
theorem expand_is_full_of_nested_partials :
    let set : Nat → Setting := fun limit => ⟨.standard, Loader.empty, ⟨false, limit⟩⟩
    let scope := Scope.root (Context.ofList
      [("p", .inline "a{{>q}}{{>m}}{{>r}}"), ("q", .scalar "b"), ("m", .resource "f")])
    let ts := Token.ofText .standard 0 "{{>r}}{{>p}}c"
    (∃ us ds, ((set 2).expand scope ts).outcome = .done us ∧
      (set 2).FullyExpands scope ts us ds ∧ ds.length = 1 ∧
        (set 2).expand scope us = pure us) ∧
    ∃ path last, (set 1).FirstDescent scope 2 ts path last ∧
      ((set 1).expand scope ts).outcome = .failed (.recursivePartial last.name 1) := by
  intro set scope ts
  constructor
  · obtain ⟨hfails, -, hresult⟩ := @expand_is_full (set 2) scope rfl ts
    have hdone : ((set 2).expand scope ts).outcome.isDone = true := by decide +kernel
    have hnone : ∀ path last, (set 2).Descent scope ts path last → path.length ≠ 3 := by
      intro path last hdescent hlength
      obtain ⟨e, he⟩ := hfails.2 ⟨path, last, hdescent, hlength⟩
      rw [he] at hdone
      cases hdone
    obtain ⟨us, hus, hfull, -, hagain⟩ := hresult hnone
    have hlog : ((set 2).expand scope ts).diagnostics.diagnostics.length = 1 := by decide +kernel
    exact ⟨us, _, hus, hfull, hlog, hagain⟩
  · obtain ⟨-, hfirst, -⟩ := @expand_is_full (set 1) scope rfl ts
    have hfailed : ((set 1).expand scope ts).outcome.isDone = false := by decide +kernel
    cases hend : ((set 1).expand scope ts).outcome with
    | done us =>
      rw [hend] at hfailed
      cases hfailed
    | failed e =>
      obtain ⟨path, last, hleft, rfl⟩ := (hfirst e).1 hend
      exact ⟨path, last, hleft, rfl⟩
    | exhausted => exact absurd hend ((set 1).expandTo_outcome_ne_exhausted 1 ts)

end Setting

end Stencil
