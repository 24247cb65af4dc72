import Stencil.Proofs.Partials
import Stencil.Proofs.Run
import Stencil.Render.Expansion

set_option relaxedAutoImplicit false
set_option autoImplicit false

/-!
# What an expansion leaves

An expansion replaces partials until none is left that has a value in the scope. It always comes
to an end, in tokens or in a failure, and what it leaves alone it leaves as it is.

## Main definitions

* `Stencil.Setting.text?` — the text of a partial with a given value, if it can be had.
* `Stencil.Setting.HasText`, `Stencil.Setting.Unavailable` — the text of a partial can be had, or it
  cannot be loaded.
* `Stencil.Setting.included` — the tokens that are put in for a partial.

## Main results

* `Stencil.Setting.HasText.expandToken`, `Stencil.Setting.Unavailable.expandToken` — what a partial
  is replaced by.
* `Stencil.Setting.expandTo_of_unbound` — tokens whose partials have no values stay as they are.
* `Stencil.Setting.expandTo_ensures` — what an expansion does and what comes out of it.
* `Stencil.Setting.forall_of_expandTo_done` — every token that comes out is one of those put in, and
  is no partial with a value.
* `Stencil.Setting.output_expandTo` — an expansion writes nothing.
* `Stencil.Setting.expandTo_failed` — where an expansion fails.
* `Stencil.Setting.expandTo_outcome_ne_exhausted` — an expansion comes to an end.
* `Stencil.Setting.expandTo_append` — tokens are replaced one after the other.
-/

namespace Stencil

namespace Setting

variable (set : Setting) (scope : Scope)

/-! ### The text of a partial -/

/-- The text that stands for a value in a partial, if it can be had. -/
def text? : Value → Option String
  | .resource id => (set.loader.load id).toOption
  | value => some value.display

/-- The tag is a partial with a value, and the text that stands for the value can be had. -/
def HasText (tag : Tag) (text : String) : Prop :=
  tag.role = .includes ∧ ∃ value, scope.resolve tag.name = some value ∧ set.text? value = some text

/-- The tag is a partial with a value, and the text that stands for it cannot be loaded. -/
def Unavailable (tag : Tag) (cause : LoadError) : Prop :=
  tag.role = .includes ∧
    ∃ id, scope.resolve tag.name = some (.resource id) ∧ set.loader.load id = .error cause

lemma partialText_outcome_done {tag : Tag} {value : Value} {text : Option String}
    (h : (set.partialText tag value).outcome = .done text) : text = set.text? value := by
  cases value with
  | resource id =>
    rw [partialText, Run.bind_outcome_done_iff] at h
    obtain ⟨_, -, h⟩ := h
    cases hload : set.loader.load id with
    | ok s =>
      rw [hload] at h
      cases h
      simp [text?, hload, Except.toOption]
    | error cause =>
      rw [hload, Run.bind_outcome_done_iff] at h
      obtain ⟨_, -, h⟩ := h
      cases h
      simp [text?, hload, Except.toOption]
  | scalar s => cases h; rfl
  | bool b => cases h; rfl
  | list items => cases h; rfl
  | map context => cases h; rfl
  | inline s => cases h; rfl

lemma warn_outcome_ne_exhausted (w : Warning) (span : Span) :
    (set.warn w span).outcome ≠ .exhausted := by
  unfold warn
  split <;> simp [Run.fail, Run.emit]

lemma partialText_outcome_ne_exhausted (tag : Tag) (value : Value) :
    (set.partialText tag value).outcome ≠ .exhausted := by
  cases value with
  | resource id =>
    intro h
    rw [partialText, Run.bind_outcome_exhausted_iff] at h
    rcases h with h | ⟨_, -, h⟩
    · cases h
    · cases hload : set.loader.load id with
      | ok s =>
        rw [hload] at h
        cases h
      | error cause =>
        rw [hload, Run.bind_outcome_exhausted_iff] at h
        rcases h with h | ⟨_, -, h⟩
        · exact set.warn_outcome_ne_exhausted _ _ h
        · cases h
  | scalar s => simp [partialText, Run.pure_eq]
  | bool b => simp [partialText, Run.pure_eq]
  | list items => simp [partialText, Run.pure_eq]
  | map context => simp [partialText, Run.pure_eq]
  | inline s => simp [partialText, Run.pure_eq]

/-! ### Single tokens -/

variable {scope}

/-- A token stays unless it is a partial with a value. -/
lemma expandToken_of_unbound {inclusion : Tag → String → Run (List Token)} {t : Token}
    (h : ∀ name ∈ t.partial?, scope.resolve name = none) :
    set.expandToken scope inclusion t = pure [t] := by
  cases t with
  | text content span => rfl
  | tag tag =>
    by_cases hr : tag.role = .includes
    · simp only [expandToken, if_pos hr, h tag.name (by simp [Token.partial?, hr])]
    · simp only [expandToken, if_neg hr]

/-- A partial with a value is replaced by what is put in for its text, if it has one. -/
lemma expandToken_of_bound {inclusion : Tag → String → Run (List Token)} {tag : Tag}
    {value : Value} (hr : tag.role = .includes) (hv : scope.resolve tag.name = some value) :
    set.expandToken scope inclusion (.tag tag) = (do
      match ← set.partialText tag value with
      | none => return []
      | some text => inclusion tag text) := by
  refine (if_pos hr).trans ?_
  cases hresolve : scope.resolve tag.name with
  | none =>
    rw [hresolve] at hv
    cases hv
  | some v =>
    rw [hresolve] at hv
    cases hv
    rfl

/-- A token is no partial with a value, or it is a partial with one. -/
lemma unbound_or_bound (scope : Scope) (t : Token) :
    (∀ name ∈ t.partial?, scope.resolve name = none) ∨
      ∃ tag value, t = .tag tag ∧ tag.role = .includes ∧ scope.resolve tag.name = some value := by
  cases t with
  | text content span => exact .inl (by simp [Token.partial?])
  | tag tag =>
    by_cases hr : tag.role = .includes
    · cases hv : scope.resolve tag.name with
      | none => exact .inl (by simp [Token.partial?, hr, hv])
      | some value => exact .inr ⟨tag, value, rfl, hr, hv⟩
    · exact .inl (by simp [Token.partial?, hr])

/-! ### Partials whose texts can be had, or not -/

section Texts

variable {set}

/-- A partial with a value is not one without. -/
lemma not_unbound {tag : Tag} {value : Value} (hr : tag.role = .includes)
    (hv : scope.resolve tag.name = some value) :
    ¬ ∀ name ∈ (Token.tag tag).partial?, scope.resolve name = none := by
  intro hunbound
  have hnone := hunbound tag.name (by simp [Token.partial?, hr])
  rw [hv] at hnone
  cases hnone

lemma HasText.unique {tag : Tag} {text text' : String} (h : set.HasText scope tag text)
    (h' : set.HasText scope tag text') : text = text' := by
  obtain ⟨-, value, hv, htext⟩ := h
  obtain ⟨-, value', hv', htext'⟩ := h'
  rw [hv] at hv'
  cases hv'
  rw [htext] at htext'
  exact Option.some.inj htext'

lemma Unavailable.unique {tag : Tag} {cause cause' : LoadError}
    (h : set.Unavailable scope tag cause) (h' : set.Unavailable scope tag cause') :
    cause = cause' := by
  obtain ⟨-, id, hv, hload⟩ := h
  obtain ⟨-, id', hv', hload'⟩ := h'
  rw [hv] at hv'
  cases hv'
  rw [hload] at hload'
  exact Except.error.inj hload'

/-- A text that can be had is not one that cannot be loaded. -/
lemma HasText.not_unavailable {tag : Tag} {text : String} {cause : LoadError}
    (h : set.HasText scope tag text) : ¬ set.Unavailable scope tag cause := by
  rintro ⟨-, id, hv', hload⟩
  obtain ⟨-, value, hv, htext⟩ := h
  rw [hv] at hv'
  cases hv'
  simp [text?, hload, Except.toOption] at htext

lemma HasText.bound {tag : Tag} {text : String} (h : set.HasText scope tag text) :
    ¬ ∀ name ∈ (Token.tag tag).partial?, scope.resolve name = none := by
  obtain ⟨hr, value, hv, -⟩ := h
  exact not_unbound hr hv

lemma Unavailable.bound {tag : Tag} {cause : LoadError} (h : set.Unavailable scope tag cause) :
    ¬ ∀ name ∈ (Token.tag tag).partial?, scope.resolve name = none := by
  obtain ⟨hr, id, hv, -⟩ := h
  exact not_unbound hr hv

/-- Only a text that has to be loaded may not be had. -/
lemma exists_of_text?_eq_none {value : Value} (h : set.text? value = none) :
    ∃ id cause, value = .resource id ∧ set.loader.load id = .error cause := by
  cases value with
  | resource id =>
    cases hload : set.loader.load id with
    | ok text => simp [text?, hload, Except.toOption] at h
    | error cause => exact ⟨id, cause, rfl, hload⟩
  | scalar s => cases h
  | bool b => cases h
  | list items => cases h
  | map context => cases h
  | inline s => cases h

/-- A token is no partial with a value, or it is a partial whose text can be had, or one whose text
cannot be loaded. -/
lemma token_cases (set : Setting) (scope : Scope) (t : Token) :
    (∀ name ∈ t.partial?, scope.resolve name = none) ∨
      (∃ tag text, t = .tag tag ∧ set.HasText scope tag text) ∨
        ∃ tag cause, t = .tag tag ∧ set.Unavailable scope tag cause := by
  rcases unbound_or_bound scope t with hu | ⟨tag, value, rfl, hr, hv⟩
  · exact .inl hu
  · right
    cases htext : set.text? value with
    | some text => exact .inl ⟨tag, text, rfl, hr, value, hv, htext⟩
    | none =>
      obtain ⟨id, cause, rfl, hload⟩ := exists_of_text?_eq_none htext
      exact .inr ⟨tag, cause, rfl, hr, id, hv, hload⟩

/-- A text that can be had is had, without a warning. -/
lemma partialText_of_text? (tag : Tag) {value : Value} {text : String}
    (h : set.text? value = some text) :
    (set.partialText tag value).outcome = .done (some text) ∧
      (set.partialText tag value).diagnostics.diagnostics = [] := by
  cases value with
  | resource id =>
    cases hload : set.loader.load id with
    | ok s =>
      simp only [text?, hload, Except.toOption, Option.some.injEq] at h
      subst h
      rw [partialText, hload]
      exact ⟨rfl, rfl⟩
    | error cause => simp [text?, hload, Except.toOption] at h
  | scalar s => cases h; exact ⟨rfl, rfl⟩
  | bool b => cases h; exact ⟨rfl, rfl⟩
  | list items => cases h; exact ⟨rfl, rfl⟩
  | map context => cases h; exact ⟨rfl, rfl⟩
  | inline s => cases h; exact ⟨rfl, rfl⟩

/-- **A partial whose text can be had** is replaced by what is put in for the text. -/
lemma HasText.expandToken {tag : Tag} {text : String} (h : set.HasText scope tag text)
    (inclusion : Tag → String → Run (List Token)) :
    (set.expandToken scope inclusion (.tag tag)).outcome = (inclusion tag text).outcome ∧
      (set.expandToken scope inclusion (.tag tag)).diagnostics.diagnostics =
        (inclusion tag text).diagnostics.diagnostics := by
  obtain ⟨hr, value, hv, htext⟩ := h
  obtain ⟨hdone, hsilent⟩ := partialText_of_text? tag htext
  rw [set.expandToken_of_bound hr hv]
  constructor
  · rw [Run.bind_of_done hdone]
  · rw [Run.diagnostics_bind hdone, hsilent, List.nil_append]

/-- **A partial whose text cannot be loaded** is removed with a warning, unless a warning is a
failure. -/
lemma Unavailable.expandToken {tag : Tag} {cause : LoadError}
    (h : set.Unavailable scope tag cause) (hlenient : set.options.strict = false)
    (inclusion : Tag → String → Run (List Token)) :
    (set.expandToken scope inclusion (.tag tag)).outcome = .done [] ∧
      (set.expandToken scope inclusion (.tag tag)).diagnostics.diagnostics =
        [(Warning.partialUnavailable tag.name cause).diagnose tag.span] := by
  obtain ⟨hr, id, hv, hload⟩ := h
  have htext : set.partialText tag (.resource id) =
      ⟨[.load id, .warning (.partialUnavailable tag.name cause) tag.span], .done none⟩ := by
    simp only [partialText, hload, warn, hlenient]
    rfl
  rw [set.expandToken_of_bound hr hv, htext]
  exact ⟨rfl, rfl⟩

/-- **Where a token fails**: at a partial whose text can be had, in what is put in for it. In a
strict rendering a warning is a failure as well. -/
lemma expandToken_failed {inclusion : Tag → String → Run (List Token)} {t : Token} {e : Error}
    (h : (set.expandToken scope inclusion t).outcome = .failed e) :
    (set.options.strict = true ∧ ∃ w : Warning, e = w.toError) ∨
      ∃ tag text, t = .tag tag ∧ set.HasText scope tag text ∧
        (inclusion tag text).outcome = .failed e := by
  rcases set.token_cases scope t with hu | ⟨tag, text, rfl, htext⟩ | ⟨tag, cause, rfl, hun⟩
  · rw [set.expandToken_of_unbound hu] at h
    cases h
  · rw [(htext.expandToken inclusion).1] at h
    exact .inr ⟨tag, text, rfl, htext, h⟩
  · cases hstrict : set.options.strict with
    | false =>
      rw [(hun.expandToken hstrict inclusion).1] at h
      cases h
    | true =>
      obtain ⟨hr, id, hv, hload⟩ := hun
      have htext : set.partialText tag (.resource id) =
          ⟨[.load id], .failed (Warning.partialUnavailable tag.name cause).toError⟩ := by
        simp only [partialText, hload, warn, hstrict]
        rfl
      rw [set.expandToken_of_bound hr hv, htext] at h
      cases h
      exact .inl ⟨rfl, _, rfl⟩

end Texts

/-! ### Lists of tokens -/

variable (scope)

/-- The tokens that are put in for a partial with a text, where `depth` more partials may lie
inside one another. -/
def included : Nat → Tag → String → Run (List Token)
  | 0, tag, _ => Run.fail (.recursivePartial tag.name set.options.maxPartialDepth)
  | depth + 1, tag, text =>
    (set.expandTo scope depth (Token.ofText set.delimiters (tag.level + 1) text)).between
      (.enter tag text) .leave

lemma expandTo_eq (depth : Nat) (ts : List Token) :
    set.expandTo scope depth ts =
      Run.flatMap (set.expandToken scope (set.included scope depth)) ts := by
  cases depth <;> rfl

lemma expandTo_nil (depth : Nat) : set.expandTo scope depth [] = pure [] := by
  rw [expandTo_eq, Run.flatMap_nil]

lemma expandTo_cons (depth : Nat) (t : Token) (ts : List Token) :
    set.expandTo scope depth (t :: ts) = (do
      let us ← set.expandToken scope (set.included scope depth) t
      let rest ← set.expandTo scope depth ts
      return us ++ rest) := by
  rw [expandTo_eq, Run.flatMap_cons, ← expandTo_eq]

/-- The tokens of two lists are replaced one list after the other. -/
theorem expandTo_append (depth : Nat) (ts us : List Token) :
    set.expandTo scope depth (ts ++ us) = (do
      let ts' ← set.expandTo scope depth ts
      let us' ← set.expandTo scope depth us
      return ts' ++ us') := by
  simp only [expandTo_eq, Run.flatMap_append]

variable {scope}

/-- **Tokens whose partials have no values stay as they are.** -/
theorem expandTo_of_unbound (depth : Nat) {ts : List Token}
    (h : ∀ name ∈ Token.partials ts, scope.resolve name = none) :
    set.expandTo scope depth ts = pure ts := by
  rw [expandTo_eq]
  refine Run.flatMap_eq_pure fun t ht => set.expandToken_of_unbound fun name hname => h name ?_
  exact List.mem_filterMap.2 ⟨t, ht, hname⟩

/-- If an expansion has a result, then so has what is put in for each partial whose text can be
had. -/
lemma HasText.included_done {set : Setting} {tag : Tag} {text : String}
    (htext : set.HasText scope tag text) {depth : Nat} {ts us : List Token}
    (hmem : .tag tag ∈ ts) (h : (set.expandTo scope depth ts).outcome = .done us) :
    ∃ vs, (set.included scope depth tag text).outcome = .done vs := by
  rw [expandTo_eq] at h
  obtain ⟨vs, hvs⟩ := Run.exists_done_of_flatMap_done h _ hmem
  rw [(htext.expandToken _).1] at hvs
  exact ⟨vs, hvs⟩

/-- **Where an expansion fails**: at one of the partials whose texts can be had, in what is put in
for it, and the tokens before it have a result. In a strict rendering a warning is a failure as
well. -/
theorem expandTo_failed {depth : Nat} {ts : List Token} {e : Error}
    (h : (set.expandTo scope depth ts).outcome = .failed e) :
    (set.options.strict = true ∧ ∃ w : Warning, e = w.toError) ∨
      ∃ before tag text after us, ts = before ++ .tag tag :: after ∧
        (set.expandTo scope depth before).outcome = .done us ∧ set.HasText scope tag text ∧
          (set.included scope depth tag text).outcome = .failed e := by
  rw [expandTo_eq] at h
  obtain ⟨before, t, after, us, rfl, hbefore, ht⟩ := Run.exists_of_flatMap_failed h
  rw [← expandTo_eq] at hbefore
  rcases expandToken_failed ht with hwarning | ⟨tag, text, rfl, htext, hincluded⟩
  · exact .inl hwarning
  · exact .inr ⟨before, tag, text, after, us, rfl, hbefore, htext, hincluded⟩

/-- The tokens that are put in are had, or the reason why not, if this is so one level further
down. -/
lemma expandToken_outcome_ne_exhausted {inclusion : Tag → String → Run (List Token)}
    (h : ∀ tag text, (inclusion tag text).outcome ≠ .exhausted) (t : Token) :
    (set.expandToken scope inclusion t).outcome ≠ .exhausted := by
  rcases unbound_or_bound scope t with hu | ⟨tag, value, rfl, hr, hv⟩
  · rw [set.expandToken_of_unbound hu]
    simp [Run.pure_eq]
  · rw [set.expandToken_of_bound hr hv]
    intro he
    rcases Run.bind_outcome_exhausted_iff.1 he with he | ⟨text, -, he⟩
    · exact set.partialText_outcome_ne_exhausted _ _ he
    · cases text with
      | none => cases he
      | some text => exact h tag text he

/-- **An expansion comes to an end.**

**Proof sketch.** Induction on how deep partials may include partials. For each depth the tokens
are gone through one by one. -/
theorem expandTo_outcome_ne_exhausted (depth : Nat) (ts : List Token) :
    (set.expandTo scope depth ts).outcome ≠ .exhausted := by
  have list : ∀ depth, (∀ tag text, (set.included scope depth tag text).outcome ≠ .exhausted) →
      ∀ ts, (set.expandTo scope depth ts).outcome ≠ .exhausted := by
    intro depth hincluded ts
    induction ts with
    | nil => simp [expandTo_nil, Run.pure_eq]
    | cons t ts ih =>
      rw [expandTo_cons]
      intro he
      rcases Run.bind_outcome_exhausted_iff.1 he with he | ⟨us, -, he⟩
      · exact set.expandToken_outcome_ne_exhausted hincluded t he
      · rcases Run.bind_outcome_exhausted_iff.1 he with he | ⟨rest, -, he⟩
        · exact ih he
        · cases he
  induction depth generalizing ts with
  | zero => exact list 0 (fun tag text => by simp [included, Run.fail]) ts
  | succ depth ih => exact list (depth + 1) (fun tag text => ih _) ts

/-- The text of a partial is asked for, or not; then there may be a warning. -/
lemma partialText_ensures {P : Event → Prop} {E : Error → Prop} (hload : ∀ id, P (.load id))
    (hwarning : ∀ w span, P (.warning w span))
    (hstrict : set.options.strict = true → ∀ w : Warning, E w.toError) (tag : Tag)
    (value : Value) :
    Run.Ensures P E (fun text => text = set.text? value) (set.partialText tag value) := by
  have hrun : Run.Ensures P E (fun _ => True) (set.partialText tag value) := by
    cases value with
    | resource id =>
      refine (Run.Ensures.emit (hload id)).bind fun _ _ => ?_
      cases set.loader.load id with
      | ok text => exact .pure trivial
      | error cause =>
        refine Run.Ensures.bind (Q := fun _ => True) ?_ fun _ _ => .pure trivial
        unfold warn
        split
        · next h => exact .fail (hstrict h _)
        · exact .emit (hwarning _ _)
    | scalar s => exact .pure trivial
    | bool b => exact .pure trivial
    | list items => exact .pure trivial
    | map context => exact .pure trivial
    | inline s => exact .pure trivial
  exact ⟨hrun.events, hrun.failure, fun text h => set.partialText_outcome_done h⟩

/-- **What an expansion does and what comes out of it.** Let `Q depth` hold of tokens that are
expanded where `depth` more partials may lie inside one another, let `P` hold of the events on the
way, `E` of the failures and `R` of the tokens that stay. Then `P` holds of all events, and `R` of
all tokens that come out, unless there is a failure of which `E` holds.

**Proof sketch.** Induction on how deep partials may include partials. A token that comes out
either stayed, and then it is no partial with a value, or it came out of an included text. -/
theorem expandTo_ensures {P : Event → Prop} {E : Error → Prop} {Q : Nat → Token → Prop}
    {R : Token → Prop} (hload : ∀ id, P (.load id)) (hwarning : ∀ w span, P (.warning w span))
    (hleave : P .leave) (hstrict : set.options.strict = true → ∀ w : Warning, E w.toError)
    (hdeep : ∀ name, E (.recursivePartial name set.options.maxPartialDepth))
    (hkept : ∀ depth t, Q depth t → (∀ name ∈ t.partial?, scope.resolve name = none) → R t)
    (hincluded : ∀ (depth : Nat) (tag : Tag) (value : Value) (text : String),
      Q (depth + 1) (.tag tag) → tag.role = .includes → scope.resolve tag.name = some value →
      set.text? value = some text → P (.enter tag text) ∧
        ∀ t ∈ Token.ofText set.delimiters (tag.level + 1) text, Q depth t)
    (depth : Nat) {ts : List Token} (hts : ∀ t ∈ ts, Q depth t) :
    Run.Ensures P E (fun us => ∀ u ∈ us, R u) (set.expandTo scope depth ts) := by
  have list : ∀ depth, (∀ (tag : Tag) (value : Value) (text : String), Q depth (.tag tag) →
        tag.role = .includes → scope.resolve tag.name = some value →
        set.text? value = some text →
        Run.Ensures P E (fun us => ∀ u ∈ us, R u) (set.included scope depth tag text)) →
      ∀ ts : List Token, (∀ t ∈ ts, Q depth t) →
        Run.Ensures P E (fun us => ∀ u ∈ us, R u) (set.expandTo scope depth ts) := by
    intro depth hput ts hts
    rw [expandTo_eq]
    refine .flatMap fun t ht => ?_
    rcases unbound_or_bound scope t with hu | ⟨tag, value, rfl, hr, hv⟩
    · rw [set.expandToken_of_unbound hu]
      exact .pure (List.forall_mem_singleton.2 (hkept depth t (hts t ht) hu))
    · rw [set.expandToken_of_bound hr hv]
      refine (set.partialText_ensures hload hwarning hstrict tag value).bind fun text htext => ?_
      cases text with
      | none => exact .pure (by simp)
      | some text => exact hput tag value text (hts _ ht) hr hv htext.symm
  induction depth generalizing ts with
  | zero => exact list 0 (fun tag value text _ _ _ _ => .fail (hdeep _)) ts hts
  | succ depth ih =>
    refine list (depth + 1) (fun tag value text ht hr hv htext => ?_) ts hts
    obtain ⟨henter, htokens⟩ := hincluded depth tag value text ht hr hv htext
    exact (ih htokens).between henter hleave

/-- **What comes out of an expansion.** Let `Q` hold of all tokens and, with a partial, of all
tokens of its text. Then `Q` holds of every token that comes out, and none of these is a partial
with a value. -/
theorem forall_of_expandTo_done {Q : Token → Prop}
    (hQ : ∀ (tag : Tag) (value : Value) (text : String), Q (.tag tag) → tag.role = .includes →
      scope.resolve tag.name = some value → set.text? value = some text →
      ∀ t ∈ Token.ofText set.delimiters (tag.level + 1) text, Q t)
    {depth : Nat} {ts us : List Token} (hts : ∀ t ∈ ts, Q t)
    (h : (set.expandTo scope depth ts).outcome = .done us) :
    ∀ u ∈ us, Q u ∧ ∀ name ∈ u.partial?, scope.resolve name = none := by
  have hall := set.expandTo_ensures (P := fun _ => True) (E := fun _ => True) (Q := fun _ => Q)
    (R := fun u => Q u ∧ ∀ name ∈ u.partial?, scope.resolve name = none)
    (fun _ => trivial) (fun _ _ => trivial) trivial (fun _ _ => trivial) (fun _ => trivial)
    (fun _ t ht hu => ⟨ht, hu⟩)
    (fun _ tag value text ht hr hv htext => ⟨trivial, hQ tag value text ht hr hv htext⟩) depth hts
  exact hall.result us h

/-- **An expansion writes nothing.** -/
theorem output_expandTo (depth : Nat) (ts : List Token) :
    (set.expandTo scope depth ts).output = "" := by
  have hsilent : Run.Ensures (fun e => e.written = "") (fun _ => True) (fun us => ∀ u ∈ us, True)
      (set.expandTo scope depth ts) :=
    set.expandTo_ensures (P := fun e => e.written = "") (Q := fun _ _ => True) (fun _ => rfl)
      (fun _ _ => rfl) rfl (fun _ _ => trivial) (fun _ => trivial) (fun _ _ _ _ => trivial)
      (fun _ _ _ _ _ _ _ _ => ⟨rfl, fun _ _ => trivial⟩) depth (fun _ _ => trivial)
  have hwritten : (set.expandTo scope depth ts).events.map Event.written =
      (set.expandTo scope depth ts).events.map fun _ => "" :=
    List.map_congr_left hsilent.events
  rw [Run.output, hwritten]
  induction (set.expandTo scope depth ts).events with
  | nil => rfl
  | cons e events ih => rwa [List.map_cons, String.join_cons, String.empty_append]

end Setting

end Stencil
