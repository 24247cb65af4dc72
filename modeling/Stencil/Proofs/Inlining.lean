import Stencil.Proofs.Places

set_option relaxedAutoImplicit false
set_option autoImplicit false

/-!
# Partials and their texts

A partial is replaced by its text before blocks are paired. So the text could have stood in the
template from the start: it is read in the same way, whatever blocks it opens or closes there. Only
places, the limit for partials inside partials and the texts asked for can tell the difference.

## Main definitions

* `Stencil.Run.SaysSame` — two runs write the same and warn of the same.
* `Stencil.Run.Yields` — if one run has a result, then so has another, and they say the same.

## Main results

* `Stencil.Setting.expandTo_yields` — expansion respects letters, and more depth does no harm.
* `Stencil.Setting.renderAnew_yields` — so does rendering.
* `Stencil.Template.inlined_renders_same` — a partial renders like its text in its place.
-/

namespace Stencil

namespace Run

variable {α β γ δ : Type}

/-! ### Runs that say the same -/

/-- The runs write the same and warn of the same, not necessarily about the same places. -/
structure SaysSame (r : Run α) (s : Run β) : Prop where
  output : r.output = s.output
  warnings : r.warnings.map Prod.fst = s.warnings.map Prod.fst

lemma SaysSame.refl (r : Run α) : SaysSame r r := ⟨rfl, rfl⟩

lemma SaysSame.trans {r : Run α} {s : Run β} {t : Run γ} (hrs : SaysSame r s)
    (hst : SaysSame s t) : SaysSame r t :=
  ⟨hrs.output.trans hst.output, hrs.warnings.trans hst.warnings⟩

lemma SaysSame.bind {r : Run α} {s : Run β} {a : α} {b : β} (hr : r.outcome = .done a)
    (hs : s.outcome = .done b) {f : α → Run γ} {g : β → Run δ} (hrs : SaysSame r s)
    (hfg : SaysSame (f a) (g b)) : SaysSame (r >>= f) (s >>= g) := by
  constructor
  · rw [output_bind hr, output_bind hs, hrs.output, hfg.output]
  · rw [warnings_bind hr, warnings_bind hs, List.map_append, List.map_append, hrs.warnings,
      hfg.warnings]

/-- Inclusions are not said. -/
lemma SaysSame.between (r : Run α) (tag : Tag) (text : String) :
    SaysSame (r.between (.enter tag text) .leave) r := by
  constructor
  · simp [Run.output, Run.between, String.join_append, String.join_cons, Event.written]
  · change (Event.warnings (.enter tag text :: (r.events ++ [.leave]))).map _ = _
    rw [← List.cons_append, Event.warnings_append]
    exact congrArg (List.map Prod.fst) (List.append_nil r.warnings)

/-! ### Runs that have results together -/

/-- If the first run has a result, then the second one has a result that goes with it, and both say
the same. -/
def Yields (P : α → β → Prop) (r : Run α) (s : Run β) : Prop :=
  ∀ a, r.outcome = .done a → ∃ b, s.outcome = .done b ∧ P a b ∧ SaysSame r s

namespace Yields

variable {P : α → β → Prop} {r : Run α} {s : Run β}

lemma pure {a : α} {b : β} (h : P a b) : Yields P (Pure.pure a) (Pure.pure b) := by
  intro a' ha
  cases ha
  exact ⟨b, rfl, h, rfl, rfl⟩

lemma fail (e : Error) : Yields P (Run.fail e) s := by
  intro a ha
  cases ha

lemma refl (r : Run α) : Yields Eq r r := fun a ha => ⟨a, ha, rfl, .refl r⟩

lemma trans {Q : β → γ → Prop} {t : Run γ} (hrs : Yields P r s) (hst : Yields Q s t) :
    Yields (fun a c => ∃ b, P a b ∧ Q b c) r t := by
  intro a ha
  obtain ⟨b, hb, hab, hsame⟩ := hrs a ha
  obtain ⟨c, hc, hbc, hsame'⟩ := hst b hb
  exact ⟨c, hc, ⟨b, hab, hbc⟩, hsame.trans hsame'⟩

lemma imp {Q : α → β → Prop} (h : Yields P r s) (hPQ : ∀ a b, P a b → Q a b) :
    Yields Q r s := by
  intro a ha
  obtain ⟨b, hb, hab, hsame⟩ := h a ha
  exact ⟨b, hb, hPQ a b hab, hsame⟩

/-- **Runs in sequence** have results together if each of them has. -/
lemma bind {Q : γ → δ → Prop} {f : α → Run γ} {g : β → Run δ} (hrs : Yields P r s)
    (hfg : ∀ a b, P a b → Yields Q (f a) (g b)) : Yields Q (r >>= f) (s >>= g) := by
  intro c hc
  obtain ⟨a, ha, hc⟩ := bind_outcome_done_iff.1 hc
  obtain ⟨b, hb, hab, hsame⟩ := hrs a ha
  obtain ⟨d, hd, hcd, hsame'⟩ := hfg a b hab c hc
  exact ⟨d, bind_outcome_done_iff.2 ⟨b, hb, hd⟩, hcd, hsame.bind ha hb hsame'⟩

/-- Inclusions make no difference. -/
lemma between (h : Yields P r s) (tag tag' : Tag) (text text' : String) :
    Yields P (r.between (.enter tag text) .leave) (s.between (.enter tag' text') .leave) := by
  intro a ha
  obtain ⟨b, hb, hab, hsame⟩ := h a ha
  refine ⟨b, hb, hab, (SaysSame.between r tag text).trans (hsame.trans ?_)⟩
  exact ⟨(SaysSame.between s tag' text').output.symm, (SaysSame.between s tag' text').warnings.symm⟩

lemma between_left (h : Yields P r s) (tag : Tag) (text : String) :
    Yields P (r.between (.enter tag text) .leave) s := by
  intro a ha
  obtain ⟨b, hb, hab, hsame⟩ := h a ha
  exact ⟨b, hb, hab, (SaysSame.between r tag text).trans hsame⟩

end Yields

/-- Runs that are equal apart from places have results together, and say the same. -/
lemma Alike.yields {P : α → β → Prop} {r : Run α} {s : Run β} (h : Alike P r s) :
    Yields P r s := by
  intro a ha
  have houtcome := h.outcome
  rw [ha] at houtcome
  generalize hs : s.outcome = outcome at houtcome
  cases houtcome with
  | @done _ b hab => exact ⟨b, rfl, hab, h.output_eq, h.warnings_eq⟩

end Run

namespace Setting

variable (set : Setting) (scope : Scope)

/-! ### Expansion and rendering -/

/-- More depth does no harm to an expansion.

**Proof sketch.** Induction on how deep partials may include partials. For each depth the tokens
are gone through one by one. -/
lemma expandTo_yields_of_le {depth depth' : Nat} (hle : depth ≤ depth') (ts : List Token) :
    Run.Yields Eq (set.expandTo scope depth ts) (set.expandTo scope depth' ts) := by
  have list : ∀ depth depth', (∀ (tag : Tag) (text : String),
        Run.Yields Eq (set.included scope depth tag text)
          (set.included scope depth' tag text)) →
      ∀ ts, Run.Yields Eq (set.expandTo scope depth ts) (set.expandTo scope depth' ts) := by
    intro depth depth' hincluded ts
    induction ts with
    | nil =>
      rw [expandTo_nil, expandTo_nil]
      exact .refl _
    | cons t ts ih =>
      have ht : Run.Yields Eq (set.expandToken scope (set.included scope depth) t)
          (set.expandToken scope (set.included scope depth') t) := by
        rcases unbound_or_bound scope t with hu | ⟨tag, value, rfl, hr, hv⟩
        · rw [set.expandToken_of_unbound hu, set.expandToken_of_unbound hu]
          exact .refl _
        · rw [set.expandToken_of_bound hr hv, set.expandToken_of_bound hr hv]
          refine (Run.Yields.refl _).bind ?_
          rintro text _ rfl
          cases text with
          | none => exact .refl _
          | some text => exact hincluded tag text
      rw [expandTo_cons, expandTo_cons]
      refine ht.bind ?_
      rintro us _ rfl
      refine ih.bind ?_
      rintro rest _ rfl
      exact .refl _
  induction depth generalizing depth' ts with
  | zero => exact list 0 depth' (fun tag text => .fail _) ts
  | succ depth ih =>
    obtain ⟨depth', rfl⟩ : ∃ k, depth' = k + 1 := ⟨depth' - 1, by omega⟩
    refine list (depth + 1) (depth' + 1) (fun tag text => ?_) ts
    exact (ih (Nat.le_of_succ_le_succ hle) _).between tag tag text text

/-- **Expansion respects letters, and more depth does no harm.** -/
theorem expandTo_yields {depth depth' : Nat} (hle : depth ≤ depth') {ts us : List Token}
    (h : Token.SameLetters ts us) :
    Run.Yields Token.SameLetters (set.expandTo scope depth ts)
      (set.expandTo scope depth' us) := by
  refine ((set.expandTo_alike (.refl scope) depth h).yields.trans
    (set.expandTo_yields_of_le scope hle us)).imp ?_
  rintro vs _ ⟨ws, hletters, rfl⟩
  exact hletters

/-- If the tokens after the expansion have the same letters, then what is rendered says the same,
with every grant. -/
theorem renderAnew_yields (depth : Nat) {ts us : List Token}
    (h : Run.Yields Token.SameLetters (set.expand scope ts) (set.expand scope us)) :
    Run.Yields Eq (set.renderAnew depth ts scope) (set.renderAnew depth us scope) := by
  cases depth with
  | zero =>
    exact h.bind fun _ _ hexpanded => (set.renderExpandedWith_alike (.refl scope)
      (fun _ _ _ _ _ _ => .exhausted) hexpanded).yields
  | succ depth =>
    exact h.bind fun _ _ hexpanded => (set.renderExpandedWith_alike (.refl scope)
      (fun _ _ _ _ hs hbody => set.renderAnew_alike hs depth hbody) hexpanded).yields

/-! ### A partial and its text -/

/-- To find the text of a partial says nothing. -/
lemma partialText_yields_text {tag : Tag} {value : Value} {text : String}
    (h : set.text? value = some text) :
    Run.Yields (fun found _ => found = some text) (set.partialText tag value)
      (pure () : Run Unit) := by
  intro found hfound
  have hsame : (set.partialText tag value).SaysSame (pure () : Run Unit) := by
    cases value with
    | resource id =>
      simp only [text?] at h
      cases hload : set.loader.load id with
      | error cause =>
        rw [hload] at h
        cases h
      | ok s =>
        simp only [partialText, hload]
        exact ⟨rfl, rfl⟩
    | scalar s => exact ⟨rfl, rfl⟩
    | bool b => exact ⟨rfl, rfl⟩
    | list items => exact ⟨rfl, rfl⟩
    | map context => exact ⟨rfl, rfl⟩
    | inline s => exact ⟨rfl, rfl⟩
  exact ⟨(), rfl, (set.partialText_outcome_done hfound).trans h, hsame⟩

/-- **A partial and its text** come to tokens with the same letters, and the text may be expanded
one level less deep. -/
lemma expandToken_yields_text (depth : Nat) {tag : Tag} {value : Value} {text : String}
    (hr : tag.role = .includes) (hv : scope.resolve tag.name = some value)
    (h : set.text? value = some text) :
    Run.Yields Token.SameLetters (set.expandToken scope (set.included scope depth) (.tag tag))
      (set.expandTo scope depth (Token.ofText set.delimiters 0 text)) := by
  rw [set.expandToken_of_bound hr hv,
    ← Run.pure_bind () fun _ => set.expandTo scope depth (Token.ofText set.delimiters 0 text)]
  refine (set.partialText_yields_text h).bind ?_
  rintro _ _ rfl
  cases depth with
  | zero => exact .fail _
  | succ depth =>
    exact (set.expandTo_yields scope (Nat.le_succ depth)
      (Token.letters_ofText _ _ _ _)).between_left tag text

/-- The same between other tokens. -/
lemma expand_yields_text (before after : List Token) {tag : Tag} {value : Value} {text : String}
    (hr : tag.role = .includes) (hv : scope.resolve tag.name = some value)
    (h : set.text? value = some text) :
    Run.Yields Token.SameLetters (set.expand scope (before ++ .tag tag :: after))
      (set.expand scope (before ++ (Token.ofText set.delimiters 0 text ++ after))) := by
  have hrefl : ∀ ts, Run.Yields Token.SameLetters
      (set.expandTo scope set.options.maxPartialDepth ts)
      (set.expandTo scope set.options.maxPartialDepth ts) :=
    fun ts => set.expandTo_yields scope (Nat.le_refl _) rfl
  unfold expand
  rw [expandTo_append, expandTo_append, expandTo_append, expandTo_cons]
  refine (hrefl before).bind fun xs xs' hxs => ?_
  refine Run.Yields.bind (P := Token.SameLetters) ?_ fun rest rest' hrest =>
    .pure (hxs.append hrest)
  refine (set.expandToken_yields_text scope _ hr hv h).bind fun vs vs' hvs => ?_
  exact (hrefl after).bind fun ws ws' hws => .pure (hvs.append hws)

/-- **The same between other letters.** Tokens with the letters of a partial in their midst come to
tokens with the same letters as those that have the letters of its text there. -/
lemma expand_yields_inlined {before after whole whole' : List Token} {tag : Tag} {value : Value}
    {text : String} (hr : tag.role = .includes) (hv : scope.resolve tag.name = some value)
    (htext : set.text? value = some text)
    (h : Token.letters whole =
      Token.letters before ++ Token.letters [.tag tag] ++ Token.letters after)
    (h' : Token.letters whole' = Token.letters before ++
      Token.letters (Token.ofText set.delimiters 0 text) ++ Token.letters after) :
    Run.Yields Token.SameLetters (set.expand scope whole) (set.expand scope whole') := by
  have hfirst : Token.SameLetters whole (before ++ .tag tag :: after) := by
    rw [Token.SameLetters, h, Token.letters_append, List.append_assoc]
    rfl
  have hlast : Token.SameLetters
      (before ++ (Token.ofText set.delimiters 0 text ++ after)) whole' := by
    rw [Token.SameLetters, h', Token.letters_append, Token.letters_append, List.append_assoc]
  have hchain := ((set.expandTo_yields scope (Nat.le_refl set.options.maxPartialDepth) hfirst).trans
    (set.expand_yields_text scope before after hr hv htext)).trans
      (set.expandTo_yields scope (Nat.le_refl set.options.maxPartialDepth) hlast)
  refine hchain.imp ?_
  rintro ts us ⟨vs, ⟨ws, h₁, h₂⟩, h₃⟩
  exact (Eq.trans h₁ h₂).trans h₃

end Setting

/-! ### Whole templates -/

namespace Template

/-- **A partial renders like its text in its place.**

Let `p` have a value in the context whose text is `T`, and let no tag of the two templates reach
from one part of its text into another: the letters of a template are those of its parts. If the
template with the partial is rendered successfully, then so is the one with the text in its place;
both write the same, and give the same diagnostics, apart from places. -/
theorem inlined_renders_same {d : Delimiters} {A T B p : String} {t t' : Template}
    {context : Context} {loader : Loader} {options : Options} {value : Value}
    (h : compileWith d (A ++ (d.opening ++ ">" ++ p ++ d.closing) ++ B) = .ok t)
    (h' : compileWith d (A ++ T ++ B) = .ok t')
    (hvalue : (Scope.root context).resolve p = some value)
    (htext : (t.setting loader options).text? value = some T)
    (hseams : Token.letters (Token.ofText d 0 (A ++ (d.opening ++ ">" ++ p ++ d.closing) ++ B)) =
      Token.letters (Token.ofText d 0 A) ++
        [.tag .includes p (d.opening ++ ">" ++ p ++ d.closing)] ++
        Token.letters (Token.ofText d 0 B))
    (hseams' : Token.letters (Token.ofText d 0 (A ++ T ++ B)) =
      Token.letters (Token.ofText d 0 A) ++ Token.letters (Token.ofText d 0 T) ++
        Token.letters (Token.ofText d 0 B))
    {depth : Nat} (hdone : (t.run context loader options depth).outcome = .done ()) :
    (t'.run context loader options depth).outcome = .done () ∧
      (t'.run context loader options depth).output = (t.run context loader options depth).output ∧
      (t'.run context loader options depth).diagnostics.diagnostics.map
          (fun x => (x.code, x.message)) =
        (t.run context loader options depth).diagnostics.diagnostics.map
          (fun x => (x.code, x.message)) := by
  have hsetting : t.setting loader options = ⟨d, loader, options⟩ := by
    unfold setting
    rw [(of_compileWith h).1]
  rw [hsetting] at htext
  have hrole : (⟨.includes, p, d.opening ++ ">" ++ p ++ d.closing, ⟨0, 0⟩, 0⟩ : Tag).role =
      .includes := rfl
  have hexpand := (⟨d, loader, options⟩ : Setting).expand_yields_inlined (Scope.root context)
    hrole hvalue htext hseams hseams'
  rw [run_eq_renderAnew h] at hdone ⊢
  rw [run_eq_renderAnew h']
  obtain ⟨_, hdone', -, hsame⟩ :=
    (⟨d, loader, options⟩ : Setting).renderAnew_yields (Scope.root context) depth hexpand () hdone
  have hdiagnostics : ∀ r : Run Unit, r.diagnostics.diagnostics.map (fun x => (x.code, x.message)) =
      (r.warnings.map Prod.fst).map fun w => (w.code, w.message) := by
    intro r
    rw [r.diagnostics_eq, List.map_map, List.map_map]
    rfl
  refine ⟨hdone', hsame.output.symm, ?_⟩
  rw [hdiagnostics, hdiagnostics, hsame.warnings]

/-- A case where the text ends the block around the partial and opens it again. -/
theorem inlined_renders_same_across_blocks :
    ∃ t t', compileWith .standard "{{#a}}{{>p}}{{/a}}" = .ok t ∧
      compileWith .standard "{{#a}}{{/a}}-{{#a}}n{{/a}}" = .ok t' ∧
      let context := Context.ofList [("p", .inline "{{/a}}-{{#a}}n"),
        ("a", .list [Context.empty, Context.empty])]
      (t.run context Loader.empty {} 1).outcome = .done () ∧
        (t'.run context Loader.empty {} 1).outcome = .done () ∧
        (t'.run context Loader.empty {} 1).output = (t.run context Loader.empty {} 1).output ∧
        (t'.run context Loader.empty {} 1).diagnostics.diagnostics.map
            (fun x => (x.code, x.message)) =
          (t.run context Loader.empty {} 1).diagnostics.diagnostics.map
            (fun x => (x.code, x.message)) := by
  obtain ⟨t, h⟩ := exists_of_isOk
    (show (compileWith .standard "{{#a}}{{>p}}{{/a}}").isOk = true by decide +kernel)
  obtain ⟨t', h'⟩ := exists_of_isOk
    (show (compileWith .standard "{{#a}}{{/a}}-{{#a}}n{{/a}}").isOk = true by decide +kernel)
  refine ⟨t, t', h, h', ?_⟩
  intro context
  have hdone : (t.run context Loader.empty {} 1).outcome = .done () := by
    rw [run_eq_renderAnew h]
    exact Outcome.eq_done_of_isDone (by decide +kernel)
  refine ⟨hdone, inlined_renders_same (d := .standard) (A := "{{#a}}") (B := "{{/a}}")
    (T := "{{/a}}-{{#a}}n") (p := "p") h h' rfl rfl ?_ ?_ hdone⟩
  · decide +kernel
  · decide +kernel

end Template

end Stencil
