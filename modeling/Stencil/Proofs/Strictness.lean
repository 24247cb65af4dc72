import Stencil.Proofs.Rereading

set_option relaxedAutoImplicit false
set_option autoImplicit false

/-!
# Strict and lenient renderings

A strict rendering fails where a lenient one gives its first warning, and up to there both do the
same. All that can still be seen of the strict one are the ends of the inclusions it was in.

## Main definitions

* `Stencil.Run.Stops` — one run stops where another one gives its first warning.

## Main results

* `Stencil.Run.Stops.bind` — this is so for runs in sequence if it is so for each of them.
* `Stencil.Setting.renderBlock_stops` — a strict rendering stops where the lenient one warns.
* `Stencil.Template.strict_agrees_up_to_first_warning` — what this means for a whole template.
-/

namespace Stencil

namespace Run

variable {α β : Type}

/-! ### One run stops where another one warns -/

/-- The run `s` does the same as `r`, except that it stops where `r` gives its first warning. After
that it leaves the inclusions that it is in. -/
inductive Stops : Run α → Run α → Prop where
  /-- There is no warning. -/
  | same {r : Run α} (h : r.warnings = []) : Stops r r
  /-- The first warning comes after the events `before`. -/
  | stopped {before closing : List Event} (w : Warning) (span : Span) (after : List Event)
      (outcome : Outcome α) (h : Event.warnings before = [])
      (hclosing : ∀ e ∈ closing, e = .leave) :
      Stops ⟨before ++ .warning w span :: after, outcome⟩ ⟨before ++ closing, .failed w.toError⟩

namespace Stops

lemma pure (a : α) : Stops (Pure.pure a) (Pure.pure a) := .same rfl

lemma fail (e : Error) : Stops (Run.fail e : Run α) (Run.fail e) := .same rfl

lemma emit {e : Event} (h : e.warning? = none) : Stops (Run.emit e) (Run.emit e) :=
  .same (by simp [warnings, Event.warnings, Run.emit, h])

/-- **Runs in sequence**: the second one stops if it does so by itself, and is not reached if the
first one has stopped. -/
lemma bind {r s : Run α} {f g : α → Run β} (hrs : Stops r s) (hfg : ∀ a, Stops (f a) (g a)) :
    Stops (r >>= f) (s >>= g) := by
  cases hrs with
  | same h =>
    cases ho : r.outcome with
    | failed e =>
      rw [bind_of_failed ho, bind_of_failed ho]
      exact .same h
    | exhausted =>
      rw [bind_of_exhausted ho, bind_of_exhausted ho]
      exact .same h
    | done a =>
      rw [bind_of_done ho, bind_of_done ho]
      generalize f a = r', g a = s', hfg a = h'
      cases h' with
      | same h' =>
        refine .same ?_
        change Event.warnings (r.events ++ r'.events) = []
        rw [Event.warnings_append]
        exact List.append_eq_nil_iff.2 ⟨h, h'⟩
      | stopped w span after outcome h' hclosing =>
        simp only [← List.append_assoc]
        refine .stopped w span after outcome ?_ hclosing
        rw [Event.warnings_append]
        exact List.append_eq_nil_iff.2 ⟨h, h'⟩
  | @stopped before closing w span after outcome h hclosing =>
    change Stops _ ⟨before ++ closing, .failed w.toError⟩
    cases outcome with
    | failed e => exact .stopped w span after (.failed e) h hclosing
    | exhausted => exact .stopped w span after .exhausted h hclosing
    | done a =>
      have hsplit : (before ++ .warning w span :: after) ++ (f a).events =
          before ++ .warning w span :: (after ++ (f a).events) := by simp
      change Stops ⟨(before ++ .warning w span :: after) ++ (f a).events, (f a).outcome⟩ _
      rw [hsplit]
      exact .stopped w span _ _ h hclosing

lemma flatMap {f g : α → Run (List β)} (hfg : ∀ a, Stops (f a) (g a)) (as : List α) :
    Stops (Run.flatMap f as) (Run.flatMap g as) := by
  induction as with
  | nil => exact .pure []
  | cons a as ih =>
    rw [flatMap_cons, flatMap_cons]
    exact (hfg a).bind fun bs => ih.bind fun rest => .pure (bs ++ rest)

lemma forM {f g : α → Run Unit} (hfg : ∀ a, Stops (f a) (g a)) (as : List α) :
    Stops (as.forM f) (as.forM g) := by
  induction as with
  | nil => exact .pure ()
  | cons a as ih =>
    rw [forM_cons, forM_cons]
    exact (hfg a).bind fun _ => ih

/-- The text of a partial is left also after a stop. -/
lemma between {r s : Run α} (h : Stops r s) (tag : Tag) (text : String) :
    Stops (r.between (.enter tag text) .leave) (s.between (.enter tag text) .leave) := by
  cases h with
  | same h =>
    refine .same ?_
    change Event.warnings (.enter tag text :: (r.events ++ [.leave])) = []
    rw [← List.cons_append, Event.warnings_append]
    exact List.append_eq_nil_iff.2 ⟨h, rfl⟩
  | @stopped before closing w span after outcome h hclosing =>
    have hbefore : Event.warnings (.enter tag text :: before) = [] := h
    have hclosing' : ∀ e ∈ closing ++ [.leave], e = Event.leave := by
      simpa [or_imp, forall_and] using hclosing
    have := Stops.stopped w span (after ++ [.leave]) outcome hbefore hclosing'
    simpa [Run.between] using this

/-- **What can be seen of it**: without a warning the runs are the same, and with one the strict
run fails with the first. -/
lemma eq_or_failed {r s : Run α} (h : Stops r s) :
    (r.warnings = [] ∧ s = r) ∨ ∃ w span rest, r.warnings = (w, span) :: rest ∧
      s.outcome = .failed w.toError := by
  cases h with
  | same h => exact .inl ⟨h, rfl⟩
  | @stopped before closing w span after outcome h hclosing =>
    refine .inr ⟨w, span, Event.warnings after, ?_, rfl⟩
    change Event.warnings (before ++ .warning w span :: after) = _
    rw [Event.warnings_append, h]
    rfl

end Stops

end Run

/-! ### Renderings -/

namespace Setting

variable (d : Delimiters) (loader : Loader) (maxPartialDepth : Nat)

/-- What is fixed during a lenient rendering. -/
def lenient : Setting := ⟨d, loader, ⟨false, maxPartialDepth⟩⟩

/-- What is fixed during a strict rendering. -/
def strict : Setting := ⟨d, loader, ⟨true, maxPartialDepth⟩⟩

lemma warn_stops (w : Warning) (span : Span) :
    Run.Stops ((lenient d loader maxPartialDepth).warn w span)
      ((strict d loader maxPartialDepth).warn w span) := by
  have hbefore : Event.warnings [] = [] := rfl
  have hclosing : ∀ e ∈ ([] : List Event), e = .leave := by simp
  exact .stopped w span [] (.done ()) hbefore hclosing

lemma partialText_stops (tag : Tag) (value : Value) :
    Run.Stops ((lenient d loader maxPartialDepth).partialText tag value)
      ((strict d loader maxPartialDepth).partialText tag value) := by
  cases value with
  | resource id =>
    refine .bind (.emit rfl) fun _ => ?_
    dsimp only [lenient, strict]
    cases loader.load id with
    | ok text => exact .pure _
    | error cause => exact .bind (warn_stops _ _ _ _ _) fun _ => .pure none
  | scalar text => exact .pure _
  | bool b => exact .pure _
  | list items => exact .pure _
  | map context => exact .pure _
  | inline text => exact .pure _

lemma expandToken_stops (scope : Scope) {f g : Tag → String → Run (List Token)}
    (hfg : ∀ tag text, (f tag text).Stops (g tag text)) (t : Token) :
    Run.Stops ((lenient d loader maxPartialDepth).expandToken scope f t)
      ((strict d loader maxPartialDepth).expandToken scope g t) := by
  rcases unbound_or_bound scope t with hu | ⟨tag, value, rfl, hr, hv⟩
  · rw [expandToken_of_unbound _ hu, expandToken_of_unbound _ hu]
    exact .pure _
  · rw [expandToken_of_bound _ hr hv, expandToken_of_bound _ hr hv]
    refine .bind (partialText_stops _ _ _ _ _) fun text => ?_
    cases text with
    | none => exact .pure []
    | some text => exact hfg tag text

lemma expandTo_stops (scope : Scope) (depth : Nat) (ts : List Token) :
    Run.Stops ((lenient d loader maxPartialDepth).expandTo scope depth ts)
      ((strict d loader maxPartialDepth).expandTo scope depth ts) := by
  induction depth generalizing ts with
  | zero =>
    rw [expandTo_eq, expandTo_eq]
    exact .flatMap (expandToken_stops _ _ _ _ fun tag text => .fail _) ts
  | succ depth ih =>
    rw [expandTo_eq, expandTo_eq]
    exact .flatMap (expandToken_stops _ _ _ _ fun tag text => (ih _).between tag text) ts

lemma prepare_stops (scope : Scope) (nodes : List Node) (tokens : List Token)
    (range : TokenRange) :
    Run.Stops ((lenient d loader maxPartialDepth).prepare scope nodes tokens range)
      ((strict d loader maxPartialDepth).prepare scope nodes tokens range) := by
  unfold prepare
  split
  · refine .bind (expandTo_stops _ _ _ _ _ _) fun expanded => ?_
    refine .bind ?_ fun nodes => .pure _
    cases Node.ofTokens expanded with
    | ok nodes => exact .pure nodes
    | error e => exact .fail e
  · exact .pure _

lemma renderNode_stops {f g : List Node → TokenRange → Scope → Run Unit}
    (hfg : ∀ body inner s, (f body inner s).Stops (g body inner s)) (scope : Scope) (n : Node) :
    Run.Stops ((lenient d loader maxPartialDepth).renderNode f scope n)
      ((strict d loader maxPartialDepth).renderNode g scope n) := by
  cases n with
  | text content span => exact .emit rfl
  | value name raw span =>
    simp only [renderNode]
    cases scope.resolve name with
    | some value => exact .emit rfl
    | none => exact .bind (warn_stops _ _ _ _ _) fun _ => .emit rfl
  | block kind name span inner body =>
    simp only [renderNode]
    cases scope.resolve name with
    | some value => exact .forM (hfg body inner) _
    | none => exact .pure ()
  | inclusion name span => exact .pure ()

lemma renderWith_stops {f g : List Node → List Token → TokenRange → Scope → Run Unit}
    (hfg : ∀ body tokens inner s, (f body tokens inner s).Stops (g body tokens inner s))
    (nodes : List Node) (tokens : List Token) (range : TokenRange) (scope : Scope) :
    Run.Stops ((lenient d loader maxPartialDepth).renderWith f nodes tokens range scope)
      ((strict d loader maxPartialDepth).renderWith g nodes tokens range scope) := by
  refine .bind (prepare_stops _ _ _ _ _ _ _) fun p => ?_
  exact .forM (renderNode_stops _ _ _ (fun body inner s => hfg body p.2 inner s) scope) p.1

/-- **A strict rendering stops where the lenient one gives its first warning**, with every
grant. -/
theorem renderBlock_stops (depth : Nat) (nodes : List Node) (tokens : List Token)
    (range : TokenRange) (scope : Scope) :
    Run.Stops ((lenient d loader maxPartialDepth).renderBlock depth nodes tokens range scope)
      ((strict d loader maxPartialDepth).renderBlock depth nodes tokens range scope) := by
  induction depth generalizing nodes tokens range scope with
  | zero =>
    exact renderWith_stops _ _ _ (f := fun _ _ _ _ => Run.exhausted)
      (g := fun _ _ _ _ => Run.exhausted) (fun _ _ _ _ => .same rfl) nodes tokens range scope
  | succ depth ih => exact renderWith_stops _ _ _ ih nodes tokens range scope

end Setting

/-! ### Whole templates -/

namespace Template

variable {t : Template} {context : Context} {loader : Loader}

/-- Two grants with which a rendering comes to an end make no difference. -/
lemma run_eq_run {options : Options} {depth depth' : Nat}
    (h : (t.run context loader options depth).outcome ≠ .exhausted)
    (h' : (t.run context loader options depth').outcome ≠ .exhausted) :
    t.run context loader options depth = t.run context loader options depth' := by
  rcases Nat.le_total depth depth' with hle | hle
  · exact (Call.run_below_of_le (t.setting loader options) hle (t.entry context) h).symm
  · exact Call.run_below_of_le (t.setting loader options) hle (t.entry context) h'

/-- A strict rendering that has come to an end does the same as the lenient one, or fails with its
first warning. -/
lemma strict_eq_or_failed {maxPartialDepth depth depth' : Nat}
    (hlenient : (t.run context loader ⟨false, maxPartialDepth⟩ depth).outcome ≠ .exhausted)
    (hstrict : (t.run context loader ⟨true, maxPartialDepth⟩ depth').outcome ≠ .exhausted) :
    ((t.run context loader ⟨false, maxPartialDepth⟩ depth).warnings = [] ∧
      t.run context loader ⟨true, maxPartialDepth⟩ depth' =
        t.run context loader ⟨false, maxPartialDepth⟩ depth) ∨
    ∃ w span rest, (t.run context loader ⟨false, maxPartialDepth⟩ depth).warnings =
        (w, span) :: rest ∧
      (t.run context loader ⟨true, maxPartialDepth⟩ depth').outcome = .failed w.toError := by
  have hstops : (t.run context loader ⟨false, maxPartialDepth⟩ depth).Stops
      (t.run context loader ⟨true, maxPartialDepth⟩ depth) :=
    Setting.renderBlock_stops t.delimiters loader maxPartialDepth depth t.nodes t.tokens _ _
  have hsame : t.run context loader ⟨true, maxPartialDepth⟩ depth' =
      t.run context loader ⟨true, maxPartialDepth⟩ depth := by
    refine run_eq_run hstrict ?_
    rcases hstops.eq_or_failed with ⟨-, heq⟩ | ⟨w, span, rest, -, hfailed⟩
    · rwa [heq]
    · rw [hfailed]
      simp
  rw [hsame]
  exact hstops.eq_or_failed

/-- **A strict and a lenient rendering agree up to the first warning**, if both come to an end.

* The strict one succeeds exactly if the lenient one does and gives no warning; then both write the
  same and ask for the same texts, and neither gives a warning.
* If the lenient one gives a warning, then the strict one fails with the first one, whatever
  becomes of the lenient one.
* If the lenient one fails without a warning, then the strict one fails with the same failure. -/
theorem strict_agrees_up_to_first_warning {maxPartialDepth depth depth' : Nat}
    (hlenient : (t.run context loader ⟨false, maxPartialDepth⟩ depth).outcome ≠ .exhausted)
    (hstrict : (t.run context loader ⟨true, maxPartialDepth⟩ depth').outcome ≠ .exhausted) :
    let lenient := t.run context loader ⟨false, maxPartialDepth⟩ depth
    let strict := t.run context loader ⟨true, maxPartialDepth⟩ depth'
    ((strict.outcome = .done () ↔ lenient.outcome = .done () ∧ lenient.diagnostics = .empty) ∧
      (strict.outcome = .done () → strict.output = lenient.output ∧
        strict.loads = lenient.loads ∧ strict.diagnostics = .empty)) ∧
    (∀ first rest, lenient.diagnostics.diagnostics = first :: rest →
      (first.code = .undefinedVariable → ∃ name, first.message = "Undefined variable: " ++ name ∧
        strict.outcome = .failed (.undefinedVariable name)) ∧
      (first.code = .partialNotFound → ∃ name id,
        first.message = "Partial '" ++ name ++ "' skipped: " ++ (LoadError.notFound id).message ∧
        strict.outcome = .failed (.partialNotFound name)) ∧
      (first.code = .partialUnreadable → ∃ name id cause,
        first.message =
          "Partial '" ++ name ++ "' skipped: " ++ (LoadError.unreadable id cause).message ∧
        strict.outcome = .failed (.partialUnreadable name cause))) ∧
    (∀ e, lenient.outcome = .failed e → lenient.diagnostics = .empty →
      strict.outcome = .failed e) := by
  intro lenient strict
  rcases strict_eq_or_failed hlenient hstrict with ⟨hnone, heq⟩ | ⟨w, span, rest, hwarn, hfailed⟩
  · -- without a warning both are the same
    have heq' : strict = lenient := heq
    have hempty : lenient.diagnostics = .empty := Run.diagnostics_eq_empty_iff.2 hnone
    rw [heq']
    refine ⟨⟨⟨fun h => ⟨h, hempty⟩, fun h => h.1⟩, fun _ => ⟨rfl, rfl, hempty⟩⟩,
      fun first rest hfirst => ?_, fun e he _ => he⟩
    rw [hempty] at hfirst
    cases hfirst
  · have hfailed' : strict.outcome = .failed w.toError := hfailed
    have hwarn' : lenient.warnings = (w, span) :: rest := hwarn
    have hne : lenient.diagnostics ≠ .empty := by
      rw [Ne, Run.diagnostics_eq_empty_iff, hwarn']
      simp
    have hundone : strict.outcome ≠ .done () := by
      rw [hfailed']
      simp
    refine ⟨⟨⟨fun h => absurd h hundone, fun h => absurd h.2 hne⟩, fun h => absurd h hundone⟩,
      fun first others hfirst => ?_, fun e _ h => absurd h hne⟩
    rw [hfailed']
    rw [lenient.diagnostics_eq, hwarn'] at hfirst
    obtain ⟨rfl, -⟩ := List.cons.inj hfirst
    cases w with
    | undefinedVariable name =>
      refine ⟨fun _ => ⟨name, rfl, rfl⟩, fun h => ?_, fun h => ?_⟩
      · cases h
      · cases h
    | partialUnavailable name cause =>
      cases cause with
      | notFound id =>
        refine ⟨fun h => ?_, fun _ => ⟨name, id, rfl, rfl⟩, fun h => ?_⟩
        · cases h
        · cases h
      | unreadable id cause =>
        refine ⟨fun h => ?_, fun h => ?_, fun _ => ⟨name, id, cause, rfl, rfl⟩⟩
        · cases h
        · cases h

/-- A case where a partial that is missing comes before a variable without value. -/
theorem strict_agrees_up_to_first_warning_of_missing_partial :
    let t : Template := ⟨.standard, "{{>p}}{{#a}}{{x}}{{/a}}",
      [.tag ⟨.includes, "p", "{{>p}}", ⟨0, 6⟩, 0⟩, .tag ⟨.opens .plain, "a", "{{#a}}", ⟨6, 12⟩, 0⟩,
        .tag ⟨.value, "x", "{{x}}", ⟨12, 17⟩, 0⟩, .tag ⟨.closes, "a", "{{/a}}", ⟨17, 23⟩, 0⟩],
      [.inclusion "p" ⟨0, 6⟩, .block .plain "a" ⟨6, 23⟩ ⟨2, 3⟩ [.value "x" "{{x}}" ⟨12, 17⟩]]⟩
    let context := Context.ofList [("a", .bool true), ("p", .resource "q")]
    compileWith .standard "{{>p}}{{#a}}{{x}}{{/a}}" = .ok t ∧
      (t.run context Loader.empty ⟨false, 50⟩ 1).outcome ≠ .exhausted ∧
      (t.run context Loader.empty ⟨true, 50⟩ 0).outcome ≠ .exhausted ∧
      ∃ name id, "Partial 'p' skipped: resource not found: q" =
          "Partial '" ++ name ++ "' skipped: " ++ (LoadError.notFound id).message ∧
        (t.run context Loader.empty ⟨true, 50⟩ 0).outcome = .failed (.partialNotFound name) := by
  intro t context
  have hlenient : (t.run context Loader.empty ⟨false, 50⟩ 1).outcome = .done () := by rfl
  have hstrict : (t.run context Loader.empty ⟨true, 50⟩ 0).outcome =
      .failed (.partialNotFound "p") := by rfl
  have hlenient' : (t.run context Loader.empty ⟨false, 50⟩ 1).outcome ≠ .exhausted := by
    rw [hlenient]
    simp
  have hstrict' : (t.run context Loader.empty ⟨true, 50⟩ 0).outcome ≠ .exhausted := by
    rw [hstrict]
    simp
  have htokens : Token.ofText .standard 0 "{{>p}}{{#a}}{{x}}{{/a}}" = t.tokens := by
    decide +kernel +zetaReduce
  have hcompile : compileWith .standard "{{>p}}{{#a}}{{x}}{{/a}}" = .ok t := by
    unfold compileWith
    rw [htokens]
    rfl
  have hfirst : (t.run context Loader.empty ⟨false, 50⟩ 1).diagnostics.diagnostics =
      [⟨.partialNotFound, "Partial 'p' skipped: resource not found: q", ⟨0, 6⟩⟩,
        ⟨.undefinedVariable, "Undefined variable: x", ⟨12, 17⟩⟩] := by rfl
  obtain ⟨-, hwarned, -⟩ := strict_agrees_up_to_first_warning hlenient' hstrict'
  exact ⟨hcompile, hlenient', hstrict', (hwarned _ _ hfirst).2.1 rfl⟩

end Template

end Stencil
