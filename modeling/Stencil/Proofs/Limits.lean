import Stencil.Proofs.Strictness

set_option relaxedAutoImplicit false
set_option autoImplicit false

/-!
# Renderings with a greater limit for partials

How deep partials may include partials is limited, and a rendering that comes to the limit fails.
Nothing else depends on the limit: what does not fail for it would have been the same with any
greater one. This is so although a partial is loaded before the limit is looked at, and although
every block with partials is expanded from the first level on.

## Main definitions

* `Stencil.Run.UpTo` — one run fails at the limit, or it is the other one.
* `Stencil.Setting.withLimit` — the setting with another limit.

## Main results

* `Stencil.Run.UpTo.bind` — runs in sequence fail at the limit if one of them does.
* `Stencil.Setting.expandTo_upTo` — an expansion that is granted more levels.
* `Stencil.Setting.renderBlock_upTo` — the rendering of a block with a greater limit.
* `Stencil.Template.greater_limit_changes_no_other_result` — what this means for a whole template.
-/

namespace Stencil

namespace Run

variable {α β : Type}

/-! ### One run fails at the limit -/

/-- The run `r` fails because partials include partials deeper than the limit `m` allows, or the
run `s` is the same. -/
def UpTo (m : Nat) (r s : Run α) : Prop :=
  (∃ name, r.outcome = .failed (.recursivePartial name m)) ∨ s = r

namespace UpTo

variable {m : Nat}

lemma refl (r : Run α) : UpTo m r r := .inr rfl

lemma fail (name : String) (s : Run α) : UpTo m (Run.fail (.recursivePartial name m)) s :=
  .inl ⟨name, rfl⟩

/-- **Runs in sequence.** If the first one fails at the limit, then the second one is not reached;
else it goes on from the same result. -/
lemma bind {r s : Run α} {f g : α → Run β} (hrs : UpTo m r s) (hfg : ∀ a, UpTo m (f a) (g a)) :
    UpTo m (r >>= f) (s >>= g) := by
  rcases hrs with ⟨name, hr⟩ | rfl
  · exact .inl ⟨name, bind_outcome_failed_iff.2 (.inl hr)⟩
  · cases hs : s.outcome with
    | done a =>
      rcases hfg a with ⟨name, hf⟩ | hg
      · exact .inl ⟨name, bind_outcome_failed_iff.2 (.inr ⟨a, hs, hf⟩)⟩
      · exact .inr (by rw [bind_of_done hs, bind_of_done hs, hg])
    | failed e => exact .inr (by rw [bind_of_failed hs, bind_of_failed hs])
    | exhausted => exact .inr (by rw [bind_of_exhausted hs, bind_of_exhausted hs])

lemma flatMap {f g : α → Run (List β)} (hfg : ∀ a, UpTo m (f a) (g a)) (as : List α) :
    UpTo m (Run.flatMap f as) (Run.flatMap g as) := by
  induction as with
  | nil => exact refl _
  | cons a as ih =>
    rw [flatMap_cons, flatMap_cons]
    exact (hfg a).bind fun bs => ih.bind fun rest => refl _

lemma forM {f g : α → Run Unit} (hfg : ∀ a, UpTo m (f a) (g a)) (as : List α) :
    UpTo m (as.forM f) (as.forM g) := by
  induction as with
  | nil => exact refl _
  | cons a as ih =>
    rw [forM_cons, forM_cons]
    exact (hfg a).bind fun _ => ih

lemma between {r s : Run α} (h : UpTo m r s) (before after : Event) :
    UpTo m (r.between before after) (s.between before after) := by
  rcases h with h | rfl
  · exact .inl h
  · exact refl _

end UpTo

end Run

/-! ### Renderings -/

namespace Setting

variable (set : Setting)

/-- The setting in which partials may include partials `m` levels deep. -/
def withLimit (m : Nat) : Setting :=
  { set with options := { set.options with maxPartialDepth := m } }

variable {m m' : Nat}

/-- A token is expanded in the same way, if what it is replaced by is. The text of a partial is had
before the limit is looked at, so it does not depend on the limit. -/
lemma expandToken_upTo (scope : Scope) {f g : Tag → String → Run (List Token)}
    (hfg : ∀ tag text, (f tag text).UpTo m (g tag text)) (t : Token) :
    Run.UpTo m ((set.withLimit m).expandToken scope f t)
      ((set.withLimit m').expandToken scope g t) := by
  rcases unbound_or_bound scope t with hu | ⟨tag, value, rfl, hr, hv⟩
  · rw [expandToken_of_unbound _ hu, expandToken_of_unbound _ hu]
    exact .refl _
  · rw [expandToken_of_bound _ hr hv, expandToken_of_bound _ hr hv]
    have htext : (set.withLimit m').partialText tag value =
        (set.withLimit m).partialText tag value := rfl
    rw [htext]
    refine (Run.UpTo.refl _).bind fun text => ?_
    cases text with
    | none => exact .refl _
    | some text => exact hfg tag text

/-- **An expansion that is granted more levels** does the same, if it does not come to the last one
that it was granted before.

**Proof sketch.** Induction on the levels. On the last one every partial with a text fails at the
limit; above it the other expansion has a level left as well. -/
lemma expandTo_upTo (scope : Scope) {depth depth' : Nat} (h : depth ≤ depth') (ts : List Token) :
    Run.UpTo m ((set.withLimit m).expandTo scope depth ts)
      ((set.withLimit m').expandTo scope depth' ts) := by
  induction depth generalizing depth' ts with
  | zero =>
    rw [expandTo_eq, expandTo_eq]
    exact .flatMap (set.expandToken_upTo scope fun tag text => .fail tag.name _) ts
  | succ depth ih =>
    obtain ⟨depth', rfl⟩ : ∃ d, depth' = d + 1 := ⟨depth' - 1, by omega⟩
    rw [expandTo_eq, expandTo_eq]
    refine .flatMap (set.expandToken_upTo scope fun tag text => ?_) ts
    exact (ih (Nat.le_of_succ_le_succ h) _).between _ _

lemma prepare_upTo (h : m ≤ m') (scope : Scope) (nodes : List Node) (tokens : List Token)
    (range : TokenRange) :
    Run.UpTo m ((set.withLimit m).prepare scope nodes tokens range)
      ((set.withLimit m').prepare scope nodes tokens range) := by
  unfold prepare
  split
  · exact (set.expandTo_upTo scope h _).bind fun expanded => .refl _
  · exact .refl _

lemma renderNode_upTo {f g : List Node → TokenRange → Scope → Run Unit}
    (hfg : ∀ body inner s, (f body inner s).UpTo m (g body inner s)) (scope : Scope) (n : Node) :
    Run.UpTo m ((set.withLimit m).renderNode f scope n)
      ((set.withLimit m').renderNode g scope n) := by
  cases n with
  | text content span => exact .refl _
  | value name raw span => exact .refl _
  | block kind name span inner body =>
    simp only [renderNode]
    cases scope.resolve name with
    | some value => exact .forM (hfg body inner) _
    | none => exact .refl _
  | inclusion name span => exact .refl _

lemma renderWith_upTo (h : m ≤ m')
    {f g : List Node → List Token → TokenRange → Scope → Run Unit}
    (hfg : ∀ body tokens inner s, (f body tokens inner s).UpTo m (g body tokens inner s))
    (nodes : List Node) (tokens : List Token) (range : TokenRange) (scope : Scope) :
    Run.UpTo m ((set.withLimit m).renderWith f nodes tokens range scope)
      ((set.withLimit m').renderWith g nodes tokens range scope) := by
  refine (set.prepare_upTo h scope nodes tokens range).bind fun p => ?_
  exact .forM (set.renderNode_upTo (fun body inner s => hfg body p.2 inner s) scope) p.1

/-- **A block that is rendered with a greater limit** is rendered as before, unless it failed at
the limit before; this is so with every grant. -/
theorem renderBlock_upTo (h : m ≤ m') (depth : Nat) (nodes : List Node) (tokens : List Token)
    (range : TokenRange) (scope : Scope) :
    Run.UpTo m ((set.withLimit m).renderBlock depth nodes tokens range scope)
      ((set.withLimit m').renderBlock depth nodes tokens range scope) := by
  induction depth generalizing nodes tokens range scope with
  | zero =>
    exact set.renderWith_upTo h (f := fun _ _ _ _ => Run.exhausted)
      (g := fun _ _ _ _ => Run.exhausted) (fun _ _ _ _ => .refl _) nodes tokens range scope
  | succ depth ih => exact set.renderWith_upTo h ih nodes tokens range scope

end Setting

/-! ### Whole templates -/

namespace Template

variable {t : Template} {context : Context} {loader : Loader}

/-- **A greater limit for partials changes no result but a failure at the limit.**

A rendering that comes to an end fails because partials include partials deeper than its limit, or
it comes to an end with every greater limit too, and then leaves the same trail: the same texts are
written, the same warnings given and the same texts asked for, and it ends with the same failure or
with none. -/
theorem greater_limit_changes_no_other_result {strict : Bool} {m m' depth : Nat} (hle : m ≤ m')
    (hend : (t.run context loader ⟨strict, m⟩ depth).outcome ≠ .exhausted) :
    (∃ name, (t.run context loader ⟨strict, m⟩ depth).outcome =
      .failed (.recursivePartial name m)) ∨
    (t.run context loader ⟨strict, m'⟩ depth).outcome ≠ .exhausted ∧
      ∀ depth', (t.run context loader ⟨strict, m'⟩ depth').outcome ≠ .exhausted →
        t.run context loader ⟨strict, m'⟩ depth' = t.run context loader ⟨strict, m⟩ depth := by
  have hupTo : (t.run context loader ⟨strict, m⟩ depth).UpTo m
      (t.run context loader ⟨strict, m'⟩ depth) :=
    (t.setting loader ⟨strict, m⟩).renderBlock_upTo hle depth t.nodes t.tokens _ _
  rcases hupTo with hfailed | hsame
  · exact .inl hfailed
  · have hend' : (t.run context loader ⟨strict, m'⟩ depth).outcome ≠ .exhausted := by rwa [hsame]
    exact .inr ⟨hend', fun depth' hdepth' => (run_eq_run hdepth' hend').trans hsame⟩

/-- A case where a partial in the body of a block includes another one, which is loaded. Two levels
are as good as any number above. -/
theorem greater_limit_changes_no_other_result_of_nested_partials :
    ∃ t, compileWith .standard "{{#a}}{{>p}}{{x}}{{/a}}" = .ok t ∧
      let context := Context.ofList
        [("a", .list [Context.empty]), ("p", .inline "<{{>q}}>"), ("q", .resource "f")]
      let loader := (Library.empty.add "f" "text").loader
      (t.run context loader ⟨false, 2⟩ 1).outcome = .done () ∧
        ∀ depth, (t.run context loader ⟨false, 50⟩ depth).outcome ≠ .exhausted →
          t.run context loader ⟨false, 50⟩ depth = t.run context loader ⟨false, 2⟩ 1 := by
  obtain ⟨t, h⟩ := exists_of_isOk
    (show (compileWith .standard "{{#a}}{{>p}}{{x}}{{/a}}").isOk = true by decide +kernel)
  refine ⟨t, h, ?_⟩
  intro context loader
  have hdone : (t.run context loader ⟨false, 2⟩ 1).outcome = .done () := by
    rw [run_eq_renderAnew h]
    exact Outcome.eq_done_of_isDone (by decide +kernel)
  have hend : (t.run context loader ⟨false, 2⟩ 1).outcome ≠ .exhausted := by
    rw [hdone]
    simp
  refine ⟨hdone, ?_⟩
  rcases greater_limit_changes_no_other_result (show 2 ≤ 50 by omega) hend with
    ⟨name, hfailed⟩ | ⟨-, hsame⟩
  · rw [hdone] at hfailed
    cases hfailed
  · exact hsame

end Template

end Stencil
