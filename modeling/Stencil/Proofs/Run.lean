import Mathlib.Control.Basic
import Stencil.Render.Run

set_option relaxedAutoImplicit false
set_option autoImplicit false

/-!
# Runs in sequence

How the trail and the end of a run that consists of others follow from those of its parts. The
statements are about one run after the other, about runs over the elements of a list, and about
runs that differ only in how much they were granted.

## Main definitions

* `Stencil.Outcome.isDone` — a run has a result.
* `Stencil.Run.Below` — one run is the other one, unless it was granted too little.
* `Stencil.Run.Ensures` — what holds of all events of a run and of the way in which it ends.
* `Stencil.Event.warnings`, `Stencil.Run.warnings` — the warnings of a trail.

## Main results

* `Stencil.Run.bind_outcome_done_iff`, `Stencil.Run.bind_outcome_failed_iff`,
  `Stencil.Run.bind_outcome_exhausted_iff` — how one run after the other ends.
* `Stencil.Run.flatMap_append` — results over a list in two parts.
* `Stencil.Run.Below.bind`, `Stencil.Run.Below.forM` — a greater grant changes no run that has come
  to an end.
* `Stencil.Run.Ensures.bind`, `Stencil.Run.Ensures.flatMap` — what runs in sequence ensure.
* `Stencil.Run.exists_of_forM_ne_done`, `Stencil.Run.exists_of_mem_events_forM` — where the end of a
  sequence and an event of it come from.
-/

namespace Stencil

/-- There is a result. -/
def Outcome.isDone {α : Type} : Outcome α → Bool
  | done _ => true
  | failed _ => false
  | exhausted => false

lemma Outcome.eq_done_of_isDone {o : Outcome Unit} (h : o.isDone = true) : o = .done () := by
  cases o with
  | done u => rfl
  | failed e => cases h
  | exhausted => cases h

namespace Run

variable {α β : Type}

/-! ### One run after the other -/

lemma pure_eq (a : α) : (pure a : Run α) = ⟨[], .done a⟩ := rfl

lemma bind_eq (r : Run α) (f : α → Run β) : r >>= f = Run.bind r f := rfl

instance : LawfulMonad Run :=
  LawfulMonad.mk' Run (fun r => bind_pure r) pure_bind bind_assoc

lemma bind_of_done {r : Run α} {a : α} (h : r.outcome = .done a) (f : α → Run β) :
    r >>= f = ⟨r.events ++ (f a).events, (f a).outcome⟩ := by
  rw [bind_eq, Run.bind, h]

lemma bind_of_failed {r : Run α} {e : Error} (h : r.outcome = .failed e) (f : α → Run β) :
    r >>= f = ⟨r.events, .failed e⟩ := by
  rw [bind_eq, Run.bind, h]

lemma bind_of_exhausted {r : Run α} (h : r.outcome = .exhausted) (f : α → Run β) :
    r >>= f = ⟨r.events, .exhausted⟩ := by
  rw [bind_eq, Run.bind, h]

/-- One run after the other has a result exactly if both have one. -/
lemma bind_outcome_done_iff {r : Run α} {f : α → Run β} {b : β} :
    (r >>= f).outcome = .done b ↔ ∃ a, r.outcome = .done a ∧ (f a).outcome = .done b := by
  cases h : r.outcome with
  | done a => simp [bind_of_done h]
  | failed e => simp [bind_of_failed h]
  | exhausted => simp [bind_of_exhausted h]

/-- One run after the other is exhausted exactly if the first one is, or has a result with which
the second one is. -/
lemma bind_outcome_exhausted_iff {r : Run α} {f : α → Run β} :
    (r >>= f).outcome = .exhausted ↔
      r.outcome = .exhausted ∨ ∃ a, r.outcome = .done a ∧ (f a).outcome = .exhausted := by
  cases h : r.outcome with
  | done a => simp [bind_of_done h]
  | failed e => simp [bind_of_failed h]
  | exhausted => simp [bind_of_exhausted h]

/-- One run after the other fails exactly if the first one does, or has a result with which the
second one does. -/
lemma bind_outcome_failed_iff {r : Run α} {f : α → Run β} {e : Error} :
    (r >>= f).outcome = .failed e ↔
      r.outcome = .failed e ∨ ∃ a, r.outcome = .done a ∧ (f a).outcome = .failed e := by
  cases h : r.outcome with
  | done a => simp [bind_of_done h]
  | failed e' => simp [bind_of_failed h]
  | exhausted => simp [bind_of_exhausted h]

/-- What follows a run matters only for the results that the run has. -/
lemma bind_congr_done {r : Run α} {f g : α → Run β}
    (h : ∀ a, r.outcome = .done a → f a = g a) : r >>= f = r >>= g := by
  cases hr : r.outcome with
  | done a => rw [bind_of_done hr, bind_of_done hr, h a hr]
  | failed e => rw [bind_of_failed hr, bind_of_failed hr]
  | exhausted => rw [bind_of_exhausted hr, bind_of_exhausted hr]

/-! ### Runs over the elements of a list -/

lemma flatMap_nil (f : α → Run (List β)) : flatMap f [] = pure [] := rfl

lemma flatMap_cons (f : α → Run (List β)) (a : α) (as : List α) :
    flatMap f (a :: as) = (do
      let bs ← f a
      let rest ← flatMap f as
      return bs ++ rest) := rfl

/-- The results over a list in two parts are those over the first part, then those over the
second. -/
lemma flatMap_append (f : α → Run (List β)) (as bs : List α) :
    flatMap f (as ++ bs) = (do
      let cs ← flatMap f as
      let ds ← flatMap f bs
      return cs ++ ds) := by
  induction as with
  | nil => simp [flatMap_nil]
  | cons a as ih =>
    simp only [List.cons_append, flatMap_cons, ih, bind_assoc, pure_bind, List.append_assoc]

/-- Elements that are their own results are left as they are. -/
lemma flatMap_eq_pure {f : α → Run (List α)} {as : List α} (h : ∀ a ∈ as, f a = pure [a]) :
    flatMap f as = pure as := by
  induction as with
  | nil => rfl
  | cons a as ih =>
    rw [flatMap_cons, h a List.mem_cons_self, ih fun b hb => h b (List.mem_cons_of_mem a hb)]
    rfl

/-- If the results over a list are had, then so are those of each element. -/
lemma exists_done_of_flatMap_done {f : α → Run (List β)} {as : List α} {bs : List β}
    (h : (flatMap f as).outcome = .done bs) : ∀ a ∈ as, ∃ cs, (f a).outcome = .done cs := by
  induction as generalizing bs with
  | nil => simp
  | cons a as ih =>
    rw [flatMap_cons, bind_outcome_done_iff] at h
    obtain ⟨cs, ha, h⟩ := h
    obtain ⟨rest, has, -⟩ := bind_outcome_done_iff.1 h
    exact List.forall_mem_cons.2 ⟨⟨cs, ha⟩, ih has⟩

/-- If they are not had because of a failure, then it is that of an element, and the results over
the elements before it are had. -/
lemma exists_of_flatMap_failed {f : α → Run (List β)} {as : List α} {e : Error}
    (h : (flatMap f as).outcome = .failed e) : ∃ before a after bs, as = before ++ a :: after ∧
      (flatMap f before).outcome = .done bs ∧ (f a).outcome = .failed e := by
  induction as with
  | nil => cases h
  | cons a as ih =>
    rw [flatMap_cons, bind_outcome_failed_iff] at h
    rcases h with h | ⟨bs, ha, h⟩
    · exact ⟨[], a, as, [], rfl, rfl, h⟩
    · rcases bind_outcome_failed_iff.1 h with h | ⟨rest, -, h⟩
      · obtain ⟨before, b, after, cs, rfl, hbefore, hb⟩ := ih h
        refine ⟨a :: before, b, after, bs ++ cs, rfl, ?_, hb⟩
        rw [flatMap_cons, bind_outcome_done_iff]
        exact ⟨bs, ha, bind_outcome_done_iff.2 ⟨cs, hbefore, rfl⟩⟩
      · cases h

lemma forM_nil (f : α → Run Unit) : ([] : List α).forM f = pure () := rfl

lemma forM_cons (f : α → Run Unit) (a : α) (as : List α) :
    (a :: as).forM f = (do f a; as.forM f) := rfl

/-- A list in two parts is gone through part by part. -/
lemma forM_append (f : α → Run Unit) (as bs : List α) :
    (as ++ bs).forM f = (do as.forM f; bs.forM f) := by
  induction as with
  | nil => rw [List.nil_append, forM_nil, pure_bind]
  | cons a as ih => rw [List.cons_append, forM_cons, ih, forM_cons, bind_assoc]

/-- Going through the lists of all elements, one list after the other. -/
lemma forM_flatMap (f : β → Run Unit) (g : α → List β) (as : List α) :
    (as.flatMap g).forM f = as.forM fun a => (g a).forM f := by
  induction as with
  | nil => rfl
  | cons a as ih => rw [List.flatMap_cons, forM_append, ih, forM_cons]

lemma forM_map (f : β → Run Unit) (g : α → β) (as : List α) :
    (as.map g).forM f = as.forM fun a => f (g a) := by
  induction as with
  | nil => rfl
  | cons a as ih => rw [List.map_cons, forM_cons, ih, forM_cons]

lemma forM_congr {f g : α → Run Unit} {as : List α} (h : ∀ a ∈ as, f a = g a) :
    as.forM f = as.forM g := by
  induction as with
  | nil => rfl
  | cons a as ih =>
    rw [forM_cons, forM_cons, h a List.mem_cons_self,
      ih fun b hb => h b (List.mem_cons_of_mem a hb)]

/-- A sequence of runs that have results leaves their trails, one after the other. -/
lemma forM_eq_of_done {f : α → Run Unit} {g : α → List Event} {as : List α}
    (h : ∀ a ∈ as, f a = ⟨g a, .done ()⟩) : as.forM f = ⟨as.flatMap g, .done ()⟩ := by
  induction as with
  | nil => rfl
  | cons a as ih =>
    obtain ⟨ha, has⟩ := List.forall_mem_cons.1 h
    rw [forM_cons, ha, bind_of_done rfl, ih has, List.flatMap_cons]

/-- **A sequence that has no result** comes to its end at one of the elements, and the runs before
it have results. -/
lemma exists_of_forM_ne_done {f : α → Run Unit} {as : List α}
    (h : (as.forM f).outcome ≠ .done ()) : ∃ before a after, as = before ++ a :: after ∧
      (before.forM f).outcome = .done () ∧ (as.forM f).outcome = (f a).outcome := by
  induction as with
  | nil => exact absurd rfl h
  | cons a as ih =>
    rw [forM_cons] at h ⊢
    cases ha : (f a).outcome with
    | failed error =>
      rw [bind_of_failed ha]
      exact ⟨[], a, as, rfl, rfl, ha.symm⟩
    | exhausted =>
      rw [bind_of_exhausted ha]
      exact ⟨[], a, as, rfl, rfl, ha.symm⟩
    | done u =>
      rw [bind_of_done ha] at h ⊢
      obtain ⟨before, b, after, rfl, hbefore, hb⟩ := ih h
      exact ⟨a :: before, b, after, rfl, bind_outcome_done_iff.2 ⟨(), ha, hbefore⟩, hb⟩

/-- A sequence ends as the first element that has no result. -/
lemma forM_of_ne_done {f : α → Run Unit} {before after : List α} {a : α}
    (hbefore : (before.forM f).outcome = .done ()) (ha : (f a).outcome ≠ .done ()) :
    ((before ++ a :: after).forM f).outcome = (f a).outcome := by
  rw [forM_append, bind_of_done hbefore, forM_cons]
  cases h : (f a).outcome with
  | done u => exact absurd h ha
  | failed e => rw [bind_of_failed h]
  | exhausted => rw [bind_of_exhausted h]

/-- **Where an event of a sequence comes from**: from the run of an element, and the runs before it
have results. -/
lemma exists_of_mem_events_forM {f : α → Run Unit} {as : List α} {e : Event}
    (h : e ∈ (as.forM f).events) : ∃ before a after, as = before ++ a :: after ∧
      (before.forM f).outcome = .done () ∧ e ∈ (f a).events := by
  induction as with
  | nil => cases h
  | cons a as ih =>
    rw [forM_cons] at h
    cases ha : (f a).outcome with
    | failed error =>
      rw [bind_of_failed ha] at h
      exact ⟨[], a, as, rfl, rfl, h⟩
    | exhausted =>
      rw [bind_of_exhausted ha] at h
      exact ⟨[], a, as, rfl, rfl, h⟩
    | done u =>
      rw [bind_of_done ha] at h
      rcases List.mem_append.1 h with h | h
      · exact ⟨[], a, as, rfl, rfl, h⟩
      · obtain ⟨before, b, after, rfl, hbefore, hb⟩ := ih h
        exact ⟨a :: before, b, after, rfl, bind_outcome_done_iff.2 ⟨(), ha, hbefore⟩, hb⟩

/-! ### What holds of a whole run -/

/-- All events of the run have one property, and the failure or the result, if there is one, has
another one. -/
structure Ensures (P : Event → Prop) (E : Error → Prop) (Q : α → Prop) (r : Run α) : Prop where
  events : ∀ e ∈ r.events, P e
  failure : ∀ e, r.outcome = .failed e → E e
  result : ∀ a, r.outcome = .done a → Q a

namespace Ensures

variable {P : Event → Prop} {E : Error → Prop} {Q : α → Prop} {R : β → Prop} {r : Run α}

lemma pure {a : α} (h : Q a) : Ensures P E Q (Pure.pure a) where
  events e he := by cases he
  failure e he := by cases he
  result b hb := by
    cases hb
    exact h

lemma fail {e : Error} (h : E e) : Ensures P E Q (Run.fail e) where
  events e he := by cases he
  failure e' he := by
    cases he
    exact h
  result a ha := by cases ha

lemma emit {e : Event} (h : P e) : Ensures P E (fun _ => True) (Run.emit e) where
  events _ he := by
    cases List.mem_singleton.1 he
    exact h
  failure e he := by cases he
  result _ _ := trivial

/-- **Runs in sequence** ensure what each of them does. -/
lemma bind {f : α → Run β} (hr : Ensures P E Q r) (hf : ∀ a, Q a → Ensures P E R (f a)) :
    Ensures P E R (r >>= f) := by
  cases ha : r.outcome with
  | done a =>
    obtain ⟨hevents, hfailure, hresult⟩ := hf a (hr.result a ha)
    rw [bind_of_done ha]
    exact ⟨List.forall_mem_append.2 ⟨hr.events, hevents⟩, hfailure, hresult⟩
  | failed e =>
    rw [bind_of_failed ha]
    refine ⟨hr.events, fun e' he => ?_, fun b hb => by cases hb⟩
    cases he
    exact hr.failure e ha
  | exhausted =>
    rw [bind_of_exhausted ha]
    exact ⟨hr.events, fun e he => (by cases he), fun b hb => by cases hb⟩

/-- So do runs over the elements of a list. -/
lemma flatMap {f : α → Run (List β)} {as : List α}
    (h : ∀ a ∈ as, Ensures P E (fun bs => ∀ b ∈ bs, R b) (f a)) :
    Ensures P E (fun bs => ∀ b ∈ bs, R b) (Run.flatMap f as) := by
  induction as with
  | nil =>
    rw [flatMap_nil]
    exact .pure (by simp)
  | cons a as ih =>
    obtain ⟨ha, has⟩ := List.forall_mem_cons.1 h
    rw [flatMap_cons]
    exact ha.bind fun bs hbs => (ih has).bind fun rest hrest =>
      .pure (List.forall_mem_append.2 ⟨hbs, hrest⟩)

lemma between {before after : Event} (h : Ensures P E Q r) (hbefore : P before)
    (hafter : P after) : Ensures P E Q (r.between before after) := by
  refine ⟨List.forall_mem_cons.2 ⟨hbefore, List.forall_mem_append.2 ⟨h.events, ?_⟩⟩, h.failure,
    h.result⟩
  exact List.forall_mem_singleton.2 hafter

end Ensures

/-! ### Runs with a greater grant -/

/-- The run `r` is the run `s`, unless it is exhausted. -/
def Below (r s : Run α) : Prop := r.outcome ≠ .exhausted → s = r

namespace Below

lemma refl (r : Run α) : Below r r := fun _ => rfl

lemma trans {r s t : Run α} (hrs : Below r s) (hst : Below s t) : Below r t := by
  intro hr
  have hs : s = r := hrs hr
  rw [hst (by rwa [hs]), hs]

lemma eq_of_done {r s : Run α} {a : α} (h : Below r s) (hr : r.outcome = .done a) : s = r :=
  h (by rw [hr]; simp)

/-- A run that is not granted to begin is below all others. -/
lemma exhausted (s : Run α) : Below Run.exhausted s := fun h => absurd rfl h

/-- A greater grant for both of two runs in sequence changes nothing once they have come to an
end. -/
lemma bind {r s : Run α} {f g : α → Run β} (hrs : Below r s) (hfg : ∀ a, Below (f a) (g a)) :
    Below (r >>= f) (s >>= g) := by
  intro h
  have hr : r.outcome ≠ .exhausted := fun e => h (bind_outcome_exhausted_iff.2 (.inl e))
  rw [hrs hr]
  refine bind_congr_done fun a ha => hfg a fun e => h ?_
  exact bind_outcome_exhausted_iff.2 (.inr ⟨a, ha, e⟩)

lemma forM {f g : α → Run Unit} (hfg : ∀ a, Below (f a) (g a)) (as : List α) :
    Below (as.forM f) (as.forM g) := by
  induction as with
  | nil => exact refl _
  | cons a as ih =>
    rw [forM_cons, forM_cons]
    exact (hfg a).bind fun _ => ih

end Below

end Run

/-! ### Warnings of a trail -/

/-- The warning that an event gives, with the place of its tag. -/
def Event.warning? : Event → Option (Warning × Span)
  | .warning w span => some (w, span)
  | _ => none

/-- The warnings among events, in order. -/
def Event.warnings (events : List Event) : List (Warning × Span) := events.filterMap warning?

lemma Event.warnings_append (before after : List Event) :
    warnings (before ++ after) = warnings before ++ warnings after :=
  List.filterMap_append

namespace Run

variable {α β : Type}

/-- The warnings of a run, in order. -/
def warnings (r : Run α) : List (Warning × Span) := Event.warnings r.events

lemma output_bind {r : Run α} {a : α} (h : r.outcome = .done a) (f : α → Run β) :
    (r >>= f).output = r.output ++ (f a).output := by
  rw [bind_of_done h]
  simp [output, String.join_append]

lemma warnings_bind {r : Run α} {a : α} (h : r.outcome = .done a) (f : α → Run β) :
    (r >>= f).warnings = r.warnings ++ (f a).warnings := by
  rw [bind_of_done h]
  exact Event.warnings_append _ _

/-- What runs over the elements of a list write, one after the other, if none of them fails. -/
lemma output_forM {f : α → Run Unit} {as : List α} (h : ∀ a ∈ as, (f a).outcome = .done ()) :
    (as.forM f).output = String.join (as.map fun a => (f a).output) := by
  induction as with
  | nil => rfl
  | cons a as ih =>
    obtain ⟨ha, has⟩ := List.forall_mem_cons.1 h
    rw [forM_cons, output_bind ha, ih has, List.map_cons, String.join_cons]

/-- The diagnostics of a run are its warnings in words. -/
lemma diagnostics_eq (r : Run α) :
    r.diagnostics.diagnostics = r.warnings.map fun p => p.1.diagnose p.2 := by
  unfold warnings Event.warnings
  rw [List.map_filterMap]
  change List.filterMap _ r.events = _
  congr 1
  funext e
  cases e <;> rfl

lemma diagnostics_bind {r : Run α} {a : α} (h : r.outcome = .done a) (f : α → Run β) :
    (r >>= f).diagnostics.diagnostics =
      r.diagnostics.diagnostics ++ (f a).diagnostics.diagnostics := by
  simp only [diagnostics_eq, warnings_bind h, List.map_append]

/-- Putting in the text of a partial gives no warning of its own. -/
lemma diagnostics_between (r : Run α) (tag : Tag) (text : String) :
    (r.between (.enter tag text) .leave).diagnostics = r.diagnostics := by
  unfold diagnostics between
  rw [List.filterMap_cons_none rfl, List.filterMap_append]
  exact congrArg DiagnosticLog.mk (List.append_nil _)

/-- Nothing is diagnosed exactly if there is no warning. -/
lemma diagnostics_eq_empty_iff {r : Run α} : r.diagnostics = .empty ↔ r.warnings = [] := by
  have hlog := r.diagnostics_eq
  constructor
  · intro h
    rw [h] at hlog
    exact List.map_eq_nil_iff.1 hlog.symm
  · intro h
    rw [h] at hlog
    exact congrArg DiagnosticLog.mk hlog

end Run

end Stencil
