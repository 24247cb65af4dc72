import Stencil.Proofs.Letters
import Stencil.Render.Block

set_option relaxedAutoImplicit false
set_option autoImplicit false

/-!
# Names and what they can stand for

A context laid over a scope adds values, but it can also take some away: a key of it hides the
same key further out, and with it all paths that start there. No value comes up in a scope that
was not somewhere in the context at the start.

## Main definitions

* `Stencil.Value.parts`, `Stencil.Context.parts`, `Stencil.Scope.parts` — the values inside.
* `Stencil.Scope.Loses` — a name has a value in one scope and none in another.
* `Stencil.Context.Hides` — a context has the first key of a path.

## Main results

* `Stencil.Scope.parts_subset_of_resolve` — names stand for values inside the scope.
* `Stencil.Value.parts_subset_of_mem_scopes` — the scopes of bodies hold no new values.
* `Stencil.Scope.exists_hides_of_loses` — a name is lost in a body only if it is a path that is
  hidden there.
* `Stencil.Token.partials_ofText` — how deep a text is included makes no difference to its
  partials.
-/

namespace Stencil

/-! ### Values inside values -/

mutual

/-- The values inside a value, and the value itself. -/
def Value.parts : Value → List Value
  | .list items => .list items :: Context.partsOfItems items
  | .map context => .map context :: context.parts
  | v => [v]

/-- The values inside a context. -/
def Context.parts : Context → List Value
  | .ofEntries entries => Context.partsOfEntries entries

/-- The values inside entries. -/
def Context.partsOfEntries : List (String × Value) → List Value
  | [] => []
  | (_, v) :: rest => v.parts ++ Context.partsOfEntries rest

/-- The values inside contexts. -/
def Context.partsOfItems : List Context → List Value
  | [] => []
  | c :: rest => c.parts ++ Context.partsOfItems rest

end

lemma Value.mem_parts_self (v : Value) : v ∈ v.parts := by
  cases v <;> simp [Value.parts]

lemma Context.parts_subset_of_mem {c : Context} {items : List Context} (h : c ∈ items) :
    c.parts ⊆ Context.partsOfItems items := by
  induction h with
  | head rest =>
    rw [Context.partsOfItems]
    exact List.subset_append_left _ _
  | tail d _ ih =>
    rw [Context.partsOfItems]
    exact List.subset_append_of_subset_right _ ih

lemma Context.parts_subset_of_get? {c : Context} {key : String} {v : Value}
    (h : c.get? key = some v) : v.parts ⊆ c.parts := by
  obtain ⟨entries⟩ := c
  unfold Context.get? Context.entries at h
  rw [Context.parts]
  induction entries with
  | nil => cases h
  | cons entry rest ih =>
    obtain ⟨k, w⟩ := entry
    rw [Context.partsOfEntries]
    rw [List.lookup_cons] at h
    by_cases hk : (key == k) = true
    · rw [hk] at h
      cases h
      exact List.subset_append_left _ _
    · rw [Bool.not_eq_true] at hk
      rw [hk] at h
      exact List.subset_append_of_subset_right _ (ih h)

lemma Value.parts_subset_of_follow {v w : Value} {keys : List String}
    (h : v.follow keys = some w) : w.parts ⊆ v.parts := by
  induction keys generalizing v with
  | nil =>
    cases h
    exact List.Subset.refl _
  | cons key keys ih =>
    obtain ⟨u, hu, h⟩ := Option.bind_eq_some_iff.1 h
    have hv : u.parts ⊆ v.parts := by
      cases v with
      | map context =>
        rw [Value.parts]
        exact List.subset_cons_of_subset _ (Context.parts_subset_of_get? hu)
      | scalar text => cases hu
      | bool b => cases hu
      | list items => cases hu
      | inline text => cases hu
      | resource id => cases hu
    exact List.Subset.trans (ih h) hv

/-! ### Values in scopes -/

namespace Scope

/-- The values inside the contexts of a scope. -/
def parts (s : Scope) : List Value := s.frames.flatMap Context.parts

lemma parts_overlay (s : Scope) (c : Context) : (s.overlay c).parts = c.parts ++ s.parts := by
  simp [parts, overlay]

lemma parts_root (c : Context) : (root c).parts = c.parts := by
  simp [parts, root]

lemma get?_root (c : Context) (key : String) : (root c).get? key = c.get? key := by
  unfold get? root
  rw [List.findSome?_cons]
  cases c.get? key <;> rfl

lemma get?_overlay (s : Scope) (c : Context) (key : String) :
    (s.overlay c).get? key = (c.get? key).or (s.get? key) := by
  unfold get? overlay
  rw [List.findSome?_cons]
  cases c.get? key <;> rfl

lemma parts_subset_of_get? {s : Scope} {key : String} {v : Value} (h : s.get? key = some v) :
    v.parts ⊆ s.parts := by
  obtain ⟨c, hc, hv⟩ := List.exists_of_findSome?_eq_some h
  intro w hw
  exact List.mem_flatMap.2 ⟨c, hc, Context.parts_subset_of_get? hv hw⟩

/-- **A name stands for a value inside the scope.** -/
theorem parts_subset_of_resolve {s : Scope} {name : String} {v : Value}
    (h : s.resolve name = some v) : v.parts ⊆ s.parts := by
  unfold resolve at h
  split at h
  · next w hw =>
    cases h
    exact parts_subset_of_get? hw
  · split at h
    · cases h
    · next key keys _ =>
      obtain ⟨u, hu, hv⟩ := Option.bind_eq_some_iff.1 h
      exact List.Subset.trans (Value.parts_subset_of_follow hv) (parts_subset_of_get? hu)

end Scope

/-- The scope of a body is the scope around it, or it has one more context. -/
lemma Value.eq_or_overlay_of_mem_scopes {scope s : Scope} {kind : BlockKind} {v : Value}
    (h : s ∈ v.scopes scope kind) :
    s = scope ∨ ∃ c, s = scope.overlay c ∧ c.parts ⊆ v.parts := by
  cases kind with
  | plain =>
    cases v with
    | list items =>
      obtain ⟨c, hc, rfl⟩ := List.mem_map.1 h
      refine .inr ⟨c, rfl, ?_⟩
      rw [Value.parts]
      exact List.subset_cons_of_subset _ (Context.parts_subset_of_mem hc)
    | map context =>
      refine .inr ⟨context, List.mem_singleton.1 h, ?_⟩
      rw [Value.parts]
      exact List.subset_cons_self _ _
    | scalar text => exact .inl (List.mem_singleton.1 h)
    | bool b =>
      cases b with
      | true => exact .inl (List.mem_singleton.1 h)
      | false => cases h
    | inline text => exact .inl (List.mem_singleton.1 h)
    | resource id => exact .inl (List.mem_singleton.1 h)
  | inverted =>
    have h' : s ∈ if v.isTruthy then [] else [scope] := by
      cases v <;> exact h
    split at h'
    · cases h'
    · exact .inl (List.mem_singleton.1 h')

/-- **The scopes of bodies hold no new values.** -/
theorem Value.parts_subset_of_mem_scopes {scope s : Scope} {kind : BlockKind} {v : Value}
    (h : s ∈ v.scopes scope kind) (hv : v.parts ⊆ scope.parts) : s.parts ⊆ scope.parts := by
  rcases eq_or_overlay_of_mem_scopes h with rfl | ⟨c, rfl, hc⟩
  · exact List.Subset.refl _
  · rw [Scope.parts_overlay]
    exact List.append_subset.2 ⟨List.Subset.trans hc hv, List.Subset.refl _⟩

/-! ### Names that are lost -/

/-- The context hides a path of keys: it has the first key, and the path goes on from there. -/
def Context.Hides (c : Context) (name : String) : Prop :=
  ∃ key keys, (Scope.segments name.toList).map String.ofList = key :: keys ∧ keys ≠ [] ∧
    c.contains key = true

namespace Scope

/-- The name has a value in the first scope and none in the second one. -/
def Loses (s s' : Scope) (name : String) : Prop :=
  (s.resolve name).isSome = true ∧ s'.resolve name = none

lemma segments_of_dotless {cs : List Char} (h : '.' ∉ cs) : segments cs = [cs] := by
  induction cs with
  | nil => rfl
  | cons c cs ih =>
    have hc : c ≠ '.' := fun hc => h (hc ▸ List.mem_cons_self)
    have hcs : '.' ∉ cs := fun hcs => h (List.mem_cons_of_mem _ hcs)
    simp only [segments, if_neg hc, ih hcs]

/-- **A name is lost in a body only if it is a path that is hidden** by the context laid over the
scope. -/
theorem exists_hides_of_loses {scope s : Scope} {kind : BlockKind} {v : Value}
    (h : s ∈ v.scopes scope kind) {name : String} (hloses : scope.Loses s name) :
    ∃ c : Context, s = scope.overlay c ∧ c.Hides name := by
  obtain ⟨hsome, hnone⟩ := hloses
  rcases Value.eq_or_overlay_of_mem_scopes h with rfl | ⟨c, rfl, -⟩
  · rw [hnone] at hsome
    cases hsome
  · have hwhole : (scope.overlay c).get? name = none := by
      unfold resolve at hnone
      split at hnone
      · cases hnone
      · assumption
    have hwhole' : scope.get? name = none := by
      rw [get?_overlay, Option.or_eq_none_iff] at hwhole
      exact hwhole.2
    unfold resolve at hsome hnone
    rw [hwhole'] at hsome
    rw [hwhole] at hnone
    cases hsegments : (segments name.toList).map String.ofList with
    | nil =>
      rw [hsegments] at hsome
      cases hsome
    | cons key keys =>
      simp only [hsegments] at hsome hnone
      rw [get?_overlay] at hnone
      cases hkey : c.get? key with
      | none =>
        rw [hkey, Option.none_or] at hnone
        rw [hnone] at hsome
        cases hsome
      | some w =>
        have hcontains : c.contains key = true := by
          rw [Context.contains, hkey]
          rfl
        refine ⟨c, rfl, key, keys, hsegments, ?_, hcontains⟩
        rintro rfl
        rw [hkey] at hnone
        cases hnone

end Scope

/-- A name without points is no path that could be hidden. -/
lemma Context.not_hides_of_dotless {c : Context} {name : String} (h : '.' ∉ name.toList) :
    ¬ c.Hides name := by
  rintro ⟨key, keys, hsegments, hkeys, -⟩
  rw [Scope.segments_of_dotless h] at hsegments
  exact hkeys (List.cons.inj hsegments).2.symm

/-! ### Partials in a text -/

namespace Token

/-- **How deep a text is included makes no difference to its partials.** -/
theorem partials_ofText (d : Delimiters) (level level' : Nat) (text : String) :
    partials (ofText d level text) = partials (ofText d level' text) :=
  partials_eq_of_letters (letters_ofText d level level' text)

end Token

end Stencil
