import Mathlib.Data.List.Perm.Subperm
import Stencil.Proofs.Names

set_option relaxedAutoImplicit false
set_option autoImplicit false

/-!
# Values that are equal up to the order of entries

Equality of values does not look at the order of entries. All that a rendering does with a value is
the same for equal ones: the text that it is written as, whether it is false, and what its keys
stand for. The last point needs that no context has two entries with one key, which is so for every
context that is built by putting entries in.

## Main definitions

* `Stencil.Value.Distinct`, `Stencil.Context.Distinct` — the keys of each context are distinct.
* `Stencil.Value.Agrees` — two values are equal, and the keys in the first one are distinct.

## Main results

* `Stencil.Context.Distinct.insert`, `Stencil.Context.distinct_ofList` — contexts that are built by
  putting entries in have distinct keys.
* `Stencil.Context.perm_keys_of_same`, `Stencil.Context.rel_get?` — equal contexts have the same
  keys, and equal values under each key.
* `Stencil.Value.display_eq_of_same`, `Stencil.Value.isTruthy_eq_of_same` — what does not depend on
  the order of entries.
* `Stencil.Value.Agrees.follow` — paths of keys lead to equal values.
* `Stencil.Value.same_self` — every value is equal to itself.
-/

namespace Stencil

/-! ### Distinct keys -/

mutual

/-- In each context inside the value the keys are distinct. -/
def Value.Distinct : Value → Prop
  | .list items => Context.DistinctItems items
  | .map context => context.Distinct
  | .scalar _ | .bool _ | .inline _ | .resource _ => True

/-- The keys are distinct, and so they are in each context inside. -/
def Context.Distinct : Context → Prop
  | .ofEntries entries => (entries.map Prod.fst).Nodup ∧ Context.DistinctEntries entries

/-- In each context inside the entries the keys are distinct. -/
def Context.DistinctEntries : List (String × Value) → Prop
  | [] => True
  | (_, v) :: rest => v.Distinct ∧ Context.DistinctEntries rest

/-- In each of the contexts and inside them the keys are distinct. -/
def Context.DistinctItems : List Context → Prop
  | [] => True
  | c :: rest => c.Distinct ∧ Context.DistinctItems rest

end

namespace Context

lemma distinctEntries_iff {entries : List (String × Value)} :
    DistinctEntries entries ↔ ∀ entry ∈ entries, entry.2.Distinct := by
  induction entries with
  | nil => simp [DistinctEntries]
  | cons entry rest ih => rw [DistinctEntries, List.forall_mem_cons, ih]

lemma distinctItems_iff {items : List Context} :
    DistinctItems items ↔ ∀ c ∈ items, c.Distinct := by
  induction items with
  | nil => simp [DistinctItems]
  | cons c rest ih => rw [DistinctItems, List.forall_mem_cons, ih]

lemma distinct_iff {c : Context} :
    c.Distinct ↔ c.keys.Nodup ∧ ∀ entry ∈ c.entries, entry.2.Distinct := by
  obtain ⟨entries⟩ := c
  rw [Distinct, distinctEntries_iff]
  rfl

lemma distinct_empty : empty.Distinct := by simp [distinct_iff, empty, keys, entries]

/-- The keys after an entry has been put in. -/
lemma map_fst_insertEntry (key : String) (value : Value) (entries : List (String × Value)) :
    (insertEntry key value entries).map Prod.fst =
      if key ∈ entries.map Prod.fst then entries.map Prod.fst
      else entries.map Prod.fst ++ [key] := by
  induction entries with
  | nil => rfl
  | cons entry rest ih =>
    rw [insertEntry]
    by_cases hkey : key = entry.1
    · simp [hkey]
    · rw [if_neg hkey, List.map_cons, ih]
      by_cases hmem : key ∈ rest.map Prod.fst
      · simp [hmem]
      · simp [hmem, hkey]

lemma mem_insertEntry {key : String} {value : Value} {entries : List (String × Value)}
    {entry : String × Value} (h : entry ∈ insertEntry key value entries) :
    entry = (key, value) ∨ entry ∈ entries := by
  induction entries with
  | nil => exact .inl (List.mem_singleton.1 h)
  | cons first rest ih =>
    rw [insertEntry] at h
    split at h
    · exact (List.mem_cons.1 h).imp_right (List.mem_cons_of_mem first)
    · rcases List.mem_cons.1 h with rfl | h
      · exact .inr List.mem_cons_self
      · exact (ih h).imp_right (List.mem_cons_of_mem first)

/-- **Keys stay distinct** when an entry is put in. -/
theorem Distinct.insert {c : Context} {key : String} {value : Value} (hc : c.Distinct)
    (hvalue : value.Distinct) : (c.insert key value).Distinct := by
  obtain ⟨hkeys, hvalues⟩ := distinct_iff.1 hc
  refine distinct_iff.2 ⟨?_, fun entry hentry => ?_⟩
  · change (List.map Prod.fst (insertEntry key value c.entries)).Nodup
    rw [map_fst_insertEntry]
    split
    · exact hkeys
    · next hnew => exact List.nodup_append.2 ⟨hkeys, by simp, by grind⟩
  · rcases mem_insertEntry hentry with rfl | hentry
    · exact hvalue
    · exact hvalues entry hentry

/-- Every context that is built from entries has distinct keys, if the values have. -/
theorem distinct_ofList {entries : List (String × Value)}
    (h : ∀ entry ∈ entries, entry.2.Distinct) : (ofList entries).Distinct := by
  have main : ∀ (entries : List (String × Value)) (c : Context), c.Distinct →
      (∀ entry ∈ entries, entry.2.Distinct) →
      (entries.foldl (fun c entry => c.insert entry.1 entry.2) c).Distinct := by
    intro entries
    induction entries with
    | nil => exact fun c hc _ => hc
    | cons entry rest ih =>
      intro c hc h
      obtain ⟨hentry, hrest⟩ := List.forall_mem_cons.1 h
      exact ih _ (hc.insert hentry) hrest
  exact main entries empty distinct_empty h

/-! ### Entries and keys -/

lemma mem_entries_of_get? {c : Context} {key : String} {v : Value} (h : c.get? key = some v) :
    (key, v) ∈ c.entries := by
  obtain ⟨before, after, hsplit, -⟩ := List.lookup_eq_some_iff.1 h
  rw [hsplit]
  simp

lemma get?_eq_none_iff {c : Context} {key : String} : c.get? key = none ↔ key ∉ c.keys := by
  unfold get? keys
  rw [List.lookup_eq_none_iff]
  constructor
  · intro h hmem
    obtain ⟨entry, hentry, rfl⟩ := List.mem_map.1 hmem
    simpa using h entry hentry
  · intro h entry hentry
    simp only [bne_iff_ne, ne_eq]
    rintro rfl
    exact h (List.mem_map_of_mem hentry)

/-- If the keys are distinct, then each entry is found under its key. -/
lemma get?_of_mem_entries {c : Context} (hc : c.keys.Nodup) {key : String} {v : Value}
    (h : (key, v) ∈ c.entries) : c.get? key = some v := by
  obtain ⟨entries⟩ := c
  change (entries.map Prod.fst).Nodup at hc
  change (key, v) ∈ entries at h
  change entries.lookup key = some v
  induction entries with
  | nil => cases h
  | cons entry rest ih =>
    obtain ⟨hkey, hrest⟩ := List.nodup_cons.1 hc
    rcases List.mem_cons.1 h with rfl | h
    · simp
    · have hne : (key == entry.1) = false := by
        refine beq_eq_false_iff_ne.2 fun hkey' => hkey (List.mem_map.2 ⟨(key, v), h, hkey'⟩)
      rw [List.lookup_cons, hne]
      exact ih hrest h

lemma entriesIn_iff {entries : List (String × Value)} {other : Context} :
    entriesIn entries other = true ↔
      ∀ entry ∈ entries, ∃ w, other.get? entry.1 = some w ∧ entry.2.same w = true := by
  induction entries with
  | nil => simp [entriesIn]
  | cons entry rest ih =>
    obtain ⟨key, v⟩ := entry
    rw [entriesIn, Bool.and_eq_true, ih, List.forall_mem_cons]
    cases other.get? key <;> simp

lemma same_iff {c c' : Context} : c.same c' = true ↔ c.size = c'.size ∧
    ∀ entry ∈ c.entries, ∃ w, c'.get? entry.1 = some w ∧ entry.2.same w = true := by
  obtain ⟨entries⟩ := c
  rw [same, Bool.and_eq_true, beq_iff_eq, entriesIn_iff]
  rfl

lemma sameItems_iff {items items' : List Context} :
    sameItems items items' = true ↔ List.Forall₂ (fun c c' => c.same c' = true) items items' := by
  induction items generalizing items' with
  | nil => cases items' <;> simp [sameItems]
  | cons c rest ih => cases items' <;> simp [sameItems, ih]

end Context

/-! ### Equal values -/

namespace Value

/-- Values that are equal are the same, or two lists or two contexts with equal contexts in them. -/
lemma cases_of_same {v w : Value} (h : v.same w = true) : v = w ∨
    (∃ items items', v = .list items ∧ w = .list items' ∧
      Context.sameItems items items' = true) ∨
    ∃ c c', v = .map c ∧ w = .map c' ∧ c.same c' = true := by
  cases v <;> cases w <;> simp_all [same]

/-- What does not look into lists and contexts comes to the same for equal values. -/
lemma congr_of_same {α : Type} {f : Value → α}
    (hlist : ∀ items items', f (.list items) = f (.list items'))
    (hmap : ∀ c c', f (.map c) = f (.map c')) {v w : Value} (h : v.same w = true) : f v = f w := by
  rcases cases_of_same h with rfl | ⟨items, items', rfl, rfl, -⟩ | ⟨c, c', rfl, rfl, -⟩
  · rfl
  · exact hlist items items'
  · exact hmap c c'

/-- Equal values are written in the same way. -/
lemma display_eq_of_same {v w : Value} (h : v.same w = true) : v.display = w.display :=
  congr_of_same (f := display) (fun _ _ => rfl) (fun _ _ => rfl) h

/-- Equal values make the same blocks appear. -/
lemma isTruthy_eq_of_same {v w : Value} (h : v.same w = true) : v.isTruthy = w.isTruthy := by
  rcases cases_of_same h with rfl | ⟨items, items', rfl, rfl, hitems⟩ | ⟨c, c', rfl, rfl, -⟩
  · rfl
  · cases Context.sameItems_iff.1 hitems with
    | nil => rfl
    | cons _ _ => rfl
  · rfl

end Value

mutual

/-- A value is equal to itself, if its keys are distinct. -/
theorem Value.same_self : (v : Value) → v.Distinct → v.same v = true
  | .scalar _, _ => by simp [Value.same]
  | .bool _, _ => by simp [Value.same]
  | .inline _, _ => by simp [Value.same]
  | .resource _, _ => by simp [Value.same]
  | .map c, h => by
    rw [Value.same]
    exact c.same_self h
  | .list items, h => by
    rw [Value.same, Context.sameItems_iff]
    exact List.forall₂_same.2 (Context.same_self_of_mem items h)

/-- So is a context. -/
theorem Context.same_self : (c : Context) → c.Distinct → c.same c = true
  | .ofEntries entries, h => Context.same_iff.2 ⟨rfl, fun entry hentry =>
      ⟨entry.2, Context.get?_of_mem_entries (c := .ofEntries entries) h.1 hentry,
        Value.same_self_of_mem entries h.2 entry hentry⟩⟩

/-- So are the values of entries. -/
theorem Value.same_self_of_mem : (entries : List (String × Value)) →
    Context.DistinctEntries entries → ∀ entry ∈ entries, entry.2.same entry.2 = true
  | [], _ => by simp
  | (_, v) :: rest, h =>
    List.forall_mem_cons.2 ⟨v.same_self h.1, Value.same_self_of_mem rest h.2⟩

/-- So are the contexts of a list. -/
theorem Context.same_self_of_mem : (items : List Context) → Context.DistinctItems items →
    ∀ c ∈ items, c.same c = true
  | [], _ => by simp
  | c :: rest, h => List.forall_mem_cons.2 ⟨c.same_self h.1, Context.same_self_of_mem rest h.2⟩

end

/-! ### Values under the same keys -/

/-- The values are equal, and the keys in the first one are distinct. -/
def Value.Agrees (v w : Value) : Prop := v.Distinct ∧ v.same w = true

/-- The values under the keys of a context have distinct keys, if the context has. -/
lemma Context.Distinct.get? {c : Context} (hc : c.Distinct) {key : String} {v : Value}
    (hv : c.get? key = some v) : v.Distinct :=
  (distinct_iff.1 hc).2 _ (mem_entries_of_get? hv)

/-- Equal contexts have the same keys, if those of the first one are distinct: each of them is a key
of the second one, which has as many entries. -/
lemma Context.perm_keys_of_same {c c' : Context} (hc : c.keys.Nodup) (h : c.same c' = true) :
    c.keys.Perm c'.keys := by
  obtain ⟨hsize, hentries⟩ := same_iff.1 h
  have hsub : c.keys ⊆ c'.keys := by
    intro key hkey
    obtain ⟨entry, hentry, rfl⟩ := List.mem_map.1 hkey
    obtain ⟨w, hw, -⟩ := hentries entry hentry
    exact List.mem_map.2 ⟨_, mem_entries_of_get? hw, rfl⟩
  have hlength : c.keys.length = c'.keys.length := by simpa [keys, size] using hsize
  exact (List.Nodup.subperm hc hsub).perm_of_length_le (by omega)

/-- **Equal contexts have equal values under each key.** -/
theorem Context.rel_get? {c c' : Context} (hc : c.Distinct) (h : c.same c' = true) (key : String) :
    Option.Rel Value.Agrees (c.get? key) (c'.get? key) := by
  cases hv : c.get? key with
  | some v =>
    obtain ⟨w, hw, hsame⟩ := (same_iff.1 h).2 _ (mem_entries_of_get? hv)
    rw [hw]
    exact .some ⟨hc.get? hv, hsame⟩
  | none =>
    have hkeys := perm_keys_of_same (distinct_iff.1 hc).1 h
    have hnone : c'.get? key = none := by
      rw [get?_eq_none_iff, ← hkeys.mem_iff]
      exact get?_eq_none_iff.1 hv
    rw [hnone]
    exact .none

namespace Value.Agrees

variable {v w : Value}

lemma get? (h : v.Agrees w) (key : String) : Option.Rel Agrees (v.get? key) (w.get? key) := by
  obtain ⟨hv, hsame⟩ := h
  rcases cases_of_same hsame with rfl | ⟨items, items', rfl, rfl, -⟩ | ⟨c, c', rfl, rfl, hc⟩
  · cases v with
    | map c =>
      rw [Value.same] at hsame
      exact Context.rel_get? hv hsame key
    | scalar text => exact .none
    | bool b => exact .none
    | list items => exact .none
    | inline text => exact .none
    | resource id => exact .none
  · exact .none
  · exact Context.rel_get? hv hc key

/-- **A path of keys leads to equal values.** -/
theorem follow (h : v.Agrees w) (keys : List String) :
    Option.Rel Agrees (v.follow keys) (w.follow keys) := by
  induction keys generalizing v w with
  | nil => exact .some h
  | cons key keys ih =>
    rw [Value.follow, Value.follow]
    generalize v.get? key = v', w.get? key = w', h.get? key = hrel
    cases hrel with
    | none => exact .none
    | some h => exact ih h

end Value.Agrees

end Stencil
