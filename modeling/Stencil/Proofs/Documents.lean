import Mathlib.Data.String.Basic
import Stencil.Json.Reader

set_option relaxedAutoImplicit false
set_option autoImplicit false

/-!
# Documents that are read, and places in them

The members of an object are kept sorted by key, so that no key is there twice. This holds of every
object inside a document that is read from a text.

A place in a document is the end of a path: a path of keys goes from object to object and leads to
any document; a path that also goes through the elements of arrays leads to an object again.

## Main definitions

* `Stencil.Json.Sorted` — the members of each object in a document are sorted by key.
* `Stencil.Json.follow` — the document at the end of a path of keys.
* `Stencil.Json.level?` — the members of the object at the end of a path through objects and arrays.
* `Stencil.Json.presentKeys` — the keys of the members that are not null.

## Main results

* `Stencil.Json.Sorted.insertMember` — members stay sorted when one is put in.
* `Stencil.Json.sorted_of_ofText` — every document that is read from a text is sorted.
-/

namespace Stencil

namespace Json

/-! ### Sorted documents -/

mutual

/-- The members of each object in the document are sorted by key, and no key is there twice. -/
def Sorted : Json → Prop
  | .array items => SortedItems items
  | .object members => (members.map Prod.fst).Pairwise (· < ·) ∧ SortedMembers members
  | .null | .bool _ | .number _ | .text _ => True

/-- The elements of an array are sorted documents. -/
def SortedItems : List Json → Prop
  | [] => True
  | json :: rest => json.Sorted ∧ SortedItems rest

/-- The documents of members are sorted. -/
def SortedMembers : List (String × Json) → Prop
  | [] => True
  | (_, json) :: rest => json.Sorted ∧ SortedMembers rest

end

lemma sorted_array_iff {items : List Json} :
    (array items).Sorted ↔ ∀ json ∈ items, json.Sorted := by
  rw [Sorted]
  induction items with
  | nil => simp [SortedItems]
  | cons json rest ih => rw [SortedItems, List.forall_mem_cons, ih]

lemma sorted_object_iff {members : List (String × Json)} :
    (object members).Sorted ↔
      (members.map Prod.fst).Pairwise (· < ·) ∧ ∀ member ∈ members, member.2.Sorted := by
  have hmembers : SortedMembers members ↔ ∀ member ∈ members, member.2.Sorted := by
    induction members with
    | nil => simp [SortedMembers]
    | cons member rest ih => rw [SortedMembers, List.forall_mem_cons, ih]
  rw [Sorted, hmembers]

/-- The keys of a sorted object are distinct. -/
lemma Sorted.nodup {members : List (String × Json)} (h : (object members).Sorted) :
    (members.map Prod.fst).Nodup :=
  (sorted_object_iff.1 h).1.imp fun hlt => ne_of_lt hlt

/-- A member is put in with its key, and the other keys stay. -/
lemma mem_insertMember {key : String} {value : Json} {members : List (String × Json)}
    {member : String × Json} (h : member ∈ insertMember key value members) :
    member = (key, value) ∨ member ∈ members := by
  induction members with
  | nil => exact .inl (List.mem_singleton.1 h)
  | cons first rest ih =>
    rw [insertMember] at h
    split at h
    · exact (List.mem_cons.1 h).imp_right (List.mem_cons_of_mem first)
    · split at h
      · exact List.mem_cons.1 h
      · rcases List.mem_cons.1 h with rfl | h
        · exact .inr List.mem_cons_self
        · exact (ih h).imp_right (List.mem_cons_of_mem first)

/-- **Members stay sorted** when one is put in. -/
theorem Sorted.insertMember {members : List (String × Json)} (h : (object members).Sorted)
    {value : Json} (hvalue : value.Sorted) (key : String) :
    (object (Json.insertMember key value members)).Sorted := by
  obtain ⟨hkeys, hmembers⟩ := sorted_object_iff.1 h
  refine sorted_object_iff.2 ⟨?_, fun member hmember => ?_⟩
  · clear h hmembers
    induction members with
    | nil => exact List.pairwise_singleton _ _
    | cons first rest ih =>
      obtain ⟨hfirst, hrest⟩ := List.pairwise_cons.1 hkeys
      rw [Json.insertMember]
      split
      · next heq => exact List.pairwise_cons.2 ⟨heq ▸ hfirst, hrest⟩
      · next hne =>
        split
        · next hlt =>
          refine List.pairwise_cons.2 ⟨fun other hother => ?_, hkeys⟩
          rcases List.mem_cons.1 hother with rfl | hother
          · exact hlt
          · exact lt_trans hlt (hfirst other hother)
        · next hnlt =>
          refine List.pairwise_cons.2 ⟨fun other hother => ?_, ih hrest⟩
          obtain ⟨member, hmember, rfl⟩ := List.mem_map.1 hother
          rcases mem_insertMember hmember with rfl | hmember
          · exact lt_of_le_of_ne (not_lt.1 hnlt) (Ne.symm hne)
          · exact hfirst _ (List.mem_map_of_mem hmember)
  · rcases mem_insertMember hmember with rfl | hmember
    · exact hvalue
    · exact hmembers member hmember

/-! ### Documents that are read -/

namespace Reader

variable {α β : Type}

lemma exists_of_bind_eq_ok {x : Except Error α} {f : α → Except Error β} {b : β}
    (h : x >>= f = .ok b) : ∃ a, x = .ok a ∧ f a = .ok b := by
  cases x with
  | error e => cases h
  | ok a => exact ⟨a, rfl, h⟩

lemma exists_of_map_eq_ok {x : Except Error α} {f : α → β} {b : β} (h : x.map f = .ok b) :
    ∃ a, x = .ok a ∧ f a = b := by
  cases x with
  | error e => cases h
  | ok a => exact ⟨a, rfl, Except.ok.inj h⟩

/-- What holds of each element that is read holds of all elements of an array. -/
lemma forall_of_elements {item : Reader α} {P : α → Prop}
    (hitem : ∀ s a rest, item s = .ok (a, rest) → P a) {fuel : Nat} {first : Bool}
    {s rest : List Char} {as : List α} (h : elements item fuel first s = .ok (as, rest)) :
    ∀ a ∈ as, P a := by
  induction fuel generalizing first s as rest with
  | zero => cases h
  | succ fuel ih =>
    obtain ⟨next, -, h⟩ := exists_of_bind_eq_ok h
    cases next with
    | none =>
      obtain ⟨_, -, h⟩ := exists_of_bind_eq_ok h
      cases h
      simp
    | some s =>
      obtain ⟨⟨a, s'⟩, ha, h⟩ := exists_of_bind_eq_ok h
      obtain ⟨⟨as', s''⟩, has, h⟩ := exists_of_bind_eq_ok h
      cases h
      exact List.forall_mem_cons.2 ⟨hitem _ _ _ ha, ih has⟩

/-- What each member that is read keeps is kept by all members of an object. -/
lemma members_keeps {key : Reader String} {step : β → String → Reader β} {P : β → Prop}
    (hstep : ∀ acc k s acc' rest, P acc → step acc k s = .ok (acc', rest) → P acc') {fuel : Nat}
    {first : Bool} {acc acc' : β} {s rest : List Char} (hacc : P acc)
    (h : members key step fuel first acc s = .ok (acc', rest)) : P acc' := by
  induction fuel generalizing first acc s with
  | zero => cases h
  | succ fuel ih =>
    obtain ⟨⟨next, s'⟩, -, h⟩ := exists_of_bind_eq_ok h
    cases next with
    | none =>
      cases h
      exact hacc
    | some k =>
      obtain ⟨⟨acc'', s''⟩, hk, h⟩ := exists_of_bind_eq_ok h
      exact ih (hstep _ _ _ _ _ hacc hk) h

/-- A value is sorted, if the values inside it are. -/
lemma sorted_of_valueOver {inner : Option (Reader Json)}
    (hinner : ∀ item ∈ inner, ∀ s json rest, item s = .ok (json, rest) → json.Sorted)
    {s rest : List Char} {json : Json} (h : valueOver inner s = .ok (json, rest)) :
    json.Sorted := by
  unfold valueOver at h
  split at h
  · cases h
  · obtain ⟨s, -, h⟩ := exists_of_map_eq_ok h
    cases h
    trivial
  · obtain ⟨s, -, h⟩ := exists_of_map_eq_ok h
    cases h
    trivial
  · obtain ⟨s, -, h⟩ := exists_of_map_eq_ok h
    cases h
    trivial
  · obtain ⟨t, -, h⟩ := exists_of_map_eq_ok h
    cases h
    trivial
  · cases inner with
    | none => cases h
    | some item =>
      obtain ⟨⟨items, s⟩, hitems, h⟩ := exists_of_map_eq_ok h
      cases h
      exact sorted_array_iff.2 (forall_of_elements (hinner item rfl) hitems)
  · cases inner with
    | none => cases h
    | some item =>
      obtain ⟨⟨ms, s⟩, hms, h⟩ := exists_of_map_eq_ok h
      cases h
      refine members_keeps (P := fun ms => (object ms).Sorted) ?_ ?_ hms
      · intro acc k s acc' rest hacc hk
        obtain ⟨s', -, hk⟩ := exists_of_bind_eq_ok hk
        obtain ⟨⟨v, s''⟩, hv, hk⟩ := exists_of_bind_eq_ok hk
        cases hk
        exact hacc.insertMember (hinner item rfl _ _ _ hv) k
      · exact sorted_object_iff.2 ⟨.nil, by simp⟩
  · split at h
    · obtain ⟨n, -, h⟩ := exists_of_map_eq_ok h
      cases h
      trivial
    · cases h

lemma sorted_of_value {depth : Nat} {s rest : List Char} {json : Json}
    (h : value depth s = .ok (json, rest)) : json.Sorted := by
  induction depth generalizing s json rest with
  | zero => exact sorted_of_valueOver (by simp) h
  | succ depth ih =>
    refine sorted_of_valueOver (fun item hitem s json rest h => ?_) h
    cases hitem
    exact ih h

end Reader

/-- **Every document that is read from a text is sorted.** -/
theorem sorted_of_ofText {s : String} {json : Json} (h : ofText s = .ok json) : json.Sorted := by
  obtain ⟨⟨json', rest⟩, hread, h⟩ := Reader.exists_of_bind_eq_ok h
  dsimp only at h
  split at h
  · cases h
    exact Reader.sorted_of_value hread
  · cases h

/-! ### Places in a document -/

/-- The document is null. -/
def isNull : Json → Bool
  | null => true
  | _ => false

/-- The document is an object. -/
def isObject : Json → Bool
  | object _ => true
  | _ => false

/-- The members of an object; anything else has none. -/
def members : Json → List (String × Json)
  | object members => members
  | _ => []

/-- The keys of the members that are not null, in order. -/
def presentKeys (members : List (String × Json)) : List String :=
  (members.filter fun member => !member.2.isNull).map Prod.fst

/-- The member of an object with a key. -/
def get? : Json → String → Option Json
  | object members, key => members.lookup key
  | _, _ => none

/-- The document at the end of a path of keys. -/
def follow : Json → List String → Option Json
  | json, [] => some json
  | json, key :: keys => (json.get? key).bind fun inner => inner.follow keys

/-- The members of an object, or those of the element at a place in an array. -/
def inside? : Json → Option Nat → Option (List (String × Json))
  | object members, none => some members
  | array items, some i => items[i]?.map members
  | _, _ => none

/-- The members at the end of a path, which goes from object to object: each step leads to the
member with a key if that is an object, or to an element of it if it is an array. An element that is
no object counts as one without members. -/
def level? (members : List (String × Json)) :
    List (String × Option Nat) → Option (List (String × Json))
  | [] => some members
  | (key, place) :: path =>
    (members.lookup key).bind fun json => (json.inside? place).bind fun inner => level? inner path

lemma exists_of_isObject {json : Json} (h : json.isObject = true) :
    ∃ members, json = .object members := by
  cases json with
  | object members => exact ⟨members, rfl⟩
  | null => cases h
  | bool b => cases h
  | number n => cases h
  | text s => cases h
  | array items => cases h

lemma members_of_not_isObject {json : Json} (h : json.isObject = false) : json.members = [] := by
  cases json with
  | object members => cases h
  | null => rfl
  | bool b => rfl
  | number n => rfl
  | text s => rfl
  | array items => rfl

lemma Sorted.get? {json inner : Json} (h : json.Sorted) {key : String}
    (hinner : json.get? key = some inner) : inner.Sorted := by
  cases json with
  | object members =>
    obtain ⟨before, after, hsplit, -⟩ := List.lookup_eq_some_iff.1 hinner
    exact (sorted_object_iff.1 h).2 (key, inner) (by simp [hsplit])
  | null => cases hinner
  | bool b => cases hinner
  | number n => cases hinner
  | text s => cases hinner
  | array items => cases hinner

lemma Sorted.members {json : Json} (h : json.Sorted) : (object json.members).Sorted := by
  cases hobject : json.isObject with
  | true =>
    obtain ⟨members, rfl⟩ := exists_of_isObject hobject
    exact h
  | false =>
    rw [members_of_not_isObject hobject]
    exact sorted_object_iff.2 ⟨.nil, by simp⟩

lemma Sorted.inside? {json : Json} (h : json.Sorted) {place : Option Nat}
    {inner : List (String × Json)} (hinner : json.inside? place = some inner) :
    (object inner).Sorted := by
  unfold Json.inside? at hinner
  split at hinner
  · cases hinner
    exact h
  · next items i =>
    obtain ⟨item, hitem, rfl⟩ := Option.map_eq_some_iff.1 hinner
    exact (sorted_array_iff.1 h item (List.mem_of_getElem? hitem)).members
  · cases hinner

lemma Sorted.level? {members inner : List (String × Json)} (h : (object members).Sorted)
    {path : List (String × Option Nat)} (hinner : Json.level? members path = some inner) :
    (object inner).Sorted := by
  induction path generalizing members with
  | nil =>
    cases hinner
    exact h
  | cons step path ih =>
    obtain ⟨json, hjson, hinner⟩ := Option.bind_eq_some_iff.1 hinner
    obtain ⟨members', hmembers, hinner⟩ := Option.bind_eq_some_iff.1 hinner
    have hsorted : json.Sorted := h.get? hjson
    exact ih (hsorted.inside? hmembers) hinner

end Json

end Stencil
