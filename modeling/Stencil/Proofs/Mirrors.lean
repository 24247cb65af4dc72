import Stencil.Context.OfJson
import Stencil.Proofs.Documents
import Stencil.Proofs.Sameness

set_option relaxedAutoImplicit false
set_option autoImplicit false

/-!
# Contexts that mirror documents

The context of a JSON document has the shape of the document: paths of keys lead to the same places
in both, and what stands there in the context is what stands there in the document. Members that
are null are missing. Elements of arrays all have a context, which is one without entries for each
element that is no object.

The keys of an object have to be distinct for this. If a member that is null has the same key as a
later one, then it hides the later one in the document, but not in the context.

## Main definitions

* `Stencil.Context.ofMembers` — the context of the members of an object.
* `Stencil.Context.level?` — the context at the end of a path through contexts and lists.
* `Stencil.Value.Mirrors` — a value is what a document stands for.

## Main results

* `Stencil.Context.get?_ofMembers` — the value under a key is that of the member with the key.
* `Stencil.Json.follow_ofJson?` — paths of keys lead to the same places.
* `Stencil.Context.level?_ofMembers` — the contexts in a context are those of the objects in the
  document.
-/

namespace Stencil

/-! ### Places in a context -/

/-- The context that a value is, or the one at a place in a list. -/
def Value.inside? : Value → Option Nat → Option Context
  | .map c, none => some c
  | .list items, some i => items[i]?
  | _, _ => none

/-- The context at the end of a path, which goes from context to context: each step leads to the
value under a key if that is a context, or to a context in it if it is a list. -/
def Context.level? (c : Context) : List (String × Option Nat) → Option Context
  | [] => some c
  | (key, place) :: path =>
    (c.get? key).bind fun v => (v.inside? place).bind fun inner => level? inner path

/-! ### Contexts of objects -/

namespace Context

/-- The context of the members of an object. -/
def ofMembers (members : List (String × Json)) : Context := ofEntries (entriesOfMembers members)

lemma ofJson_object (members : List (String × Json)) :
    ofJson (.object members) = .ok (ofMembers members) := rfl

lemma entriesOfMembers_eq (members : List (String × Json)) : entriesOfMembers members =
    members.filterMap fun member => (Value.ofJson? member.2).map fun v => (member.1, v) := by
  induction members with
  | nil => rfl
  | cons member rest ih =>
    obtain ⟨key, json⟩ := member
    rw [entriesOfMembers, List.filterMap_cons, ih]
    cases Value.ofJson? json <;> rfl

/-- The contexts of the elements of an array, one by one. -/
lemma ofElements_eq (items : List Json) :
    ofElements items = items.map fun json => ofMembers json.members := by
  induction items with
  | nil => rfl
  | cons json rest ih =>
    rw [List.map_cons, ← ih]
    cases json <;> rfl

lemma ofJson?_eq_none_iff {json : Json} : Value.ofJson? json = none ↔ json.isNull = true := by
  cases json <;> simp [Value.ofJson?, Json.isNull]

/-- The keys of the context are those of the members that are not null. -/
lemma keys_ofMembers (members : List (String × Json)) :
    (ofMembers members).keys = Json.presentKeys members := by
  unfold keys ofMembers entries Json.presentKeys
  rw [entriesOfMembers_eq]
  induction members with
  | nil => rfl
  | cons member rest ih =>
    cases hv : Value.ofJson? member.2 with
    | none =>
      have hnull := ofJson?_eq_none_iff.1 hv
      simp [hv, hnull, ih]
    | some v =>
      have hnull : member.2.isNull = false := by
        rw [← Bool.not_eq_true, ← ofJson?_eq_none_iff, hv]
        simp
      simp [hv, hnull, ih]

lemma presentKeys_sublist (members : List (String × Json)) :
    (Json.presentKeys members).Sublist (members.map Prod.fst) :=
  List.filter_sublist.map Prod.fst

/-- **The value under a key** is that of the member with the key, if the keys are distinct. -/
theorem get?_ofMembers {members : List (String × Json)} (h : (members.map Prod.fst).Nodup)
    (key : String) :
    (ofMembers members).get? key = (members.lookup key).bind Value.ofJson? := by
  change (entriesOfMembers members).lookup key = (members.lookup key).bind Value.ofJson?
  induction members with
  | nil => rfl
  | cons member rest ih =>
    obtain ⟨k, json⟩ := member
    obtain ⟨hk, hrest⟩ := List.nodup_cons.1 h
    rw [entriesOfMembers, List.lookup_cons]
    by_cases hkey : (key == k) = true
    · rw [hkey]
      cases hv : Value.ofJson? json with
      | some v => simp [List.lookup_cons, hkey, hv]
      | none =>
        -- the key is not there a second time, so the context does not have it
        have hnew : key ∉ (ofMembers rest).keys := by
          rw [keys_ofMembers, beq_iff_eq.1 hkey]
          exact fun hmem => hk ((presentKeys_sublist rest).subset hmem)
        have hnone : (entriesOfMembers rest).lookup key = none := get?_eq_none_iff.2 hnew
        rw [hnone, Option.bind_some, hv]
    · rw [Bool.not_eq_true] at hkey
      rw [hkey, ← ih hrest]
      cases Value.ofJson? json with
      | some v => simp [List.lookup_cons, hkey]
      | none => rfl

end Context

namespace Json

/-- One step of a path leads to the same place. -/
lemma get?_ofJson? {json : Json} (h : json.Sorted) (key : String) :
    (Value.ofJson? json).bind (·.get? key) = (json.get? key).bind Value.ofJson? := by
  cases json with
  | object members => exact Context.get?_ofMembers h.nodup key
  | null => rfl
  | bool b => rfl
  | number n => rfl
  | text s => rfl
  | array items => rfl

/-- **Paths of keys lead to the same places**, except that the context has nothing where the
document has null. -/
theorem follow_ofJson? {json : Json} (h : json.Sorted) (keys : List String) :
    (Value.ofJson? json).bind (·.follow keys) = (json.follow keys).bind Value.ofJson? := by
  induction keys generalizing json with
  | nil => exact Option.bind_fun_some (Value.ofJson? json)
  | cons key keys ih =>
    have hstep : (Value.ofJson? json).bind (·.follow (key :: keys)) =
        ((json.get? key).bind Value.ofJson?).bind (·.follow keys) := by
      rw [← get?_ofJson? h, Option.bind_assoc]
      rfl
    rw [hstep, follow, Option.bind_assoc, Option.bind_assoc]
    cases hinner : json.get? key with
    | none => rfl
    | some inner => exact ih (h.get? hinner)

/-- The context inside a value is that of the members inside the document. -/
lemma inside?_ofJson? (json : Json) (place : Option Nat) :
    (Value.ofJson? json).bind (·.inside? place) =
      (json.inside? place).map Context.ofMembers := by
  cases json with
  | array items =>
    cases place with
    | none => rfl
    | some i =>
      change (Context.ofElements items)[i]? = (items[i]?.map members).map Context.ofMembers
      rw [Context.ofElements_eq, List.getElem?_map, Option.map_map]
      rfl
  | object members => cases place <;> rfl
  | null => rfl
  | bool b => cases place <;> rfl
  | number n => cases place <;> rfl
  | text s => cases place <;> rfl

end Json

namespace Context

/-- **The contexts in a context** are those of the objects in the document, and are at the same
places. -/
theorem level?_ofMembers {members : List (String × Json)} (h : (Json.object members).Sorted)
    (path : List (String × Option Nat)) :
    (ofMembers members).level? path = (Json.level? members path).map ofMembers := by
  induction path generalizing members with
  | nil => rfl
  | cons step path ih =>
    obtain ⟨key, place⟩ := step
    rw [level?, Json.level?, get?_ofMembers h.nodup, Option.bind_assoc]
    cases hjson : members.lookup key with
    | none => rfl
    | some json =>
      have hsorted : json.Sorted := h.get? hjson
      rw [Option.bind_some, Option.bind_some, ← Option.bind_assoc, Json.inside?_ofJson?]
      cases hinner : json.inside? place with
      | none => rfl
      | some inner => exact ih (hsorted.inside? hinner)

/-- The keys of the context of a sorted object are sorted. -/
lemma pairwise_keys_ofMembers {members : List (String × Json)}
    (h : (Json.object members).Sorted) : (ofMembers members).keys.Pairwise (· < ·) := by
  rw [keys_ofMembers]
  exact (Json.sorted_object_iff.1 h).1.sublist (presentKeys_sublist members)

/-- A document with the value of an object has the context of the object. -/
lemma ofJson_of_ofJson?_eq {json : Json} {members : List (String × Json)}
    (h : Value.ofJson? json = Value.ofJson? (.object members)) :
    ofJson json = .ok (ofMembers members) := by
  cases json with
  | object members' =>
    have hcontext : ofMembers members' = ofMembers members := Value.map.inj (Option.some.inj h)
    rw [ofJson_object, hcontext]
  | null => cases h
  | bool b => cases h
  | number n => cases h
  | text s => cases h
  | array items => cases h

end Context

/-! ### What stands at a place -/

/-- The context is that of an element of an array: of an object it is the one of the object, of
anything else it is the one without entries. -/
def Context.StandsFor (c : Context) : Json → Prop
  | .object members => ofJson (.object members) = .ok c
  | _ => c = empty

/-- The value is what a document stands for. Nothing stands for null. -/
inductive Value.Mirrors : Value → Json → Prop
  /-- A truth value stands for itself. -/
  | bool (b : Bool) : Mirrors (.bool b) (.bool b)
  /-- The text of a number stands for the number. -/
  | number (n : Json.Number) : Mirrors (.scalar n.text) (.number n)
  /-- A text stands for itself. -/
  | text (s : String) : Mirrors (.scalar s) (.text s)
  /-- A list with one context for each element stands for an array. -/
  | array {children : List Context} {items : List Json}
      (h : List.Forall₂ Context.StandsFor children items) : Mirrors (.list children) (.array items)
  /-- A context stands for the object that it is the context of. -/
  | object {c : Context} {members : List (String × Json)}
      (h : Context.ofJson (.object members) = .ok c) : Mirrors (.map c) (.object members)

/-- Only null has no value. -/
lemma Value.exists_ofJson?_of_ne_null {json : Json} (h : json ≠ .null) :
    ∃ v, ofJson? json = some v := by
  cases json with
  | null => exact absurd rfl h
  | bool b => exact ⟨_, rfl⟩
  | number n => exact ⟨_, rfl⟩
  | text s => exact ⟨_, rfl⟩
  | array items => exact ⟨_, rfl⟩
  | object members => exact ⟨_, rfl⟩

lemma Context.standsFor_ofMembers (json : Json) : (ofMembers json.members).StandsFor json := by
  cases json <;> rfl

lemma Value.mirrors_of_ofJson? {json : Json} {v : Value} (h : ofJson? json = some v) :
    v.Mirrors json := by
  cases json with
  | null => cases h
  | bool b =>
    cases h
    exact .bool b
  | number n =>
    cases h
    exact .number n
  | text s =>
    cases h
    exact .text s
  | object members =>
    cases h
    exact .object rfl
  | array items =>
    cases h
    rw [Context.ofElements_eq]
    refine .array (List.forall₂_map_left_iff.2 (List.forall₂_same.2 ?_))
    exact fun json _ => Context.standsFor_ofMembers json

end Stencil
