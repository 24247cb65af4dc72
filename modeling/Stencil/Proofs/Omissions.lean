import Mathlib.Algebra.BigOperators.Group.List.Basic
import Mathlib.Algebra.GroupWithZero.Nat
import Mathlib.Logic.Relation
import Stencil.Proofs.Mirrors

set_option relaxedAutoImplicit false
set_option autoImplicit false

/-!
# What may be left out of a document

Members that are null can be left out of a document, at any depth, and its context is the same.
Elements of arrays cannot, for a block goes through a list as often as it has contexts. Only inside
an array that is itself an element of an array nothing counts: such an element is no object, so its
context has no entries whatever there is in it.

That a context has lost an element can be seen from its weight, the number of all contexts in its
lists, which equal contexts have in common.

## Main definitions

* `Stencil.Json.Changed` — two documents that differ at one place.
* `Stencil.Json.LosesNull`, `Stencil.Json.LosesElement` — what is left out there.
* `Stencil.Context.weight` — the number of contexts in the lists of a context.

## Main results

* `Stencil.Json.Changed.ofJson?_eq` — a change that a value does not show.
* `Stencil.Context.weight_eq_of_same` — equal contexts have the same weight.
* `Stencil.Json.Changed.weight_lt` — an element that is left out takes weight away.
* `Stencil.Context.ofJson_mirrors_document` — the context of a document, and what it does not show.
-/

namespace Stencil

/-! ### Documents that differ at one place -/

namespace Json

/-- The second document is the first one with a change at one place, where `r` relates what stands
there. The place is the whole document, or it is in a member of an object or in an element of an
array. It is `shown` if every element on the way to it is an object. -/
inductive Changed (r : Json → Json → Prop) : Bool → Json → Json → Prop
  | here {json json' : Json} (h : r json json') : Changed r true json json'
  | member {shown : Bool} {json json' : Json} (before after : List (String × Json)) (key : String)
      (h : Changed r shown json json') :
      Changed r shown (.object (before ++ (key, json) :: after))
        (.object (before ++ (key, json') :: after))
  | element {shown : Bool} {json json' : Json} (before after : List Json)
      (h : Changed r shown json json') :
      Changed r (shown && json.isObject) (.array (before ++ json :: after))
        (.array (before ++ json' :: after))

/-- The second document is an object without a member that is null in the first one. -/
inductive LosesNull : Json → Json → Prop
  | intro (before after : List (String × Json)) (key : String) :
      LosesNull (.object (before ++ (key, .null) :: after)) (.object (before ++ after))

/-- The second document is an array without an element of the first one. -/
inductive LosesElement : Json → Json → Prop
  | intro (before after : List Json) (item : Json) :
      LosesElement (.array (before ++ item :: after)) (.array (before ++ after))

section Changed

variable {r : Json → Json → Prop} {shown : Bool} {json json' : Json}

/-- A document stays an object, if a change keeps objects what they are. -/
lemma Changed.isObject_eq (hr : ∀ {json json'}, r json json' → json'.isObject = json.isObject)
    (h : Changed r shown json json') : json'.isObject = json.isObject := by
  cases h with
  | here h => exact hr h
  | member before after key h => rfl
  | element before after h => rfl

lemma LosesNull.isObject_eq (h : LosesNull json json') : json'.isObject = json.isObject := by
  cases h
  rfl

lemma LosesElement.isObject_eq (h : LosesElement json json') :
    json'.isObject = json.isObject := by
  cases h
  rfl

end Changed

end Json

namespace Context

lemma entriesOfMembers_append (before after : List (String × Json)) :
    entriesOfMembers (before ++ after) = entriesOfMembers before ++ entriesOfMembers after := by
  simp only [entriesOfMembers_eq, List.filterMap_append]

/-- The context of an element depends only on the value of the element. -/
lemma ofMembers_congr {json json' : Json} (h : Value.ofJson? json' = Value.ofJson? json) :
    ofMembers json'.members = ofMembers json.members := by
  have hvalue : ∀ json : Json, ofMembers json.members =
      ((Value.ofJson? json).bind fun v => v.inside? none).getD empty := by
    intro json
    cases json <;> rfl
  rw [hvalue, hvalue, h]

end Context

namespace Json

variable {r : Json → Json → Prop} {shown : Bool} {json json' : Json}

/-- **A change that a value does not show**: it is not at a place that is shown, or it is one that
leaves the value there as it was. -/
theorem Changed.ofJson?_eq (hkind : ∀ {json json'}, r json json' → json'.isObject = json.isObject)
    (hr : shown = true → ∀ {json json'}, r json json' → Value.ofJson? json' = Value.ofJson? json)
    (h : Changed r shown json json') : Value.ofJson? json' = Value.ofJson? json := by
  induction h with
  | here h => exact hr rfl h
  | member before after key h ih =>
    simp only [Value.ofJson?, Context.entriesOfMembers_append, Context.entriesOfMembers, ih hr]
  | @element shown json json' before after h ih =>
    have hitem : Context.ofMembers json'.members = Context.ofMembers json.members := by
      cases hobject : json.isObject with
      | true =>
        refine Context.ofMembers_congr (ih fun hshown => hr ?_)
        rw [hshown, hobject]
        rfl
      | false =>
        -- neither the element nor what it becomes is an object
        have hobject' : json'.isObject = false := by rw [h.isObject_eq hkind, hobject]
        rw [members_of_not_isObject hobject, members_of_not_isObject hobject']
    simp only [Value.ofJson?, Context.ofElements_eq, List.map_append, List.map_cons, hitem]

/-- An object without a member that is null has the same value. -/
lemma LosesNull.ofJson?_eq (h : LosesNull json json') :
    Value.ofJson? json' = Value.ofJson? json := by
  cases h
  simp only [Value.ofJson?, Context.entriesOfMembers_append, Context.entriesOfMembers]

end Json

/-! ### Weights -/

mutual

/-- The number of contexts in the lists inside a value. -/
def Value.weight : Value → Nat
  | .list items => Context.weightOfItems items
  | .map context => context.weight
  | .scalar _ | .bool _ | .inline _ | .resource _ => 0

/-- The number of contexts in the lists inside a context. -/
def Context.weight : Context → Nat
  | .ofEntries entries => Context.weightOfEntries entries

/-- The number of contexts in the lists inside entries. -/
def Context.weightOfEntries : List (String × Value) → Nat
  | [] => 0
  | (_, v) :: rest => v.weight + Context.weightOfEntries rest

/-- The number of contexts in a list, with those in the lists inside them. -/
def Context.weightOfItems : List Context → Nat
  | [] => 0
  | c :: rest => c.weight + 1 + Context.weightOfItems rest

end

namespace Context

lemma weight_eq (c : Context) : c.weight = (c.entries.map fun entry => entry.2.weight).sum := by
  obtain ⟨entries⟩ := c
  change weightOfEntries entries = (entries.map fun entry => entry.2.weight).sum
  induction entries with
  | nil => rfl
  | cons entry rest ih => rw [weightOfEntries, ih, List.map_cons, List.sum_cons]

lemma weightOfItems_eq (items : List Context) :
    weightOfItems items = (items.map fun c => c.weight + 1).sum := by
  induction items with
  | nil => rfl
  | cons c rest ih => rw [weightOfItems, ih, List.map_cons, List.sum_cons]

/-- The weight of the value under a key. -/
def weightAt (c : Context) (key : String) : Nat := ((c.get? key).map Value.weight).getD 0

/-- If the keys are distinct, then the weight of a context is that of the values under its keys. -/
lemma weight_eq_sum_weightAt {c : Context} (hc : c.keys.Nodup) :
    c.weight = (c.keys.map c.weightAt).sum := by
  rw [weight_eq, keys, List.map_map]
  congr 1
  refine List.map_congr_left fun entry hentry => ?_
  simp [weightAt, get?_of_mem_entries hc hentry]

end Context

mutual

/-- Equal values have the same weight. -/
theorem Value.weight_eq_of_same : (v w : Value) → v.Distinct → v.same w = true →
    v.weight = w.weight
  | .scalar _, w, _, h => by cases w <;> simp_all [Value.same, Value.weight]
  | .bool _, w, _, h => by cases w <;> simp_all [Value.same, Value.weight]
  | .inline _, w, _, h => by cases w <;> simp_all [Value.same, Value.weight]
  | .resource _, w, _, h => by cases w <;> simp_all [Value.same, Value.weight]
  | .map c, w, hv, h => by
    rcases Value.cases_of_same h with rfl | ⟨items, items', hc, -, -⟩ | ⟨d, d', hd, rfl, hsame⟩
    · rfl
    · cases hc
    · cases hd
      exact c.weight_eq_of_same d' hv hsame
  | .list items, w, hv, h => by
    rcases Value.cases_of_same h with rfl | ⟨cs, items', hcs, rfl, hsame⟩ | ⟨d, d', hd, -, -⟩
    · rfl
    · cases hcs
      exact Context.weightOfItems_eq_of_same items items' hv hsame
    · cases hd

/-- **Equal contexts have the same weight.** -/
theorem Context.weight_eq_of_same : (c c' : Context) → c.Distinct → c.same c' = true →
    c.weight = c'.weight
  | .ofEntries entries, c', hc, h => by
    have hperm := Context.perm_keys_of_same (c := .ofEntries entries) hc.1 h
    have hc' : c'.keys.Nodup := hperm.nodup_iff.1 hc.1
    rw [Context.weight_eq_sum_weightAt hc', ← (hperm.map c'.weightAt).sum_eq, Context.weight_eq,
      Context.keys, List.map_map]
    congr 1
    refine List.map_congr_left fun entry hentry => ?_
    obtain ⟨w, hw, hsame⟩ := (Context.same_iff.1 h).2 entry hentry
    have hweight : entry.2.weight = w.weight :=
      Value.weight_eq_of_mem entries hc.2 entry hentry w hsame
    simp [Context.weightAt, hw, hweight]

/-- So have the values of entries. -/
theorem Value.weight_eq_of_mem : (entries : List (String × Value)) →
    Context.DistinctEntries entries → ∀ entry ∈ entries, ∀ w, entry.2.same w = true →
    entry.2.weight = w.weight
  | [], _ => by simp
  | (_, v) :: rest, h => List.forall_mem_cons.2
    ⟨fun w => v.weight_eq_of_same w h.1, Value.weight_eq_of_mem rest h.2⟩

/-- So have the lists of contexts. -/
theorem Context.weightOfItems_eq_of_same : (items items' : List Context) →
    Context.DistinctItems items → Context.sameItems items items' = true →
    Context.weightOfItems items = Context.weightOfItems items'
  | [], items', _, h => by
    cases Context.sameItems_iff.1 h
    rfl
  | c :: rest, [], _, h => by simp [Context.sameItems] at h
  | c :: rest, c' :: rest', hc, h => by
    rw [Context.sameItems, Bool.and_eq_true] at h
    rw [Context.weightOfItems, Context.weightOfItems, c.weight_eq_of_same c' hc.1 h.1,
      Context.weightOfItems_eq_of_same rest rest' hc.2 h.2]

end

/-! ### The weight of a document -/

mutual

/-- The keys in the value of a sorted document are distinct. -/
theorem Json.Sorted.distinct_ofJson? : (json : Json) → json.Sorted →
    ∀ v ∈ Value.ofJson? json, v.Distinct
  | .null, _ => by simp [Value.ofJson?]
  | .bool _, _ => by simp [Value.ofJson?, Value.Distinct]
  | .number _, _ => by simp [Value.ofJson?, Value.Distinct]
  | .text _, _ => by simp [Value.ofJson?, Value.Distinct]
  | .array items, h => by
    intro v hv
    cases hv
    exact Json.Sorted.distinct_ofElements items h
  | .object members, h => by
    intro v hv
    cases hv
    exact ⟨(Context.pairwise_keys_ofMembers h).imp fun hlt => ne_of_lt hlt,
      Json.Sorted.distinct_entriesOfMembers members h.2⟩

/-- So are those in the contexts of the elements of an array. -/
theorem Json.Sorted.distinct_ofElements : (items : List Json) → Json.SortedItems items →
    Context.DistinctItems (Context.ofElements items)
  | [], _ => trivial
  | .null :: rest, h => ⟨Context.distinct_empty, Json.Sorted.distinct_ofElements rest h.2⟩
  | .bool _ :: rest, h => ⟨Context.distinct_empty, Json.Sorted.distinct_ofElements rest h.2⟩
  | .number _ :: rest, h => ⟨Context.distinct_empty, Json.Sorted.distinct_ofElements rest h.2⟩
  | .text _ :: rest, h => ⟨Context.distinct_empty, Json.Sorted.distinct_ofElements rest h.2⟩
  | .array _ :: rest, h => ⟨Context.distinct_empty, Json.Sorted.distinct_ofElements rest h.2⟩
  | .object members :: rest, h =>
    ⟨⟨(Context.pairwise_keys_ofMembers h.1).imp fun hlt => ne_of_lt hlt,
      Json.Sorted.distinct_entriesOfMembers members h.1.2⟩,
      Json.Sorted.distinct_ofElements rest h.2⟩

/-- So are those in the entries of the members of an object. -/
theorem Json.Sorted.distinct_entriesOfMembers : (members : List (String × Json)) →
    Json.SortedMembers members → Context.DistinctEntries (Context.entriesOfMembers members)
  | [], _ => trivial
  | (key, json) :: rest, h => by
    have hrest := Json.Sorted.distinct_entriesOfMembers rest h.2
    rw [Context.entriesOfMembers]
    cases hv : Value.ofJson? json with
    | some v => exact ⟨Json.Sorted.distinct_ofJson? json h.1 v hv, hrest⟩
    | none => exact hrest

end

namespace Json

/-- The weight of the value of a document. -/
def weight (json : Json) : Nat := ((Value.ofJson? json).map Value.weight).getD 0

lemma weight_ofMembers (members : List (String × Json)) :
    (Context.ofMembers members).weight = (members.map fun member => member.2.weight).sum := by
  rw [Context.weight_eq]
  change ((Context.entriesOfMembers members).map fun entry => entry.2.weight).sum = _
  induction members with
  | nil => rfl
  | cons member rest ih =>
    obtain ⟨key, json⟩ := member
    rw [List.map_cons, List.sum_cons, ← ih, Context.entriesOfMembers]
    cases hv : Value.ofJson? json <;> simp [weight, hv]

lemma weight_object (members : List (String × Json)) :
    (object members).weight = (members.map fun member => member.2.weight).sum :=
  weight_ofMembers members

lemma weight_array (items : List Json) :
    (array items).weight =
      (items.map fun json => (Context.ofMembers json.members).weight + 1).sum := by
  change Context.weightOfItems (Context.ofElements items) = _
  rw [Context.weightOfItems_eq, Context.ofElements_eq, List.map_map]
  rfl

lemma weight_of_isObject {json : Json} (h : json.isObject = true) :
    (Context.ofMembers json.members).weight = json.weight := by
  obtain ⟨members, rfl⟩ := exists_of_isObject h
  rfl

/-- **An element that is left out takes weight away**, if it was at a place that is shown. -/
theorem Changed.weight_lt {shown : Bool} {json json' : Json}
    (h : Changed LosesElement shown json json') (hshown : shown = true) :
    json'.weight < json.weight := by
  induction h with
  | here h =>
    obtain ⟨before, after, item⟩ := h
    simp only [weight_array, List.map_append, List.map_cons, List.sum_append, List.sum_cons]
    omega
  | member before after key h ih =>
    have hlt := ih hshown
    simp only [weight_object, List.map_append, List.map_cons, List.sum_append, List.sum_cons]
    omega
  | @element shown json json' before after h ih =>
    obtain ⟨hshown', hobject⟩ := Bool.and_eq_true_iff.1 hshown
    have hlt := ih hshown'
    have hobject' : json'.isObject = true := by
      rw [h.isObject_eq LosesElement.isObject_eq, hobject]
    simp only [weight_array, List.map_append, List.map_cons, List.sum_append, List.sum_cons,
      weight_of_isObject hobject, weight_of_isObject hobject']
    omega

/-- The loss of elements at places that are shown leaves an object an object, with less weight. -/
lemma lost_elements {json json' : Json}
    (h : Relation.TransGen (Changed LosesElement true) json json') :
    json'.isObject = json.isObject ∧ json'.weight < json.weight := by
  induction h with
  | single h => exact ⟨h.isObject_eq LosesElement.isObject_eq, h.weight_lt rfl⟩
  | tail _ h ih =>
    exact ⟨(h.isObject_eq LosesElement.isObject_eq).trans ih.1, (h.weight_lt rfl).trans ih.2⟩

end Json

/-! ### Contexts of documents -/

namespace Context

open Json

/-- **The context of a JSON object mirrors the object.**

A path of keys leads to a value exactly if it leads to a document that is not null, and the value
stands for this document; in particular a list has one context for each element of an array. At
every level, the elements of arrays included, the keys are those of the members that are not null,
in order. So members that are null can be left out, at any depth, and the context is the same.

Elements of an array cannot: as soon as one is left out of an array that has become a list, the
contexts are no longer equal. An array has not become one if it is inside an array that is an
element of another array, or is this array: an element that is no object has the context without
entries, whatever there is in it.

**Proof sketch.** Each path is followed step by step on both sides. What is left out is compared by
induction on the place: a member that is null takes no entry with it, and an element of a list takes
away weight, which equal contexts have in common. -/
theorem ofJson_mirrors_document {members : List (String × Json)}
    (hsorted : (Json.object members).Sorted) :
    ∃ c, ofJson (.object members) = .ok c ∧
      -- paths of keys lead to the same places
      (∀ key keys,
        (∀ v, (c.get? key).bind (·.follow keys) = some v →
          ∃ json, (Json.object members).follow (key :: keys) = some json ∧ json ≠ .null ∧
            v.Mirrors json) ∧
        ∀ json, (Json.object members).follow (key :: keys) = some json → json ≠ .null →
          ∃ v, (c.get? key).bind (·.follow keys) = some v ∧ v.Mirrors json) ∧
      -- at every level the keys are those of the members that are not null
      (∀ path, (c.level? path).map keys = (Json.level? members path).map presentKeys ∧
        ∀ level ∈ c.level? path, level.keys.Pairwise (· < ·)) ∧
      -- members that are null can be left out
      (∀ json, Relation.ReflTransGen (fun j j' => ∃ shown, Changed LosesNull shown j j')
        (.object members) json → ofJson json = .ok c) ∧
      -- elements of arrays that have become lists cannot, and all others have no context
      (∀ json, Relation.TransGen (Changed LosesElement true) (.object members) json →
        ∃ c', ofJson json = .ok c' ∧ c.same c' = false) ∧
      ∀ json, Changed LosesElement false (.object members) json → ofJson json = .ok c := by
  refine ⟨ofMembers members, rfl, fun key keys => ?_, fun path => ?_, fun json hlost => ?_,
    fun json hlost => ?_, fun json hlost => ?_⟩
  · have hpath : ((ofMembers members).get? key).bind (·.follow keys) =
        ((Json.object members).follow (key :: keys)).bind Value.ofJson? :=
      follow_ofJson? hsorted (key :: keys)
    rw [hpath]
    constructor
    · intro v hv
      obtain ⟨json, hjson, hv⟩ := Option.bind_eq_some_iff.1 hv
      refine ⟨json, hjson, ?_, Value.mirrors_of_ofJson? hv⟩
      rintro rfl
      cases hv
    · intro json hjson hne
      obtain ⟨v, hv⟩ := Value.exists_ofJson?_of_ne_null hne
      exact ⟨v, Option.bind_eq_some_iff.2 ⟨json, hjson, hv⟩, Value.mirrors_of_ofJson? hv⟩
  · rw [level?_ofMembers hsorted]
    cases hinner : Json.level? members path with
    | none => simp
    | some inner =>
      refine ⟨congrArg some (keys_ofMembers inner), fun level hlevel => ?_⟩
      cases hlevel
      exact pairwise_keys_ofMembers (hsorted.level? hinner)
  · have hvalue : Value.ofJson? json = Value.ofJson? (.object members) := by
      induction hlost with
      | refl => rfl
      | tail _ hstep ih =>
        obtain ⟨shown, hstep⟩ := hstep
        rw [← ih]
        exact hstep.ofJson?_eq LosesNull.isObject_eq fun _ _ _ => LosesNull.ofJson?_eq
    exact ofJson_of_ofJson?_eq hvalue
  · obtain ⟨hobject, hlt⟩ := lost_elements hlost
    obtain ⟨members', rfl⟩ := exists_of_isObject hobject
    refine ⟨ofMembers members', rfl, Bool.eq_false_iff.2 fun hsame => ?_⟩
    have hdistinct : (ofMembers members).Distinct :=
      Sorted.distinct_ofJson? (.object members) hsorted _ rfl
    have hweight : (ofMembers members).weight = (ofMembers members').weight :=
      weight_eq_of_same _ _ hdistinct hsame
    rw [weight_ofMembers, weight_ofMembers] at hweight
    rw [weight_object, weight_object] at hlt
    omega
  · refine ofJson_of_ofJson?_eq (hlost.ofJson?_eq LosesElement.isObject_eq fun hshown => ?_)
    cases hshown

/-- **An element that is left out may go unnoticed.** It is one of an array inside an array. This is
no object and therefore has the context without entries, with the element and without it. -/
theorem lost_element_unnoticed :
    let document : Json := .object [("a", .array [.array [.null]])]
    let shorter : Json := .object [("a", .array [.array []])]
    document.Sorted ∧ (∃ shown, Changed LosesElement shown document shorter) ∧
      ∃ c c', ofJson document = .ok c ∧ ofJson shorter = .ok c' ∧ c.same c' = true := by
  intro document shorter
  have hlost : Changed LosesElement false document shorter :=
    .member [] [] "a" (Changed.element [] [] (Changed.here (LosesElement.intro [] [] .null)))
  have hsorted : document.Sorted := sorted_object_iff.2 ⟨by simp, by simp [Sorted, SortedItems]⟩
  exact ⟨hsorted, ⟨false, hlost⟩, _, _, rfl, rfl, by decide +kernel⟩

/-- A case with members that are null in an object and in an element of an array, with an element
that is null, and with an array as an element. The document is read from a text. -/
theorem ofJson_mirrors_document_of_nulls :
    let nested : Json := .object [("x", .text "1"), ("y", .null)]
    let inner : Json := .object [("c", .null), ("d", .bool true)]
    (Json.object [("a", .array [nested, .null, .array [.null]]), ("b", inner)]).Sorted ∧
      ∃ c, ofJson (.object [("a", .array [nested, .null, .array [.null]]), ("b", inner)]) = .ok c ∧
        (∃ v, (c.get? "b").bind (·.follow ["d"]) = some v ∧ v.Mirrors (.bool true)) ∧
        (c.get? "b").bind (·.follow ["c"]) = none ∧
        (c.level? [("a", some 0)]).map keys = some ["x"] ∧
        (c.level? [("a", some 1)]).map keys = some [] ∧
        ofJson (.object [("a", .array [.object [("x", .text "1")], .null, .array [.null]]),
          ("b", .object [("d", .bool true)])]) = .ok c ∧
        (∃ c', ofJson (.object [("a", .array [nested, .array [.null]]), ("b", inner)]) = .ok c' ∧
          c.same c' = false) ∧
        ofJson (.object [("a", .array [nested, .null, .array []]), ("b", inner)]) = .ok c := by
  intro nested inner
  have hread : Json.ofText
      ("\x7b\"a\":[\x7b\"x\":\"1\",\"y\":null\x7d,null,[null]]," ++
        "\"b\":\x7b\"c\":null,\"d\":true\x7d\x7d") =
      .ok (.object [("a", .array [nested, .null, .array [.null]]), ("b", inner)]) := by
    cbv
  have hsorted : (Json.object [("a", .array [nested, .null, .array [.null]]),
      ("b", inner)]).Sorted := sorted_of_ofText hread
  refine ⟨hsorted, ?_⟩
  obtain ⟨c, hc, hpaths, hlevels, hnulls, helements, hhidden⟩ := ofJson_mirrors_document hsorted
  refine ⟨c, hc, ?_, ?_, ?_, ?_, ?_, ?_, ?_⟩
  · exact (hpaths "b" ["d"]).2 (.bool true) rfl (by simp)
  · rw [Option.eq_none_iff_forall_ne_some]
    intro v hv
    obtain ⟨json, hjson, hne, -⟩ := (hpaths "b" ["c"]).1 v hv
    cases hjson
    exact hne rfl
  · exact (hlevels [("a", some 0)]).1
  · exact (hlevels [("a", some 1)]).1
  · have hx : Changed LosesNull true
        (.object [("a", .array [nested, .null, .array [.null]]), ("b", inner)])
        (.object [("a", .array [.object [("x", .text "1")], .null, .array [.null]]),
          ("b", inner)]) :=
      .member [] [("b", inner)] "a" (Changed.element [] [.null, .array [.null]]
        (Changed.here (LosesNull.intro [("x", .text "1")] [] "y")))
    refine hnulls _ (.tail (.single ⟨true, hx⟩) ⟨true, ?_⟩)
    exact .member [("a", .array [.object [("x", .text "1")], .null, .array [.null]])] [] "b"
      (.here (.intro [] [("d", .bool true)] "c"))
  · exact helements _ (.single (.member [] [("b", inner)] "a"
      (.here (.intro [nested] [.array [.null]] .null))))
  · exact hhidden _ (.member [] [("b", inner)] "a" (Changed.element [nested, .null] []
      (Changed.here (LosesElement.intro [] [] .null))))

end Context

end Stencil
