import Stencil.Decimal.Layout

set_option relaxedAutoImplicit false
set_option autoImplicit false

/-!
# Values and contexts

A context holds what the names of tags stand for: an ordered list of entries, each a key with a
value. Blocks go through lists of contexts, so contexts nest.

## Main definitions

* `Stencil.Value`, `Stencil.Context` — a value, and a list of named values.
* `Stencil.Value.isTruthy` — the value makes a block appear.
* `Stencil.Value.display` — the text that stands for the value.
* `Stencil.Context.insert`, `Stencil.Context.get?` — put and find an entry.
* `Stencil.Context.same` — equality up to the order of entries.

## Main results

* `Stencil.Context.get?_insert` — an inserted value is found, and nothing else changes.
-/

namespace Stencil

mutual

/-- What a name stands for. -/
inductive Value where
  /-- A text, or anything that is known by its text only. -/
  | scalar (text : String)
  /-- A truth value. -/
  | bool (b : Bool)
  /-- Contexts that a block goes through. -/
  | list (items : List Context)
  /-- A context of its own. -/
  | map (context : Context)
  /-- The text of a partial. -/
  | inline (text : String)
  /-- The identifier under which the text of a partial is loaded. -/
  | resource (id : String)

/-- A list of named values. -/
inductive Context where
  /-- The context with the given entries, in this order. -/
  | ofEntries (entries : List (String × Value))

end

namespace Context

/-- The entries in order. -/
def entries : Context → List (String × Value)
  | ofEntries entries => entries

/-- The context without entries. -/
def empty : Context := ofEntries []

instance : Inhabited Context := ⟨empty⟩

/-- The keys in order. -/
def keys (c : Context) : List String := c.entries.map Prod.fst

/-- The number of entries. -/
def size (c : Context) : Nat := c.entries.length

/-- The value with the given key. -/
def get? (c : Context) (key : String) : Option Value := c.entries.lookup key

/-- The context has an entry with the given key. -/
def contains (c : Context) (key : String) : Bool := (c.get? key).isSome

/-- Puts a value into a list of entries: in place of the value with the same key, or at the
end. -/
def insertEntry (key : String) (value : Value) : List (String × Value) → List (String × Value)
  | [] => [(key, value)]
  | entry :: rest =>
    if key = entry.1 then (key, value) :: rest else entry :: insertEntry key value rest

/-- Puts a value into the context. A new key goes to the end, a known one keeps its place. -/
def insert (c : Context) (key : String) (value : Value) : Context :=
  ofEntries (insertEntry key value c.entries)

/-- The context with the given entries, put in one after the other. -/
def ofList (entries : List (String × Value)) : Context :=
  entries.foldl (fun c entry => c.insert entry.1 entry.2) empty

/-- An inserted value is found, and nothing else changes. -/
theorem get?_insert (c : Context) (key other : String) (value : Value) :
    (c.insert key value).get? other = if other = key then some value else c.get? other := by
  have main : ∀ es : List (String × Value), (insertEntry key value es).lookup other =
      if other = key then some value else es.lookup other := by
    intro es
    induction es with
    | nil =>
      by_cases h : other = key
      · simp [insertEntry, h]
      · have hb : (other == key) = false := beq_eq_false_iff_ne.2 h
        simp [insertEntry, List.lookup_cons, hb, h]
    | cons entry es ih =>
      obtain ⟨k, v⟩ := entry
      by_cases hk : key = k
      · subst hk
        by_cases h : other = key
        · simp [insertEntry, h]
        · have hb : (other == key) = false := beq_eq_false_iff_ne.2 h
          simp [insertEntry, List.lookup_cons, hb, h]
      · by_cases h : other = k
        · subst h
          simp [insertEntry, hk, Ne.symm hk]
        · have hb : (other == k) = false := beq_eq_false_iff_ne.2 h
          simp [insertEntry, hk, List.lookup_cons, hb, ih]
  exact main c.entries

end Context

namespace Value

instance : Inhabited Value := ⟨bool false⟩

/-- The value makes a block appear. Only `false` and the list without items do not: a text without
characters does, and so does a context without entries. -/
def isTruthy : Value → Bool
  | bool b => b
  | list items => !items.isEmpty
  | scalar _ | map _ | inline _ | resource _ => true

/-- The text that stands for the value. Lists and contexts have none. -/
def display : Value → String
  | scalar text => text
  | bool b => if b then "true" else "false"
  | list _ | map _ => ""
  | inline text => text
  | resource id => id

/-- The value of a key inside the value; only a context has keys. -/
def get? : Value → String → Option Value
  | map context, key => context.get? key
  | _, _ => none

/-- The value at the end of a path of keys. -/
def follow : Value → List String → Option Value
  | v, [] => some v
  | v, key :: keys => (v.get? key).bind fun w => w.follow keys

/-- The value of an integer is its decimal text. -/
def ofInt (i : Int) : Value := scalar (toString i)

/-- Floating-point values are written with the fewest digits that identify them, always around a
point, which a number without fraction does not have. -/
def floatLayout : Decimal.Layout := ⟨.upward, none, false⟩

/-- The value of a floating-point number is its decimal text. -/
def ofFloat (x : Float) : Value := scalar (floatLayout.write x)

end Value

/-! ### Equality -/

mutual

/-- The values are equal, where the order of entries does not count. -/
def Value.same : Value → Value → Bool
  | .scalar a, .scalar b => a == b
  | .bool a, .bool b => a == b
  | .list as, .list bs => Context.sameItems as bs
  | .map a, .map b => a.same b
  | .inline a, .inline b => a == b
  | .resource a, .resource b => a == b
  | _, _ => false

/-- The contexts have the same number of entries, and each entry of the first has an equal one in
the second. -/
def Context.same : Context → Context → Bool
  | .ofEntries entries, other =>
    entries.length == other.size && Context.entriesIn entries other

/-- Each entry has an equal one in the context. -/
def Context.entriesIn : List (String × Value) → Context → Bool
  | [], _ => true
  | (key, v) :: rest, other =>
    (match other.get? key with
      | some w => v.same w
      | none => false) && Context.entriesIn rest other

/-- The contexts are equal one by one. -/
def Context.sameItems : List Context → List Context → Bool
  | [], [] => true
  | a :: as, b :: bs => a.same b && Context.sameItems as bs
  | _, _ => false

end

end Stencil
