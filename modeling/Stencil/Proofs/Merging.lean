import Stencil.Proofs.Places
import Stencil.Proofs.Sameness

set_option relaxedAutoImplicit false
set_option autoImplicit false

/-!
# Scopes as merged contexts

Contexts that are laid over each other answer for their names like one context, into which their
entries are put from the outermost to the innermost. An entry that is put in takes the place of an
earlier one with its key, as an inner context hides what the outer ones have under its keys.

## Main definitions

* `Stencil.Scope.chain` — the scope of contexts that are laid one over the other.
* `Stencil.Context.merge` — the context into which the entries of several are put.
* `Stencil.Context.Innermost` — what the innermost of several contexts has that has a key at all.

## Main results

* `Stencil.Context.get?_merge` — the last of the merged contexts that has a key decides.
* `Stencil.Scope.chain_resolves_like_merge` — names stand for the same values in the scope and in
  the merged context, and which value that is.
-/

namespace Stencil

/-! ### Merged contexts -/

namespace Context

/-- The context into which the entries of all contexts are put, one context after the other. -/
def merge (frames : List Context) : Context := ofList (frames.flatMap entries)

/-- Among contexts that are listed from the outermost on, the innermost one with the key has this
value under it. -/
def Innermost (frames : List Context) (key : String) (v : Value) : Prop :=
  ∃ before c inner, frames = before ++ c :: inner ∧
    (∀ d ∈ inner, d.get? key = none) ∧ c.get? key = some v

/-- Of the entries that are put in, the last one with a key is found. -/
theorem get?_ofList (entries : List (String × Value)) (key : String) :
    (ofList entries).get? key = entries.reverse.lookup key := by
  induction entries using List.reverseRecOn with
  | nil => rfl
  | append_singleton entries entry ih =>
    obtain ⟨k, v⟩ := entry
    have hstep : ofList (entries ++ [(k, v)]) = (ofList entries).insert k v := by
      simp [ofList, List.foldl_append]
    rw [hstep, get?_insert, ih, List.reverse_append, List.reverse_singleton, List.singleton_append,
      List.lookup_cons]
    by_cases hkey : key = k
    · simp [hkey]
    · simp [hkey, beq_eq_false_iff_ne.2 hkey]

/-- Where keys are distinct, the order of entries does not count. -/
lemma get?_reverse {c : Context} (hc : c.keys.Nodup) (key : String) :
    (ofEntries c.entries.reverse).get? key = c.get? key := by
  have hreverse : (ofEntries c.entries.reverse).keys.Nodup := by
    change (c.entries.reverse.map Prod.fst).Nodup
    rw [List.map_reverse]
    exact (List.reverse_perm _).nodup_iff.2 hc
  refine Option.ext fun v => ⟨fun h => ?_, fun h => ?_⟩
  · exact get?_of_mem_entries hc (List.mem_reverse.1 (mem_entries_of_get? h))
  · exact get?_of_mem_entries hreverse (List.mem_reverse.2 (mem_entries_of_get? h))

/-- The last of the merged contexts that has the key decides. -/
theorem get?_merge {frames : List Context} (h : ∀ c ∈ frames, c.keys.Nodup) (key : String) :
    (merge frames).get? key = frames.reverse.findSome? fun c => c.get? key := by
  have main : (frames.flatMap entries).reverse.lookup key =
      frames.reverse.findSome? fun c => c.get? key := by
    induction frames with
    | nil => rfl
    | cons c frames ih =>
      obtain ⟨hc, hframes⟩ := List.forall_mem_cons.1 h
      have hfirst : c.entries.reverse.lookup key = c.get? key := get?_reverse hc key
      rw [List.flatMap_cons, List.reverse_append, List.lookup_append, ih hframes, hfirst,
        List.reverse_cons, List.findSome?_append, List.findSome?_singleton]
  rw [merge, get?_ofList, main]

end Context

/-! ### Chains -/

namespace Scope

/-- The scope of an outermost context, over which the others are laid one after the other. -/
def chain (outer : Context) (frames : List Context) : Scope :=
  frames.foldl Scope.overlay (root outer)

lemma frames_chain (outer : Context) (frames : List Context) :
    (chain outer frames).frames = (outer :: frames).reverse := by
  have main : ∀ (frames : List Context) (s : Scope),
      (frames.foldl Scope.overlay s).frames = frames.reverse ++ s.frames := by
    intro frames
    induction frames with
    | nil => exact fun s => rfl
    | cons c frames ih =>
      intro s
      rw [List.foldl_cons, ih, overlay, List.reverse_cons, List.append_assoc]
      rfl
  rw [chain, main, List.reverse_cons]
  rfl

/-- A key has the value that the innermost context with the key has under it. -/
lemma get?_chain_eq_some_iff {outer : Context} {frames : List Context} {key : String} {v : Value} :
    (chain outer frames).get? key = some v ↔ Context.Innermost (outer :: frames) key v := by
  rw [get?, frames_chain, List.findSome?_eq_some_iff]
  constructor
  · rintro ⟨inner, c, before, heq, hc, hinner⟩
    refine ⟨before.reverse, c, inner.reverse, ?_, fun d hd => hinner d (List.mem_reverse.1 hd), hc⟩
    rw [← List.reverse_reverse (outer :: frames), heq]
    simp
  · rintro ⟨before, c, inner, heq, hinner, hc⟩
    refine ⟨inner.reverse, c, before.reverse, ?_, hc, fun d hd => hinner d (List.mem_reverse.1 hd)⟩
    rw [heq]
    simp

lemma get?_chain_eq_none_iff {outer : Context} {frames : List Context} {key : String} :
    (chain outer frames).get? key = none ↔ ∀ c ∈ outer :: frames, c.get? key = none := by
  rw [get?, frames_chain, List.findSome?_eq_none_iff]
  simp only [List.mem_reverse]

/-- **A scope answers like the merged context**: both for keys and for names, which may be paths. So
a key that is the whole name comes before every path, wherever in the scope it is. Otherwise the
first part of the name stands for what the innermost context with this key has under it, and what
the rest of the path does not find there is not looked for in outer contexts. The keys of each
context are distinct, as they are in every context that is built by putting entries in
(`Context.distinct_ofList`).

**Proof sketch.** Keys have the same values on both sides, as the last context that has a key
decides: in the chain it is the innermost one, in the merged context the one whose entry took the
place of the others. Names are resolved by values of keys alone. -/
theorem chain_resolves_like_merge {outer : Context} {frames : List Context}
    (h : ∀ c ∈ outer :: frames, c.keys.Nodup) (name : String) :
    (chain outer frames).get? name = (root (Context.merge (outer :: frames))).get? name ∧
    (chain outer frames).resolve name = (root (Context.merge (outer :: frames))).resolve name ∧
    (∀ v, Context.Innermost (outer :: frames) name v →
      (chain outer frames).resolve name = some v) ∧
    (∀ first rest v, (segments name.toList).map String.ofList = first :: rest →
      (∀ c ∈ outer :: frames, c.get? name = none) →
      Context.Innermost (outer :: frames) first v →
      (chain outer frames).resolve name = v.follow rest) := by
  have halike : (chain outer frames).Alike (root (Context.merge (outer :: frames))) := by
    intro key
    rw [get?_root, Context.get?_merge h, get?, frames_chain]
  refine ⟨halike name, halike.resolve_eq name, fun v hv => ?_,
    fun first rest v hsegments hnone hv => ?_⟩
  · rw [resolve, get?_chain_eq_some_iff.2 hv]
  · rw [resolve, get?_chain_eq_none_iff.2 hnone, hsegments]
    change ((chain outer frames).get? first).bind (fun v => v.follow rest) = v.follow rest
    rw [get?_chain_eq_some_iff.2 hv]
    rfl

/-- An inner context without the rest of a path hides the one that has it, and a key that is the
whole name comes before a path that lies further inside. -/
theorem chain_resolves_like_merge_of_three :
    ∃ outer middle inner : Context, (∀ c ∈ [outer, middle, inner], c.keys.Nodup) ∧
      (root outer).resolve "a.b" = some (.scalar "1") ∧
      (chain outer [middle, inner]).resolve "a.b" = none ∧
      (root middle).resolve "c.d" = some (.scalar "2") ∧
      (chain outer [middle, inner]).resolve "c.d" = some (.scalar "flat") ∧
      (root (Context.merge [outer, middle, inner])).resolve "a.b" = none := by
  let outer := Context.ofList
    [("a", .map (.ofList [("b", .scalar "1")])), ("c.d", .scalar "flat")]
  let middle := Context.ofList [("c", .map (.ofList [("d", .scalar "2")]))]
  let inner := Context.ofList [("a", .map .empty)]
  have hkeys : ∀ c ∈ [outer, middle, inner], c.keys.Nodup := by decide
  obtain ⟨-, hmerge, -, hpath⟩ := chain_resolves_like_merge hkeys "a.b"
  obtain ⟨-, -, hwhole, -⟩ := chain_resolves_like_merge hkeys "c.d"
  have habsent : ∀ c ∈ [outer, middle, inner], "a.b" ∉ c.keys := by decide
  have hflat : ∀ c ∈ [middle, inner], "c.d" ∉ c.keys := by decide
  have hab : (chain outer [middle, inner]).resolve "a.b" = none :=
    hpath "a" ["b"] (.map .empty) rfl (fun c hc => Context.get?_eq_none_iff.2 (habsent c hc))
      ⟨[outer, middle], inner, [], rfl, by simp, rfl⟩
  have hcd : (chain outer [middle, inner]).resolve "c.d" = some (.scalar "flat") :=
    hwhole (.scalar "flat") ⟨[], outer, [middle, inner], rfl,
      fun c hc => Context.get?_eq_none_iff.2 (hflat c hc), rfl⟩
  exact ⟨outer, middle, inner, hkeys, rfl, hab, rfl, hcd, hmerge.symm.trans hab⟩

end Scope

end Stencil
