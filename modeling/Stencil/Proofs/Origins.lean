import Mathlib.Logic.Relation
import Stencil.Proofs.Calls

set_option relaxedAutoImplicit false
set_option autoImplicit false

/-!
# Where the end of a rendering comes from

The rendering of a block puts its partials in and goes through its nodes. So each event of it, and
the way in which it ends if it has no result, come from one of the blocks that are rendered on the
way: from the partials that are put in there, or from a node that is no block.

## Main definitions

* `Stencil.Call.runBody` — how the bodies of a block are rendered.

## Main results

* `Stencil.Setting.exists_reached_of_failed`, `Stencil.Setting.exists_reached_of_enter` — the
  block that a failure or an event comes from.
* `Stencil.Setting.exists_failed_of_reached` — a block that fails makes the whole rendering fail.
* `Stencil.Setting.prepare_failed` — why the partials of a block cannot be put in.
-/

namespace Stencil

namespace Call

variable (set : Setting)

/-- The rendering of a body in a block that is granted the given depth. -/
def runBody : Nat → Call → Run Unit
  | 0, _ => Run.exhausted
  | depth + 1, c => c.run set depth

lemma run_eq (depth : Nat) (c : Call) : c.run set depth = c.runWith set (runBody set depth) := by
  cases depth with
  | zero => exact run_zero set c
  | succ depth => exact run_succ set depth c

lemma runBody_below (depth : Nat) (c : Call) : (runBody set depth c).Below (c.run set depth) := by
  cases depth with
  | zero => exact .exhausted _
  | succ depth => exact run_below_succ set depth c

variable {set} {depth : Nat} {c : Call}

/-- The body among the jobs of a block is called, if those before it are done. -/
lemma calls_of_jobs {nodes : List Node} {tokens : List Token} {before after : List Job} {c' : Call}
    (hprep : (set.prepare c.scope c.nodes c.tokens c.range).outcome = .done (nodes, tokens))
    (hjobs : nodes.flatMap (Node.jobs set c.scope tokens) = before ++ .body c' :: after)
    (hbefore : (before.forM (Job.run (runBody set depth))).outcome = .done ()) :
    set.Calls c c' := by
  refine ⟨nodes, tokens, before, after, depth, hprep, hjobs, ?_⟩
  have hbelow := Run.Below.forM (Job.run_below (runBody_below set depth)) before
  rw [hbelow.eq_of_done hbefore, hbefore]

/-- A rendering without result ends where the partials of the block are put in, at a node that is
no block, or in the body of a block. -/
lemma exists_of_run_ne_done (h : (c.run set depth).outcome ≠ .done ()) :
    (∃ e, (set.prepare c.scope c.nodes c.tokens c.range).outcome = .failed e ∧
      (c.run set depth).outcome = .failed e) ∨
    (∃ (nodes : List Node) (tokens : List Token) (r : Run Unit),
      .leaf r ∈ nodes.flatMap (Node.jobs set c.scope tokens) ∧
        (c.run set depth).outcome = r.outcome) ∨
    ∃ c', set.Calls c c' ∧ (c.run set depth).outcome = (runBody set depth c').outcome := by
  rw [run_eq, runWith] at h ⊢
  cases hprep : (set.prepare c.scope c.nodes c.tokens c.range).outcome with
  | exhausted => exact absurd hprep (set.prepare_outcome_ne_exhausted _ _ _ _)
  | failed e =>
    rw [Run.bind_of_failed hprep]
    exact .inl ⟨e, rfl, rfl⟩
  | done p =>
    obtain ⟨nodes, tokens⟩ := p
    rw [Run.bind_of_done hprep] at h ⊢
    obtain ⟨before, job, after, hjobs, hbefore, hend⟩ := Run.exists_of_forM_ne_done h
    cases job with
    | leaf r =>
      have hmem : Job.leaf r ∈ before ++ .leaf r :: after := by simp
      exact .inr (.inl ⟨nodes, tokens, r, hjobs ▸ hmem, hend⟩)
    | body c' => exact .inr (.inr ⟨c', calls_of_jobs hprep hjobs hbefore, hend⟩)

/-- So does each of its events. -/
lemma exists_of_mem_events_run {e : Event} (h : e ∈ (c.run set depth).events) :
    e ∈ (set.prepare c.scope c.nodes c.tokens c.range).events ∨
    (∃ (nodes : List Node) (tokens : List Token) (r : Run Unit),
      .leaf r ∈ nodes.flatMap (Node.jobs set c.scope tokens) ∧ e ∈ r.events) ∨
    ∃ c', set.Calls c c' ∧ e ∈ (runBody set depth c').events := by
  rw [run_eq, runWith] at h
  cases hprep : (set.prepare c.scope c.nodes c.tokens c.range).outcome with
  | exhausted => exact absurd hprep (set.prepare_outcome_ne_exhausted _ _ _ _)
  | failed error =>
    rw [Run.bind_of_failed hprep] at h
    exact .inl h
  | done p =>
    obtain ⟨nodes, tokens⟩ := p
    rw [Run.bind_of_done hprep] at h
    rcases List.mem_append.1 h with h | h
    · exact .inl h
    · obtain ⟨before, job, after, hjobs, hbefore, he⟩ := Run.exists_of_mem_events_forM h
      cases job with
      | leaf r =>
        have hmem : Job.leaf r ∈ before ++ .leaf r :: after := by simp
        exact .inr (.inl ⟨nodes, tokens, r, hjobs ▸ hmem, he⟩)
      | body c' => exact .inr (.inr ⟨c', calls_of_jobs hprep hjobs hbefore, he⟩)

end Call

/-- No warning is a failure because of a limit. -/
lemma Warning.toError_ne_limit (w : Warning) (limit : Nat) :
    w.toError ≠ .nestingTooDeep limit ∧ ∀ name, w.toError ≠ .recursivePartial name limit := by
  cases w with
  | undefinedVariable name => simp [toError]
  | partialUnavailable name cause => cases cause <;> simp [toError, LoadError.toError]

namespace Setting

variable {set : Setting} {c c' : Call} {depth : Nat} {e : Error}

/-! ### What is done at once -/

/-- What is not the body of a block puts nothing in, and fails only in a strict rendering, for a
warning. -/
lemma leaf_ensures {P : Event → Prop} (htext : ∀ content, P (.text content))
    (hvalue : ∀ v, P (.value v)) (hwarning : ∀ w span, P (.warning w span)) {scope : Scope}
    {tokens : List Token} {nodes : List Node} {r : Run Unit}
    (h : .leaf r ∈ nodes.flatMap (Node.jobs set scope tokens)) :
    r.Ensures P (fun e => set.options.strict = true ∧ ∃ w : Warning, e = w.toError)
      fun _ => True := by
  rcases set.leaf_cases h with ⟨content, rfl⟩ | ⟨name, value, -, rfl⟩ |
    ⟨name, raw, span, rfl⟩ | rfl
  · exact .emit (htext content)
  · exact .emit (hvalue value)
  · refine Run.Ensures.bind (Q := fun _ => True) ?_ fun _ _ => .emit (htext raw)
    unfold warn
    split
    · next hstrict => exact .fail ⟨hstrict, _, rfl⟩
    · exact .emit (hwarning _ _)
  · exact .pure trivial

/-! ### Putting partials in -/

/-- An expansion fails in a strict rendering, for a warning, or since partials include each other
too deep. -/
lemma expand_failed {scope : Scope} {ts : List Token}
    (h : (set.expand scope ts).outcome = .failed e) :
    (set.options.strict = true ∧ ∃ w : Warning, e = w.toError) ∨
      ∃ name, e = .recursivePartial name set.options.maxPartialDepth := by
  have hensures : Run.Ensures (fun _ => True) (fun e =>
      (set.options.strict = true ∧ ∃ w : Warning, e = w.toError) ∨
        ∃ name, e = .recursivePartial name set.options.maxPartialDepth)
      (fun us => ∀ u ∈ us, True) (set.expand scope ts) :=
    set.expandTo_ensures (Q := fun _ _ => True) (fun _ => trivial) (fun _ _ => trivial) trivial
      (fun hstrict w => .inl ⟨hstrict, w, rfl⟩) (fun name => .inr ⟨name, rfl⟩)
      (fun _ _ _ _ => trivial) (fun _ _ _ _ _ _ _ _ => ⟨trivial, fun _ _ => trivial⟩) _
      (fun _ _ => trivial)
  exact hensures.failure e h

/-- **Why the partials of a block cannot be put in**: the expansion fails, or too many blocks are
open in what comes out of it. -/
lemma prepare_failed {scope : Scope} {nodes : List Node} {tokens : List Token} {range : TokenRange}
    (hread : Node.ReadIn range tokens nodes) :
    (set.prepare scope nodes tokens range).outcome = .failed e ↔
      (set.expand scope (range.slice tokens)).outcome = .failed e ∨
      ∃ expanded, (set.expand scope (range.slice tokens)).outcome = .done expanded ∧
        Node.ofTokens expanded = .error e := by
  unfold prepare
  split
  · rw [Run.bind_outcome_failed_iff]
    refine or_congr_right (exists_congr fun expanded => and_congr_right fun _ => ?_)
    rw [Run.bind_outcome_failed_iff]
    cases hn : Node.ofTokens expanded with
    | ok nodes => simp [Run.ofExcept, Run.pure_eq]
    | error e' => simp [Run.ofExcept, Run.fail]
  · next hany =>
    -- there is nothing to expand, and the nodes have been read
    rw [set.expand_slice_of_plain hread hany]
    have hshift := hread.map_shiftAll
    cases hn : Node.ofTokens (range.slice tokens) with
    | ok nodes' => simp [Run.pure_eq, hn]
    | error e' =>
      rw [hn] at hshift
      cases hshift

/-- What is put in for a block shows in its expansion. -/
lemma mem_events_prepare {scope : Scope} {nodes : List Node} {tokens : List Token}
    {range : TokenRange} {event : Event}
    (h : event ∈ (set.prepare scope nodes tokens range).events) :
    event ∈ (set.expand scope (range.slice tokens)).events := by
  unfold prepare at h
  split at h
  · cases hexp : (set.expand scope (range.slice tokens)).outcome with
    | failed e => rwa [Run.bind_of_failed hexp] at h
    | exhausted => rwa [Run.bind_of_exhausted hexp] at h
    | done expanded =>
      rw [Run.bind_of_done hexp] at h
      cases hn : Node.ofTokens expanded with
      | ok nodes => simpa [hn, Run.ofExcept, Run.bind_eq, Run.bind, Run.pure_eq] using h
      | error e => simpa [hn, Run.ofExcept, Run.fail, Run.bind_eq, Run.bind] using h
  · cases h

/-! ### Blocks that are reached -/

/-- **Where a failure comes from**: the partials of a block that is reached cannot be put in, or the
rendering is strict and there is a warning. -/
theorem exists_reached_of_failed (h : (c.run set depth).outcome = .failed e) :
    (set.options.strict = true ∧ ∃ w : Warning, e = w.toError) ∨
      ∃ c', Relation.ReflTransGen set.Calls c c' ∧
        (set.prepare c'.scope c'.nodes c'.tokens c'.range).outcome = .failed e := by
  induction depth using Nat.strongRecOn generalizing c with
  | ind depth ih =>
    rcases Call.exists_of_run_ne_done (by rw [h]; simp) with
      ⟨e', hprep, hend⟩ | ⟨nodes, tokens, r, hr, hend⟩ | ⟨c', hcall, hend⟩
    · rw [h] at hend
      cases hend
      exact .inr ⟨c, .refl, hprep⟩
    · have hleaf := leaf_ensures (P := fun _ => True) (fun _ => trivial) (fun _ => trivial)
        (fun _ _ => trivial) hr
      exact .inl (hleaf.failure e (hend ▸ h))
    · rw [h] at hend
      cases depth with
      | zero => cases hend
      | succ depth =>
        refine (ih depth (Nat.lt_succ_self depth) hend.symm).imp_right ?_
        rintro ⟨c'', hreach, hprep⟩
        exact ⟨c'', .head hcall hreach, hprep⟩

/-- **Where a text is put in**: in the expansion of a block that is reached. -/
theorem exists_reached_of_enter {tag : Tag} {text : String}
    (h : .enter tag text ∈ (c.run set depth).events) :
    ∃ c', Relation.ReflTransGen set.Calls c c' ∧
      .enter tag text ∈ (set.expand c'.scope (c'.range.slice c'.tokens)).events := by
  induction depth using Nat.strongRecOn generalizing c with
  | ind depth ih =>
    rcases Call.exists_of_mem_events_run h with
      hprep | ⟨nodes, tokens, r, hr, he⟩ | ⟨c', hcall, he⟩
    · exact ⟨c, .refl, mem_events_prepare hprep⟩
    · have hleaf := leaf_ensures (P := fun e => e ≠ .enter tag text) (fun _ => nofun)
        (fun _ => nofun) (fun _ _ => nofun) hr
      exact absurd rfl (hleaf.events _ he)
    · cases depth with
      | zero => cases he
      | succ depth =>
        obtain ⟨c'', hreach, hexp⟩ := ih depth (Nat.lt_succ_self depth) he
        exact ⟨c'', .head hcall hreach, hexp⟩

/-- A body that fails makes the block around it fail. -/
lemma Calls.exists_failed (hcall : set.Calls c c')
    (h : ∃ depth, (c'.run set depth).outcome = .failed e) :
    ∃ depth, (c.run set depth).outcome = .failed e := by
  obtain ⟨nodes, tokens, before, after, depth, hprep, hjobs, hbefore⟩ := hcall
  obtain ⟨depth', hfailed⟩ := h
  refine ⟨max depth depth' + 1, ?_⟩
  -- the greater one of two grants does for the jobs before the body and for the body
  have hdone : (before.forM (Job.run (Call.run set (max depth depth')))).outcome = .done () := by
    have hle := Call.run_below_of_le set (Nat.le_max_left depth depth')
    rw [(Run.Below.forM (Job.run_below hle) before).eq_of_done hbefore, hbefore]
  have hbody : (c'.run set (max depth depth')).outcome = .failed e := by
    rw [Call.run_below_of_le set (Nat.le_max_right depth depth') c' (by simp [hfailed]), hfailed]
  rw [Call.run_succ, Call.runWith, Run.bind_of_done hprep]
  dsimp only
  rw [hjobs, Run.forM_of_ne_done hdone (by simp [Job.run, hbody])]
  exact hbody

/-- **A block that fails makes the whole rendering fail.** -/
theorem exists_failed_of_reached (hreach : Relation.ReflTransGen set.Calls c c')
    (h : (set.prepare c'.scope c'.nodes c'.tokens c'.range).outcome = .failed e) :
    ∃ depth, (c.run set depth).outcome = .failed e := by
  induction hreach using Relation.ReflTransGen.head_induction_on with
  | refl =>
    refine ⟨0, ?_⟩
    rw [Call.run_zero, Call.runWith, Run.bind_of_failed h]
  | head hcall _ ih => exact hcall.exists_failed ih

end Setting

end Stencil
