import Stencil.Proofs.Origins
import Stencil.Proofs.Rereading

set_option relaxedAutoImplicit false
set_option autoImplicit false

/-!
# The counter of partials

The limit for partials inside partials can be kept in two ways. An expansion can be granted the
levels that are left, as `Stencil.Setting.expandTo` is. Or there is one counter for the whole
rendering: it is raised where the text of a partial is put in, unless it is at the limit, and it is
lowered where that has come to an end, also if this end is a failure. This module renders with such
a counter, and shows that it always has the value that the levels left call for.

## Main definitions

* `Stencil.Counted` — a run in which each step is recorded with the counter before it.
* `Stencil.Counting` — a run that finds a counter and leaves one.
* `Stencil.Counting.putIn` — the text of a partial is put in.
* `Stencil.Setting.expandCounting`, `Stencil.Call.count` — an expansion, and the rendering of a
  block.
* `Stencil.CountedStep.Within` — a step while the counter is within its bounds.
* `Stencil.Counted.Balanced` — all steps are so, and the counter is left as it was found.

## Main results

* `Stencil.Counted.Balanced.bind`, `Stencil.Counted.Balanced.putIn` — how runs that keep the
  counter are put together.
* `Stencil.Setting.balanced_expandCounting` — an expansion keeps the counter.
* `Stencil.Call.balanced_count` — the rendering of a block keeps the counter at zero.
* `Stencil.Template.partial_counter_is_balanced` — what this means for whole renderings.
-/

namespace Stencil

/-! ### Runs with a counter -/

/-- A step of a rendering that counts. -/
inductive CountedStep where
  /-- Something that leaves a trail. -/
  | event (e : Event)
  /-- The rendering of a block begins. -/
  | block (c : Call)

/-- The event that a step leaves in the trail. -/
def CountedStep.event? : CountedStep → Option Event
  | event e => some e
  | block _ => none

/-- A run in which each step is recorded with the counter before it. The counter changes in steps
only, so these are all values that it takes, up to the one at the end. -/
structure Counted (α : Type) where
  /-- What happened, in order, each step behind the counter before it. -/
  steps : List (Nat × CountedStep)
  /-- How it ended. -/
  outcome : Outcome α
  /-- The counter at the end. -/
  counter : Nat

/-- The run without its counter. -/
def Counted.run {α : Type} (c : Counted α) : Run α :=
  ⟨c.steps.filterMap fun step => step.2.event?, c.outcome⟩

/-- A run that finds a counter and leaves one. -/
def Counting (α : Type) : Type := Nat → Counted α

namespace Counting

variable {α β : Type}

/-- Nothing happens, and the result is at hand. -/
protected def pure (a : α) : Counting α := fun n => ⟨[], .done a, n⟩

/-- One run after the other. If the first one has no result, then the counter stays as it left
it. -/
protected def bind (m : Counting α) (f : α → Counting β) : Counting β := fun n =>
  match (m n).outcome with
  | .done a =>
    ⟨(m n).steps ++ (f a (m n).counter).steps, (f a (m n).counter).outcome,
      (f a (m n).counter).counter⟩
  | .failed e => ⟨(m n).steps, .failed e, (m n).counter⟩
  | .exhausted => ⟨(m n).steps, .exhausted, (m n).counter⟩

instance : Monad Counting where
  pure := Counting.pure
  bind := Counting.bind

/-- A run that has nothing to do with the counter. -/
def ofRun (r : Run α) : Counting α := fun n =>
  ⟨r.events.map fun e => (n, .event e), r.outcome, n⟩

/-- The rendering of a block begins. -/
def begin (c : Call) : Counting Unit := fun n => ⟨[(n, .block c)], .done (), n⟩

/-- The counter is raised for a partial, or the partial is refused since the counter is at the
limit. -/
def enter (limit : Nat) (tag : Tag) (text : String) : Counting Unit := fun n =>
  if limit ≤ n then ⟨[], .failed (.recursivePartial tag.name limit), n⟩
  else ⟨[(n, .event (.enter tag text))], .done (), n + 1⟩

/-- The counter is lowered when the run has come to its end, whatever this is. At zero it would
stay. -/
def thenLeave (m : Counting α) : Counting α := fun n =>
  ⟨(m n).steps ++ [((m n).counter, .event .leave)], (m n).outcome, (m n).counter - 1⟩

/-- The text of a partial is put in by the run `m`. -/
def putIn (limit : Nat) (tag : Tag) (text : String) (m : Counting α) : Counting α := do
  enter limit tag text
  m.thenLeave

/-- The concatenated results of runs over the elements of a list, from left to right. -/
def flatMap (f : α → Counting (List β)) : List α → Counting (List β)
  | [] => pure []
  | a :: as => do
    let bs ← f a
    let rest ← flatMap f as
    return bs ++ rest

/-! ### One run after the other -/

lemma bind_of_done {m : Counting α} {n : Nat} {a : α} (h : (m n).outcome = .done a)
    (f : α → Counting β) : (m >>= f) n =
      ⟨(m n).steps ++ (f a (m n).counter).steps, (f a (m n).counter).outcome,
        (f a (m n).counter).counter⟩ := by
  change Counting.bind m f n = _
  rw [Counting.bind, h]

lemma bind_of_failed {m : Counting α} {n : Nat} {e : Error} (h : (m n).outcome = .failed e)
    (f : α → Counting β) : (m >>= f) n = ⟨(m n).steps, .failed e, (m n).counter⟩ := by
  change Counting.bind m f n = _
  rw [Counting.bind, h]

lemma bind_of_exhausted {m : Counting α} {n : Nat} (h : (m n).outcome = .exhausted)
    (f : α → Counting β) : (m >>= f) n = ⟨(m n).steps, .exhausted, (m n).counter⟩ := by
  change Counting.bind m f n = _
  rw [Counting.bind, h]

lemma flatMap_cons (f : α → Counting (List β)) (a : α) (as : List α) :
    flatMap f (a :: as) = (do
      let bs ← f a
      let rest ← flatMap f as
      return bs ++ rest) := rfl

lemma forM_cons (f : α → Counting Unit) (a : α) (as : List α) :
    (a :: as).forM f = (do f a; as.forM f) := rfl

end Counting

/-! ### Runs that keep the counter -/

/-- The counter is `n` before the step, and this is from `low` to `limit`. It is never lowered at
zero, and no block begins unless it is zero. -/
structure CountedStep.Within (low limit n : Nat) (step : CountedStep) : Prop where
  low_le : low ≤ n
  le_limit : n ≤ limit
  leave : step = .event .leave → 0 < n
  block : ∀ c, step = .block c → n = 0

/-- What was found at `low` does what `r` does without a counter. Meanwhile the counter is within
the bounds, and at the end it is `low` again, whatever the end is. -/
structure Counted.Balanced {α : Type} (low limit : Nat) (r : Run α) (c : Counted α) : Prop where
  run : c.run = r
  steps : ∀ step ∈ c.steps, step.2.Within low limit step.1
  counter : c.counter = low

/-- An event within the bounds, if it is not one that lowers the counter. -/
lemma CountedStep.Within.event {low limit n : Nat} {e : Event} (hlow : low ≤ n) (hlimit : n ≤ limit)
    (he : e ≠ .leave) : (CountedStep.event e).Within low limit n where
  low_le := hlow
  le_limit := hlimit
  leave h := absurd (CountedStep.event.inj h) he
  block _ h := by cases h

/-- The counter is lowered within the bounds. -/
lemma CountedStep.Within.ofLeave {low limit n : Nat} (hlow : low < n) (hlimit : n ≤ limit) :
    (CountedStep.event .leave).Within low limit n where
  low_le := Nat.le_of_lt hlow
  le_limit := hlimit
  leave _ := Nat.zero_lt_of_lt hlow
  block _ h := by cases h

/-- What is within narrower bounds is within wider ones. -/
lemma CountedStep.Within.mono {low low' limit n : Nat} {step : CountedStep} (hle : low' ≤ low)
    (h : step.Within low limit n) : step.Within low' limit n where
  low_le := Nat.le_trans hle h.low_le
  le_limit := h.le_limit
  leave := h.leave
  block := h.block

namespace Counted.Balanced

variable {α β : Type} {low limit : Nat}

lemma pure (a : α) : Balanced low limit (Pure.pure a) ((Pure.pure a : Counting α) low) where
  run := rfl
  steps _ h := by cases h
  counter := rfl

/-- A run that has nothing to do with the counter keeps it. -/
lemma ofRun {r : Run α} (hle : low ≤ limit) (h : ∀ e ∈ r.events, e ≠ .leave) :
    Balanced low limit r (Counting.ofRun r low) where
  run := by
    unfold Counted.run Counting.ofRun
    rw [List.filterMap_map]
    congr 1
    exact List.filterMap_some
  steps step hstep := by
    obtain ⟨e, he, rfl⟩ := List.mem_map.1 hstep
    exact .event (Nat.le_refl low) hle (h e he)
  counter := rfl

/-- **One run after the other** keeps the counter, if each of them does. The second one goes on with
the counter that the first one leaves. -/
lemma bind {r : Run α} {m : Counting α} {g : α → Run β} {f : α → Counting β}
    (hm : (m low).Balanced low limit r) (hf : ∀ a, (f a low).Balanced low limit (g a)) :
    ((m >>= f) low).Balanced low limit (r >>= g) := by
  obtain ⟨rfl, hsteps, hcounter⟩ := hm
  cases ha : (m low).outcome with
  | done a =>
    obtain ⟨hrun, hsteps', hcounter'⟩ := hf a
    rw [Counting.bind_of_done ha, hcounter, Run.bind_of_done (r := (m low).run) ha, ← hrun]
    refine ⟨?_, List.forall_mem_append.2 ⟨hsteps, hsteps'⟩, hcounter'⟩
    unfold Counted.run
    rw [List.filterMap_append]
  | failed e =>
    rw [Counting.bind_of_failed ha, Run.bind_of_failed (r := (m low).run) ha]
    exact ⟨rfl, hsteps, hcounter⟩
  | exhausted =>
    rw [Counting.bind_of_exhausted ha, Run.bind_of_exhausted (r := (m low).run) ha]
    exact ⟨rfl, hsteps, hcounter⟩

/-- Runs over the elements of a list keep the counter, if each of them does. -/
lemma flatMap {g : α → Run (List β)} {f : α → Counting (List β)}
    (h : ∀ a, (f a low).Balanced low limit (g a)) (as : List α) :
    (Counting.flatMap f as low).Balanced low limit (Run.flatMap g as) := by
  induction as with
  | nil => exact pure []
  | cons a as ih =>
    rw [Counting.flatMap_cons, Run.flatMap_cons]
    exact (h a).bind fun bs => ih.bind fun rest => pure (bs ++ rest)

lemma forM {g : α → Run Unit} {f : α → Counting Unit} {as : List α}
    (h : ∀ a ∈ as, (f a low).Balanced low limit (g a)) :
    ((as.forM f) low).Balanced low limit (as.forM g) := by
  induction as with
  | nil => exact pure ()
  | cons a as ih =>
    obtain ⟨ha, has⟩ := List.forall_mem_cons.1 h
    rw [Counting.forM_cons, Run.forM_cons]
    exact ha.bind fun _ => ih has

/-- **The text of a partial that is put in** keeps the counter, if what puts it in keeps a counter
that is greater by one: the counter is raised to this value first, and it is lowered again whatever
the end is. -/
lemma putIn {tag : Tag} {text : String} {r : Run α} {m : Counting α} (hlt : low < limit)
    (hm : (m (low + 1)).Balanced (low + 1) limit r) :
    (Counting.putIn limit tag text m low).Balanced low limit
      (r.between (.enter tag text) .leave) := by
  obtain ⟨rfl, hsteps, hcounter⟩ := hm
  have hputIn : Counting.putIn limit tag text m low =
      ⟨(low, .event (.enter tag text)) ::
        ((m (low + 1)).steps ++ [(low + 1, .event .leave)]), (m (low + 1)).outcome, low⟩ := by
    have henter : Counting.enter limit tag text low =
        ⟨[(low, .event (.enter tag text))], .done (), low + 1⟩ := if_neg (Nat.not_le.2 hlt)
    rw [Counting.putIn, Counting.bind_of_done (a := ()) (by rw [henter]), henter]
    dsimp only
    rw [Counting.thenLeave, hcounter]
    rfl
  have hentered : (CountedStep.event (.enter tag text)).Within low limit low :=
    .event (Nat.le_refl low) (Nat.le_of_lt hlt) (by simp)
  have hinner : ∀ step ∈ (m (low + 1)).steps, step.2.Within low limit step.1 :=
    fun step hstep => (hsteps step hstep).mono (Nat.le_succ low)
  have hleft : (CountedStep.event .leave).Within low limit (low + 1) :=
    .ofLeave (Nat.lt_succ_self low) hlt
  rw [hputIn]
  refine ⟨?_, List.forall_mem_cons.2 ⟨hentered, List.forall_mem_append.2
    ⟨hinner, List.forall_mem_singleton.2 hleft⟩⟩, rfl⟩
  unfold Counted.run Run.between
  simp [CountedStep.event?]

/-- A partial at the limit is refused. -/
lemma putIn_refused {tag : Tag} {text : String} {m : Counting α} :
    (Counting.putIn limit tag text m limit).Balanced limit limit
      (Run.fail (.recursivePartial tag.name limit)) := by
  have henter : Counting.enter limit tag text limit =
      ⟨[], .failed (.recursivePartial tag.name limit), limit⟩ := if_pos (Nat.le_refl limit)
  rw [Counting.putIn, Counting.bind_of_failed (by rw [henter]), henter]
  exact ⟨rfl, by simp, rfl⟩

end Counted.Balanced

/-! ### Expansions -/

namespace Setting

variable (set : Setting) (scope : Scope)

/-- The tokens that a token is replaced by. `inclusion` gives those of a partial with a text. -/
def expandTokenCounting (inclusion : Tag → String → Counting (List Token)) :
    Token → Counting (List Token)
  | .text content span => return [.text content span]
  | .tag tag =>
    if tag.role = .includes then
      match scope.resolve tag.name with
      | none => return [.tag tag]
      | some value => do
        match ← Counting.ofRun (set.partialText tag value) with
        | none => return []
        | some text => inclusion tag text
    else return [.tag tag]

/-- The tokens with their partials replaced. Only the counter limits how many partials may lie
inside one another. How deep the texts of partials are gone through is granted from outside. -/
def expandCounting : Nat → List Token → Counting (List Token)
  | 0 => Counting.flatMap (set.expandTokenCounting scope fun _ _ => Counting.ofRun Run.exhausted)
  | grant + 1 =>
    Counting.flatMap (set.expandTokenCounting scope fun tag text =>
      Counting.putIn set.options.maxPartialDepth tag text
        (expandCounting grant (Token.ofText set.delimiters (tag.level + 1) text)))

variable {low limit : Nat}

lemma balanced_expandTokenCounting {f : Tag → String → Run (List Token)}
    {g : Tag → String → Counting (List Token)} (hle : low ≤ limit)
    (h : ∀ tag text, (g tag text low).Balanced low limit (f tag text)) (t : Token) :
    (set.expandTokenCounting scope g t low).Balanced low limit (set.expandToken scope f t) := by
  cases t with
  | text content span => exact .pure _
  | tag tag =>
    by_cases hr : tag.role = .includes
    · cases hv : scope.resolve tag.name with
      | none =>
        simp only [expandTokenCounting, expandToken, if_pos hr, hv]
        exact .pure _
      | some value =>
        simp only [expandTokenCounting, expandToken, if_pos hr, hv]
        have htext := set.partialText_ensures (P := fun e => e ≠ .leave) (E := fun _ => True)
          (fun _ h => by cases h) (fun _ _ h => by cases h) (fun _ _ => trivial) tag value
        refine (Counted.Balanced.ofRun hle htext.events).bind fun text => ?_
        cases text with
        | none => exact .pure _
        | some text => exact h tag text
    · simp only [expandTokenCounting, expandToken, if_neg hr]
      exact .pure _

/-- **An expansion keeps the counter**, and a counter that is at `low` in the beginning comes to the
same as the levels that are left to the limit.

**Proof sketch.** Induction on the grant. A partial is refused exactly if the counter is at the
limit, so that no level is left. Otherwise its text is expanded with the counter greater by one and
with one level less, and the counter is lowered after that. -/
theorem balanced_expandCounting {grant : Nat} (hle : low ≤ set.options.maxPartialDepth)
    (hgrant : set.options.maxPartialDepth < low + grant) (ts : List Token) :
    (set.expandCounting scope grant ts low).Balanced low set.options.maxPartialDepth
      (set.expandTo scope (set.options.maxPartialDepth - low) ts) := by
  induction grant generalizing low ts with
  | zero => omega
  | succ grant ih =>
    rw [expandTo_eq, expandCounting]
    refine .flatMap (set.balanced_expandTokenCounting scope hle fun tag text => ?_) ts
    by_cases hlimit : low = set.options.maxPartialDepth
    · rw [hlimit, Nat.sub_self]
      exact .putIn_refused
    · have hlt : low < set.options.maxPartialDepth := by omega
      have hlevels : set.options.maxPartialDepth - low =
          set.options.maxPartialDepth - (low + 1) + 1 := by omega
      rw [hlevels]
      exact .putIn hlt (ih hlt (by omega) _)

end Setting

/-! ### Blocks -/

/-- The job done, where `f` renders the bodies of blocks. -/
def Job.count (f : Call → Counting Unit) : Job → Counting Unit
  | leaf r => Counting.ofRun r
  | body c => f c

namespace Call

variable (set : Setting) (grant : Nat)

/-- The nodes of a block with its partials put in, and the tokens that they were read from. -/
def prepareCounting (c : Call) : Counting (List Node × List Token) :=
  if Node.anyContainsPartial c.nodes then do
    let tokens ← set.expandCounting c.scope grant (c.range.slice c.tokens)
    let nodes ← Counting.ofRun (Run.ofExcept (Node.ofTokens tokens))
    return (nodes, tokens)
  else return (c.nodes, c.tokens)

/-- The rendering of the block, where `f` renders the bodies of blocks. -/
def countWith (f : Call → Counting Unit) (c : Call) : Counting Unit := do
  Counting.begin c
  let (nodes, tokens) ← c.prepareCounting set grant
  (nodes.flatMap (Node.jobs set c.scope tokens)).forM (Job.count f)

/-- The rendering of the block, where bodies may nest to the given depth. -/
def count : Nat → Call → Counting Unit
  | 0 => countWith set grant fun c => do
    Counting.begin c
    Counting.ofRun Run.exhausted
  | depth + 1 => countWith set grant (count depth)

variable {set grant}

lemma balanced_prepareCounting (hgrant : set.options.maxPartialDepth < grant) (c : Call) :
    (c.prepareCounting set grant 0).Balanced 0 set.options.maxPartialDepth
      (set.prepare c.scope c.nodes c.tokens c.range) := by
  unfold prepareCounting Setting.prepare
  split
  · refine (set.balanced_expandCounting c.scope (Nat.zero_le _) (by omega) _).bind fun tokens => ?_
    refine (Counted.Balanced.ofRun (Nat.zero_le _) ?_).bind fun nodes => .pure _
    cases Node.ofTokens tokens <;> simp [Run.ofExcept, Run.fail]
  · exact .pure _

/-- The beginning of a block leaves nothing in the trail, and keeps the counter. -/
lemma balanced_begin {limit : Nat} {r : Run Unit} {m : Counting Unit}
    (h : (m 0).Balanced 0 limit r) (c : Call) :
    ((do Counting.begin c; m) 0).Balanced 0 limit r := by
  have hzero : (CountedStep.block c).Within 0 limit 0 :=
    ⟨Nat.le_refl 0, Nat.zero_le limit, fun h => (by cases h), fun _ _ => rfl⟩
  have hbegin : (Counting.begin c 0).Balanced 0 limit (pure ()) :=
    ⟨rfl, List.forall_mem_singleton.2 hzero, rfl⟩
  have hboth := hbegin.bind (f := fun _ => m) (g := fun _ => r) fun _ => h
  rwa [Run.pure_bind] at hboth

lemma balanced_countWith (hgrant : set.options.maxPartialDepth < grant) {f : Call → Run Unit}
    {g : Call → Counting Unit}
    (h : ∀ c, (g c 0).Balanced 0 set.options.maxPartialDepth (f c)) (c : Call) :
    (c.countWith set grant g 0).Balanced 0 set.options.maxPartialDepth (c.runWith set f) := by
  refine balanced_begin ((balanced_prepareCounting hgrant c).bind fun p => .forM ?_) c
  intro job hjob
  cases job with
  | leaf r =>
    have hleaf := Setting.leaf_ensures (P := fun e => e ≠ .leave) (fun _ h => by cases h)
      (fun _ h => by cases h) (fun _ _ h => by cases h) hjob
    exact .ofRun (Nat.zero_le _) hleaf.events
  | body c' => exact h c'

/-- **The rendering of a block keeps the counter at zero.** -/
theorem balanced_count (hgrant : set.options.maxPartialDepth < grant) (depth : Nat) (c : Call) :
    (c.count set grant depth 0).Balanced 0 set.options.maxPartialDepth (c.run set depth) := by
  induction depth generalizing c with
  | zero =>
    rw [run_zero, count]
    exact balanced_countWith hgrant
      (balanced_begin (.ofRun (Nat.zero_le _) (by simp [Run.exhausted]))) c
  | succ depth ih =>
    rw [run_succ, count]
    exact balanced_countWith hgrant ih c

end Call

/-! ### Whole renderings -/

namespace Template

/-- **The counter of partials is balanced on every path.**

An expansion that finds the counter at `low`, not above the limit, comes to its end: in tokens, or
in the failure of a load, of the limit or of a text further in. Meanwhile the counter is from `low`
to the limit, it is never lowered at zero, and at the end it is `low` again. What happens is what
happens in an expansion that is granted the levels from `low` to the limit.

So each block of a rendering begins with the counter at zero, however the rendering goes on, and
the rendering is the one without a counter. -/
theorem partial_counter_is_balanced (t : Template) (loader : Loader) (options : Options)
    {grant : Nat} (hgrant : options.maxPartialDepth < grant) :
    (∀ scope tokens low, low ≤ options.maxPartialDepth →
      let c := (t.setting loader options).expandCounting scope grant tokens low
      c.run = (t.setting loader options).expandTo scope (options.maxPartialDepth - low) tokens ∧
        c.outcome ≠ .exhausted ∧
        (∀ step ∈ c.steps, low ≤ step.1 ∧ step.1 ≤ options.maxPartialDepth) ∧
        (∀ n, (n, .event .leave) ∈ c.steps → 0 < n) ∧ c.counter = low) ∧
    ∀ context depth,
      let c := (t.entry context).count (t.setting loader options) grant depth 0
      c.run = t.run context loader options depth ∧
        (∀ step ∈ c.steps, step.1 ≤ options.maxPartialDepth) ∧
        (∀ n, (n, .event .leave) ∈ c.steps → 0 < n) ∧
        (∀ n call, (n, .block call) ∈ c.steps → n = 0) ∧ c.counter = 0 := by
  constructor
  · intro scope tokens low hle c
    have hc : c.Balanced low options.maxPartialDepth
        ((t.setting loader options).expandTo scope (options.maxPartialDepth - low) tokens) :=
      (t.setting loader options).balanced_expandCounting scope hle
        (show options.maxPartialDepth < low + grant by omega) tokens
    have hend : c.run.outcome ≠ .exhausted := by
      rw [hc.run]
      exact (t.setting loader options).expandTo_outcome_ne_exhausted _ _
    exact ⟨hc.run, hend, fun step hstep => ⟨(hc.steps step hstep).low_le,
      (hc.steps step hstep).le_limit⟩, fun n hn => (hc.steps _ hn).leave rfl, hc.counter⟩
  · intro context depth c
    have hlimit : (t.setting loader options).options.maxPartialDepth < grant := hgrant
    have hc : c.Balanced 0 options.maxPartialDepth (t.run context loader options depth) :=
      Call.balanced_count hlimit depth (t.entry context)
    exact ⟨hc.run, fun step hstep => (hc.steps step hstep).le_limit,
      fun n hn => (hc.steps _ hn).leave rfl, fun n call hn => (hc.steps _ hn).block call rfl,
      hc.counter⟩

/-- A case where a text inside the text of a partial is missing, which a strict rendering fails
at. -/
theorem partial_counter_is_balanced_of_missing_text :
    ∃ t, compileWith .standard "{{#a}}{{>p}}{{/a}}" = .ok t ∧
      let context := Context.ofList [("a", .map (Context.ofList
        [("p", .inline "{{>q}}"), ("q", .resource "f")]))]
      let c := (t.entry context).count (t.setting .empty ⟨true, 2⟩) 3 1 0
      -- two blocks begin, then a partial is entered, a text is asked for and the partial is left
      c.steps.map Prod.fst = [0, 0, 0, 1, 1] ∧ c.outcome.isDone = false ∧
        (∀ n call, (n, .block call) ∈ c.steps → n = 0) ∧ c.counter = 0 ∧
        c.run = t.run context .empty ⟨true, 2⟩ 1 ∧
        ∀ scope tokens,
          ((t.setting .empty ⟨true, 2⟩).expandCounting scope 3 tokens 1).counter = 1 := by
  obtain ⟨t, ht⟩ := exists_of_isOk
    (show (compileWith .standard "{{#a}}{{>p}}{{/a}}").isOk = true by decide +kernel)
  refine ⟨t, ht, ?_⟩
  intro context c
  obtain ⟨hexpand, hrender⟩ := partial_counter_is_balanced t .empty ⟨true, 2⟩ (show 2 < 3 by omega)
  obtain ⟨hrun, -, -, hblock, hcounter⟩ := hrender context 1
  have heval : ((compileWith .standard "{{#a}}{{>p}}{{/a}}").toOption.map fun t =>
      let c := (t.entry context).count (t.setting .empty ⟨true, 2⟩) 3 1 0
      (c.steps.map Prod.fst, c.outcome.isDone)) = some ([0, 0, 0, 1, 1], false) := by
    decide +kernel
  rw [ht] at heval
  obtain ⟨hsteps, hend⟩ := Prod.mk.inj (Option.some.inj heval)
  refine ⟨hsteps, hend, hblock, hcounter, hrun, fun scope tokens => ?_⟩
  obtain ⟨-, -, -, -, hlow⟩ := hexpand scope tokens 1 (show 1 ≤ 2 by omega)
  exact hlow

end Template

end Stencil
