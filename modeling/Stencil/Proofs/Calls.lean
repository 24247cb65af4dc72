import Mathlib.Order.Basic
import Stencil.Proofs.Expansion
import Stencil.Proofs.Position
import Stencil.Template

set_option relaxedAutoImplicit false
set_option autoImplicit false

/-!
# How renderings of blocks call each other

Rendering a block comes to rendering bodies of blocks inside it, each in a scope of its own. This
module says which ones, and what that has to do with the depth that a rendering is granted: the
rendering comes to an end with some grant exactly if there is no endless nest of bodies.

## Main definitions

* `Stencil.Call` — what the rendering of a block is given.
* `Stencil.Job`, `Stencil.Node.jobs` — what rendering a node comes to.
* `Stencil.Setting.Calls` — rendering one block comes to rendering another one.
* `Stencil.Setting.Halts` — the rendering of a block comes to an end.

## Main results

* `Stencil.Call.run_below_of_le` — a greater grant changes no rendering that has come to an end.
* `Stencil.Setting.leaf_cases` — what is done at once.
* `Stencil.Setting.halts_iff_acc` — a rendering comes to an end exactly if its calls do not nest
  without end.
* `Stencil.Setting.readIn_of_prepare_done`, `Stencil.Setting.Calls.body` — each block is rendered
  with the nodes of its tokens.
-/

namespace Stencil

/-- What the rendering of a block is given: its nodes, the tokens and the range in them that the
nodes were read from, and the scope. -/
structure Call where
  nodes : List Node
  tokens : List Token
  range : TokenRange
  scope : Scope

/-- Part of the rendering of a node. -/
inductive Job where
  /-- Something that is done at once. -/
  | leaf (r : Run Unit)
  /-- The body of a block is rendered. -/
  | body (c : Call)

/-- The job done, where `f` renders the bodies of blocks. -/
def Job.run (f : Call → Run Unit) : Job → Run Unit
  | leaf r => r
  | body c => f c

lemma Job.run_below {f g : Call → Run Unit} (h : ∀ c, (f c).Below (g c)) (job : Job) :
    (job.run f).Below (job.run g) := by
  cases job with
  | leaf r => exact .refl r
  | body c => exact h c

/-- What rendering a node comes to: the body of a block once for each of its scopes, and any other
node at once. -/
def Node.jobs (set : Setting) (scope : Scope) (tokens : List Token) : Node → List Job
  | .block kind name _ inner body =>
    match scope.resolve name with
    | some v => (v.scopes scope kind).map fun s => .body ⟨body, tokens, inner, s⟩
    | none => []
  | n => [.leaf (set.renderNode (fun _ _ _ => return ()) scope n)]

namespace Call

variable (set : Setting)

/-- The rendering of the block, where bodies may nest to the given depth. -/
def run (depth : Nat) (c : Call) : Run Unit :=
  set.renderBlock depth c.nodes c.tokens c.range c.scope

/-- The rendering of the block, where `f` renders the bodies of blocks. -/
def runWith (f : Call → Run Unit) (c : Call) : Run Unit := do
  let (nodes, tokens) ← set.prepare c.scope c.nodes c.tokens c.range
  (nodes.flatMap (Node.jobs set c.scope tokens)).forM (Job.run f)

/-- The jobs of a node, one after the other, render it. -/
lemma forM_jobs (f : Call → Run Unit) (scope : Scope) (tokens : List Token) (n : Node) :
    (n.jobs set scope tokens).forM (Job.run f) =
      set.renderNode (fun body inner s => f ⟨body, tokens, inner, s⟩) scope n := by
  cases n with
  | text content span => exact bind_pure _
  | value name raw span =>
    refine (bind_pure _).trans ?_
    simp only [Job.run, Setting.renderNode]
  | block kind name span inner body =>
    cases hv : scope.resolve name with
    | none =>
      simp only [Node.jobs, Setting.renderNode, hv]
      rfl
    | some value =>
      simp only [Node.jobs, Setting.renderNode, hv]
      rw [Run.forM_map]
      rfl
  | inclusion name span => exact bind_pure _

lemma renderWith_eq (f : Call → Run Unit) (c : Call) :
    set.renderWith (fun body tokens inner s => f ⟨body, tokens, inner, s⟩) c.nodes c.tokens
      c.range c.scope = c.runWith set f := by
  unfold Setting.renderWith runWith
  congr 1
  funext ⟨nodes, tokens⟩
  dsimp only
  rw [Run.forM_flatMap]
  exact Run.forM_congr fun n _ => (forM_jobs set f c.scope tokens n).symm

lemma run_zero (c : Call) : c.run set 0 = c.runWith set fun _ => Run.exhausted :=
  renderWith_eq set (fun _ => Run.exhausted) c

lemma run_succ (depth : Nat) (c : Call) : c.run set (depth + 1) = c.runWith set (run set depth) :=
  renderWith_eq set (run set depth) c

/-! ### Greater grants -/

lemma runWith_below {f g : Call → Run Unit} (h : ∀ c, (f c).Below (g c)) (c : Call) :
    (c.runWith set f).Below (c.runWith set g) :=
  (Run.Below.refl _).bind fun _ => Run.Below.forM (Job.run_below h) _

lemma run_below_succ (depth : Nat) (c : Call) :
    (c.run set depth).Below (c.run set (depth + 1)) := by
  induction depth generalizing c with
  | zero =>
    rw [run_zero, run_succ]
    exact runWith_below set (fun c => .exhausted _) c
  | succ depth ih =>
    rw [run_succ, run_succ]
    exact runWith_below set ih c

/-- **A greater grant changes no rendering that has come to an end.** -/
theorem run_below_of_le {depth depth' : Nat} (h : depth ≤ depth') (c : Call) :
    (c.run set depth).Below (c.run set depth') := by
  induction h with
  | refl => exact .refl _
  | step _ ih => exact ih.trans (run_below_succ set _ c)

end Call

/-! ### Calls -/

namespace Setting

variable (set : Setting)

/-- Rendering the block `c` comes to rendering the body `c'`: the body is one of the jobs of its
nodes, and those before it are done without a failure. -/
def Calls (c c' : Call) : Prop :=
  ∃ nodes tokens before after depth,
    (set.prepare c.scope c.nodes c.tokens c.range).outcome = .done (nodes, tokens) ∧
    nodes.flatMap (Node.jobs set c.scope tokens) = before ++ .body c' :: after ∧
    (before.forM (Job.run (Call.run set depth))).outcome = .done ()

/-- The rendering of the block comes to an end if it is granted enough. -/
def Halts (c : Call) : Prop := ∃ depth, (c.run set depth).outcome ≠ .exhausted

lemma prepare_outcome_ne_exhausted (scope : Scope) (nodes : List Node) (tokens : List Token)
    (range : TokenRange) : (set.prepare scope nodes tokens range).outcome ≠ .exhausted := by
  unfold prepare
  split
  · intro h
    rcases Run.bind_outcome_exhausted_iff.1 h with h | ⟨expanded, -, h⟩
    · exact set.expandTo_outcome_ne_exhausted _ _ h
    · rcases Run.bind_outcome_exhausted_iff.1 h with h | ⟨nodes, -, h⟩
      · cases hn : Node.ofTokens expanded <;> rw [hn] at h <;> cases h
      · cases h
  · simp [Run.pure_eq]

/-- What is not the body of a block writes a text or a value, or warns and then writes the tag, or
does nothing. -/
lemma leaf_cases {scope : Scope} {tokens : List Token} {nodes : List Node} {r : Run Unit}
    (h : .leaf r ∈ nodes.flatMap (Node.jobs set scope tokens)) :
    (∃ content, r = Run.emit (.text content)) ∨
    (∃ name value, scope.resolve name = some value ∧ r = Run.emit (.value value)) ∨
    (∃ name raw span, r = (do
      set.warn (.undefinedVariable name) span
      Run.emit (.text raw))) ∨ r = pure () := by
  obtain ⟨n, -, h⟩ := List.mem_flatMap.1 h
  cases n with
  | text content span => exact .inl ⟨content, Job.leaf.inj (List.mem_singleton.1 h)⟩
  | value name raw span =>
    cases List.mem_singleton.1 h
    unfold renderNode
    dsimp only
    split
    · next value hv => exact .inr (.inl ⟨name, value, hv, rfl⟩)
    · exact .inr (.inr (.inl ⟨name, raw, span, rfl⟩))
  | block kind name span inner body =>
    simp only [Node.jobs] at h
    split at h <;> simp at h
  | inclusion name span => exact .inr (.inr (.inr (Job.leaf.inj (List.mem_singleton.1 h))))

/-- What is not the body of a block is rendered without any grant. -/
lemma leaf_outcome_ne_exhausted {scope : Scope} {tokens : List Token} {nodes : List Node}
    {r : Run Unit} (h : .leaf r ∈ nodes.flatMap (Node.jobs set scope tokens)) :
    r.outcome ≠ .exhausted := by
  rcases set.leaf_cases h with ⟨content, rfl⟩ | ⟨name, value, -, rfl⟩ |
    ⟨name, raw, span, rfl⟩ | rfl
  · simp [Run.emit]
  · simp [Run.emit]
  · intro he
    rcases Run.bind_outcome_exhausted_iff.1 he with he | ⟨_, -, he⟩
    · exact set.warn_outcome_ne_exhausted _ _ he
    · cases he
  · simp [Run.pure_eq]

variable {set}

/-- If a rendering has come to an end, then so have the renderings of bodies that it called.

Bodies are rendered by `f`, which grants less or more than the renderings that show that the jobs
before the body are done. -/
lemma Calls.outcome_ne_exhausted {c c' : Call} (h : set.Calls c c') {f : Call → Run Unit}
    (hf : ∀ depth, (∀ d : Call, (f d).Below (d.run set depth)) ∨
      ∀ d : Call, (d.run set depth).Below (f d))
    (hc : (c.runWith set f).outcome ≠ .exhausted) : (f c').outcome ≠ .exhausted := by
  obtain ⟨nodes, tokens, before, after, depth, hprep, hjobs, hbefore⟩ := h
  rw [Call.runWith, Run.bind_of_done hprep] at hc
  dsimp only at hc
  rw [hjobs, Run.forM_append] at hc
  have hdone : (before.forM (Job.run f)).outcome = .done () := by
    rcases hf depth with hf | hf
    · have hne : (before.forM (Job.run f)).outcome ≠ .exhausted :=
        fun he => hc (Run.bind_outcome_exhausted_iff.2 (.inl he))
      rw [← Run.Below.forM (Job.run_below hf) before hne, hbefore]
    · rw [(Run.Below.forM (Job.run_below hf) before).eq_of_done hbefore, hbefore]
  intro he
  refine hc (Run.bind_outcome_exhausted_iff.2 (.inr ⟨(), hdone, ?_⟩))
  exact Run.bind_outcome_exhausted_iff.2 (.inl he)

/-- A rendering that has come to an end leaves less depth to those that it calls. -/
lemma Calls.run_outcome_ne_exhausted {c c' : Call} (h : set.Calls c c') {depth : Nat}
    (hc : (c.run set depth).outcome ≠ .exhausted) :
    ∃ depth', depth = depth' + 1 ∧ (c'.run set depth').outcome ≠ .exhausted := by
  cases depth with
  | zero =>
    rw [Call.run_zero] at hc
    exact absurd rfl (h.outcome_ne_exhausted (fun _ => .inl fun _ => .exhausted _) hc)
  | succ depth =>
    rw [Call.run_succ] at hc
    refine ⟨depth, rfl, h.outcome_ne_exhausted (fun depth' => ?_) hc⟩
    rcases Nat.le_total depth depth' with hle | hle
    · exact .inl (Call.run_below_of_le set hle)
    · exact .inr (Call.run_below_of_le set hle)

/-- A list of jobs comes to an end if all bodies that it really comes to do. -/
lemma exists_forM_jobs_ne_exhausted {jobs : List Job} (before : List Job) (depth : Nat)
    (hleaf : ∀ r, .leaf r ∈ jobs → r.outcome ≠ .exhausted)
    (hbefore : (before.forM (Job.run (Call.run set depth))).outcome = .done ())
    (hbody : ∀ c done rest depth, before ++ jobs = done ++ .body c :: rest →
      (done.forM (Job.run (Call.run set depth))).outcome = .done () → set.Halts c) :
    ∃ depth, (jobs.forM (Job.run (Call.run set depth))).outcome ≠ .exhausted := by
  induction jobs generalizing before depth with
  | nil => exact ⟨0, by simp [Run.forM_nil, Run.pure_eq]⟩
  | cons job jobs ih =>
    have hjob : ∃ d, (job.run (Call.run set d)).outcome ≠ .exhausted := by
      cases job with
      | leaf r => exact ⟨0, hleaf r List.mem_cons_self⟩
      | body c => exact hbody c before jobs depth rfl hbefore
    obtain ⟨d, hd⟩ := hjob
    cases ho : (job.run (Call.run set d)).outcome with
    | exhausted => exact absurd ho hd
    | failed e =>
      refine ⟨d, ?_⟩
      rw [Run.forM_cons, Run.bind_of_failed ho]
      simp
    | done u =>
      -- the greater one of two grants does for the jobs up to this one
      have hjob' : ∀ {m}, d ≤ m → (job.run (Call.run set m)).outcome = .done () := by
        intro m hm
        rw [Job.run_below (Call.run_below_of_le set hm) job hd, ho]
      have hbefore' : ((before ++ [job]).forM (Job.run (Call.run set (max depth d)))).outcome =
          .done () := by
        have hle := Call.run_below_of_le set (Nat.le_max_left depth d)
        rw [Run.forM_append, (Run.Below.forM (Job.run_below hle) before).eq_of_done hbefore,
          Run.bind_outcome_done_iff]
        exact ⟨(), hbefore, Run.bind_outcome_done_iff.2
          ⟨(), hjob' (Nat.le_max_right depth d), rfl⟩⟩
      obtain ⟨d', hd'⟩ := ih (before ++ [job]) (max depth d)
        (fun r hr => hleaf r (List.mem_cons_of_mem _ hr)) hbefore'
        (fun c done rest m hsplit hdone => hbody c done rest m (by simpa using hsplit) hdone)
      refine ⟨max d d', fun he => hd' ?_⟩
      rw [Run.forM_cons] at he
      rcases Run.bind_outcome_exhausted_iff.1 he with he | ⟨_, -, he⟩
      · rw [hjob' (Nat.le_max_left d d')] at he
        cases he
      · by_contra hne
        have hle := Call.run_below_of_le set (Nat.le_max_right d d')
        exact hd' (by rw [Run.Below.forM (Job.run_below hle) jobs hne] at he; exact he)

/-- **A rendering comes to an end exactly if its calls do not nest without end.**

**Proof sketch.** A call is granted less than its caller, so a rendering that comes to an end has
calls that nest at most as deep as it was granted. For the converse, each job of a block comes to
an end with some grant by induction, and the greatest of these grants does for all jobs. -/
theorem halts_iff_acc {c : Call} : set.Halts c ↔ Acc (fun d e => set.Calls e d) c := by
  constructor
  · rintro ⟨depth, hc⟩
    induction depth generalizing c with
    | zero =>
      refine ⟨_, fun c' h => ?_⟩
      obtain ⟨_, h₀, -⟩ := h.run_outcome_ne_exhausted hc
      cases h₀
    | succ depth ih =>
      refine ⟨_, fun c' h => ?_⟩
      obtain ⟨_, h₁, hc'⟩ := h.run_outcome_ne_exhausted hc
      cases h₁
      exact ih hc'
  · intro hacc
    induction hacc with
    | intro c _ ih =>
      have hbelow : ∀ depth, (c.runWith set (Call.run set depth)).outcome ≠ .exhausted →
          set.Halts c := fun depth h => ⟨depth + 1, by rwa [Call.run_succ]⟩
      cases hprep : (set.prepare c.scope c.nodes c.tokens c.range).outcome with
      | exhausted => exact absurd hprep (set.prepare_outcome_ne_exhausted _ _ _ _)
      | failed e =>
        refine hbelow 0 ?_
        rw [Call.runWith, Run.bind_of_failed hprep]
        simp
      | done p =>
        obtain ⟨nodes, tokens⟩ := p
        obtain ⟨depth, hdepth⟩ := exists_forM_jobs_ne_exhausted [] 0
          (fun r hr => set.leaf_outcome_ne_exhausted hr) rfl
          (fun c' done rest depth hsplit hdone =>
            ih c' ⟨nodes, tokens, done, rest, depth, hprep, hsplit, hdone⟩)
        refine hbelow depth ?_
        rw [Call.runWith, Run.bind_of_done hprep]
        exact hdepth

/-! ### The nodes of each block -/

variable (set) in
/-- The tokens of nodes without partials stay as they are. -/
lemma expand_slice_of_plain {scope : Scope} {nodes : List Node} {tokens : List Token}
    {range : TokenRange} (hread : Node.ReadIn range tokens nodes)
    (hany : ¬ Node.anyContainsPartial nodes = true) :
    set.expand scope (range.slice tokens) = pure (range.slice tokens) := by
  have hnone : Token.partials (range.slice tokens) = [] := by
    by_contra hne
    exact hany ((Node.anyContainsPartial_of_readFrom hread.read).2 hne)
  exact set.expandTo_of_unbound _ (by simp [hnone])

/-- **The nodes that a block is rendered with** are those of its tokens after the expansion, as
they stand in a range of the tokens that go with them. -/
theorem readIn_of_prepare_done {scope : Scope} {nodes nodes' : List Node}
    {tokens tokens' : List Token} {range : TokenRange} (hread : Node.ReadIn range tokens nodes)
    (h : (set.prepare scope nodes tokens range).outcome = .done (nodes', tokens')) :
    ∃ range', Node.ReadIn range' tokens' nodes' ∧
      (set.expand scope (range.slice tokens)).outcome = .done (range'.slice tokens') := by
  unfold prepare at h
  split at h
  · -- the nodes were read anew
    rw [Run.bind_outcome_done_iff] at h
    obtain ⟨expanded, hexp, h⟩ := h
    rw [Run.bind_outcome_done_iff] at h
    obtain ⟨read, hr, h⟩ := h
    cases h
    have hn : Node.ofTokens tokens' = .ok nodes' := by
      cases hn : Node.ofTokens tokens' with
      | ok ns =>
        rw [hn] at hr
        cases hr
        rfl
      | error e =>
        rw [hn] at hr
        cases hr
    refine ⟨⟨0, tokens'.length⟩, Node.readIn_all hn, ?_⟩
    rwa [TokenRange.slice_all]
  · -- there is nothing to expand
    next hany =>
    cases h
    refine ⟨range, hread, ?_⟩
    rw [set.expand_slice_of_plain hread hany]
    rfl

/-- What the body of a block among the jobs of a node is given. -/
lemma mem_jobs_body {scope : Scope} {tokens : List Token} {nodes : List Node} {c : Call}
    (h : .body c ∈ nodes.flatMap (Node.jobs set scope tokens)) :
    ∃ kind name span value s, .block kind name span c.range c.nodes ∈ nodes ∧
      scope.resolve name = some value ∧ s ∈ value.scopes scope kind ∧
      c = ⟨c.nodes, tokens, c.range, s⟩ := by
  obtain ⟨n, hn, h⟩ := List.mem_flatMap.1 h
  cases n with
  | block kind name span inner body =>
    simp only [Node.jobs] at h
    split at h
    · next value hv =>
      obtain ⟨s, hs, hc⟩ := List.mem_map.1 h
      cases hc
      exact ⟨kind, name, span, value, s, hn, hv, hs, rfl⟩
    · simp at h
  | text content span => simp [Node.jobs] at h
  | value name raw span => simp [Node.jobs] at h
  | inclusion name span => simp [Node.jobs] at h

/-- **A body that is rendered** is that of a block among the tokens of the expansion; it is given
its own tokens with their nodes, and one of the scopes of the value of the block. -/
theorem Calls.body {c c' : Call} (h : set.Calls c c')
    (hc : Node.ReadIn c.range c.tokens c.nodes) :
    Node.ReadIn c'.range c'.tokens c'.nodes ∧
      ∃ expanded before opener closer after kind value,
        (set.expand c.scope (c.range.slice c.tokens)).outcome = .done expanded ∧
        expanded = before ++ .tag opener :: (c'.range.slice c'.tokens ++ .tag closer :: after) ∧
        opener.role = .opens kind ∧ c.scope.resolve opener.name = some value ∧
        c'.scope ∈ value.scopes c.scope kind := by
  obtain ⟨nodes, tokens, before, after, depth, hprep, hjobs, -⟩ := h
  obtain ⟨range', hread, hexp⟩ := readIn_of_prepare_done hc hprep
  obtain ⟨kind, name, span, value, s, hmem, hv, hs, hc'⟩ :=
    mem_jobs_body (c := c') (by rw [hjobs]; simp)
  rw [hc']
  obtain ⟨hbody, before, opener, closer, after, hslice, hok, hon, -, -, -⟩ := hread.block hmem
  exact ⟨hbody, _, before, opener, closer, after, kind, value, hexp, hslice, hok, hon ▸ hv, hs⟩

end Setting

end Stencil
