import Stencil.Proofs.Pairing

set_option relaxedAutoImplicit false
set_option autoImplicit false

/-!
# Partials among tokens and nodes

Every partial among the tokens becomes a node of its own, at whatever depth, and no other token
does. So the nodes tell whether there is a partial to be put in.

## Main definitions

* `Stencil.Token.partials` — the names of the partials among tokens.
* `Stencil.Builder.holdsPartial` — there is a partial among the nodes read so far.

## Main results

* `Stencil.Node.anyContainsPartial_of_readFrom` — nodes hold a partial exactly if their tokens do.
-/

namespace Stencil

namespace Token

/-- The name of the partial that the token stands for, if it is a partial. -/
def partial? : Token → Option String
  | .text _ _ => none
  | .tag t => if t.role = .includes then some t.name else none

/-- The names of the partials among the tokens. -/
def partials (tokens : List Token) : List String := tokens.filterMap partial?

lemma mem_partials {name : String} {tokens : List Token} :
    name ∈ partials tokens ↔ ∃ t, Token.tag t ∈ tokens ∧ t.role = .includes ∧ t.name = name := by
  unfold partials
  rw [List.mem_filterMap]
  constructor
  · rintro ⟨t, ht, hname⟩
    cases t with
    | text content span => cases hname
    | tag t =>
      simp only [partial?] at hname
      split at hname
      · next hr => exact ⟨t, ht, hr, Option.some.inj hname⟩
      · cases hname
  · rintro ⟨t, ht, hr, rfl⟩
    exact ⟨.tag t, ht, by simp [partial?, hr]⟩

end Token

/-! ### Partials among nodes -/

lemma Node.anyContainsPartial_eq_any (nodes : List Node) :
    Node.anyContainsPartial nodes = nodes.any Node.containsPartial := by
  induction nodes with
  | nil => rfl
  | cons n ns ih => rw [Node.anyContainsPartial, ih, List.any_cons]

/-- Where there is no partial, there is none in the body of a block. -/
lemma Node.anyContainsPartial_body {nodes : List Node} (h : Node.anyContainsPartial nodes = false)
    {kind : BlockKind} {name : String} {span : Span} {inner : TokenRange} {body : List Node}
    (hmem : .block kind name span inner body ∈ nodes) : Node.anyContainsPartial body = false := by
  rw [anyContainsPartial_eq_any, List.any_eq_false] at h
  exact Bool.eq_false_iff.2 (h _ hmem)

lemma Node.any_pushText (nodes : List Node) (content : String) (span : Span) :
    (Node.pushText nodes content span).any Node.containsPartial =
      nodes.any Node.containsPartial := by
  unfold Node.pushText
  split
  · rfl
  · rcases nodes with _ | ⟨n, ns⟩
    · rfl
    · cases n <;> simp [Node.containsPartial]

lemma Node.any_push (nodes : List Node) (n : Node) :
    (Node.push nodes n).any Node.containsPartial =
      (nodes.any Node.containsPartial || n.containsPartial) := by
  cases n with
  | text content span =>
    rw [Node.push, Node.any_pushText, Node.containsPartial, Bool.or_false]
  | value name raw span => rw [Bool.or_comm]; rfl
  | block kind name span inner body => rw [Bool.or_comm]; rfl
  | inclusion name span => rw [Bool.or_comm]; rfl

lemma Frame.any_pushUnclosed (nodes : List Node) (n : Node) :
    (Frame.pushUnclosed nodes n).any Node.containsPartial =
      (nodes.any Node.containsPartial || n.containsPartial) := by
  cases n with
  | value name raw span =>
    rw [Frame.pushUnclosed, Node.any_pushText, Node.containsPartial, Bool.or_false]
  | text content span => exact Node.any_push nodes (.text content span)
  | block kind name span inner body =>
    exact Node.any_push nodes (.block kind name span inner body)
  | inclusion name span => exact Node.any_push nodes (.inclusion name span)

lemma Frame.any_flattenOnto (f : Frame) (nodes : List Node) :
    (f.flattenOnto nodes).any Node.containsPartial =
      (nodes.any Node.containsPartial || f.nodes.any Node.containsPartial) := by
  have main : ∀ more before : List Node,
      (more.foldl Frame.pushUnclosed before).any Node.containsPartial =
        (before.any Node.containsPartial || more.any Node.containsPartial) := by
    intro more
    induction more with
    | nil => intro before; simp
    | cons m more ih =>
      intro before
      rw [List.foldl_cons, ih, Frame.any_pushUnclosed, List.any_cons, Bool.or_assoc]
  rw [Frame.flattenOnto, main, Node.any_pushText, List.any_reverse]

namespace Builder

/-- There is a partial among the nodes read so far. -/
def holdsPartial (b : Builder) : Bool :=
  b.root.any Node.containsPartial || b.frames.any fun f => f.nodes.any Node.containsPartial

lemma holdsPartial_modifyNodes {g : List Node → List Node} {p : Bool}
    (h : ∀ nodes : List Node, (g nodes).any Node.containsPartial =
      (nodes.any Node.containsPartial || p)) (b : Builder) :
    (b.modifyNodes g).holdsPartial = (b.holdsPartial || p) := by
  obtain ⟨root, _ | ⟨f, fs⟩⟩ := b
  · simp [modifyNodes, holdsPartial, h]
  · simp only [modifyNodes, holdsPartial, List.any_cons, h]
    grind

lemma holdsPartial_giveUp (n : Nat) (b : Builder) :
    (b.giveUp n).holdsPartial = b.holdsPartial := by
  induction n generalizing b with
  | zero => rfl
  | succ n ih =>
    obtain ⟨root, _ | ⟨f, fs⟩⟩ := b
    · rfl
    · rw [giveUp_succ_cons, ih,
        holdsPartial_modifyNodes fun nodes => Frame.any_flattenOnto f nodes]
      simp only [holdsPartial, List.any_cons]
      grind

lemma anyContainsPartial_finish (b : Builder) :
    Node.anyContainsPartial b.finish = b.holdsPartial := by
  rw [Node.anyContainsPartial_eq_any, finish, List.any_reverse,
    ← holdsPartial_giveUp b.frames.length b, holdsPartial, frames_giveUp rfl]
  simp

/-- A step adds a partial exactly if its token is one. -/
lemma Reads.holdsPartial {b c : Builder} {i : Nat} {t : Token} (h : b.Reads i t c) :
    c.holdsPartial = (b.holdsPartial || t.partial?.isSome) := by
  have hpush : ∀ (b : Builder) (n : Node),
      (b.push n).holdsPartial = (b.holdsPartial || n.containsPartial) :=
    fun b n => holdsPartial_modifyNodes (fun nodes => Node.any_push nodes n) b
  cases h with
  | @leaf _ n hn =>
    rw [hpush]
    cases t with
    | text content span => cases hn; rfl
    | tag u =>
      cases hu : u.role <;> simp only [Token.leaf?, hu, reduceCtorEq, Option.some.injEq] at hn
      · simp [← hn, Node.containsPartial, Token.partial?, hu]
      · simp [← hn, Node.containsPartial, Token.partial?, hu]
  | opens hu hlt => simp [Builder.holdsPartial, Token.partial?, hu]
  | stray hu hne => simp [hpush, Node.containsPartial, Token.partial?, hu]
  | @closes u gone rest f hu hframes hgone hf =>
    rw [hpush, Node.containsPartial, anyContainsPartial_finish]
    simp only [Builder.holdsPartial, hframes, List.any_append, List.any_cons, Token.partial?, hu]
    grind

lemma holdsPartial_run {b c : Builder} {i : Nat} {ts : List Token} (h : b.run i ts = .ok c) :
    c.holdsPartial = (b.holdsPartial || ts.any fun t => t.partial?.isSome) := by
  induction ts generalizing b i with
  | nil =>
    cases h
    simp
  | cons t ts ih =>
    rw [run_cons] at h
    cases hd : b.step i t with
    | error e =>
      rw [hd] at h
      cases h
    | ok d =>
      rw [hd] at h
      rw [ih h, (step_eq_ok_iff.1 hd).holdsPartial, List.any_cons, Bool.or_assoc]

end Builder

/-- **Nodes hold a partial exactly if their tokens do.** -/
theorem Node.anyContainsPartial_of_readFrom {start : Nat} {tokens : List Token}
    {nodes : List Node} (h : Node.readFrom start tokens = .ok nodes) :
    Node.anyContainsPartial nodes = true ↔ Token.partials tokens ≠ [] := by
  obtain ⟨b, hb, rfl⟩ := Node.readFrom_eq_ok.1 h
  rw [Builder.anyContainsPartial_finish, Builder.holdsPartial_run hb]
  simp [Builder.holdsPartial, Builder.empty, Token.partials, List.filterMap_eq_nil_iff,
    Option.isSome_iff_ne_none]

end Stencil
