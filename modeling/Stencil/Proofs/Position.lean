import Stencil.Proofs.Lockstep

set_option relaxedAutoImplicit false
set_option autoImplicit false

/-!
# Tokens at another position

Blocks know the positions of the tokens between their tags. If the same tokens are read from
another position on, then all these ranges move along, at every depth, and nothing else changes.

## Main definitions

* `Stencil.TokenRange.shift`, `Stencil.Node.shift`, `Stencil.Node.shiftAll` — ranges moved up.
* `Stencil.TokenRange.Within` — the positions of a range are those of tokens.

## Main results

* `Stencil.Node.readFrom_add` — tokens read from a position further on.
* `Stencil.Node.ReadIn.block` — the range of a block lies among the tokens it was read from, and its
  body is read from them.
-/

namespace Stencil

/-! ### Moving ranges -/

/-- The range `k` positions further on. -/
def TokenRange.shift (k : Nat) (r : TokenRange) : TokenRange := ⟨r.start + k, r.stop + k⟩

mutual

/-- The node with all its ranges `k` positions further on. -/
def Node.shift (k : Nat) : Node → Node
  | .text content span => .text content span
  | .value name raw span => .value name raw span
  | .block kind name span inner body =>
    .block kind name span (inner.shift k) (Node.shiftAll k body)
  | .inclusion name span => .inclusion name span

/-- The nodes with all their ranges `k` positions further on. -/
def Node.shiftAll (k : Nat) : List Node → List Node
  | [] => []
  | n :: ns => n.shift k :: Node.shiftAll k ns

end

lemma Node.shiftAll_eq_map (k : Nat) (nodes : List Node) :
    Node.shiftAll k nodes = nodes.map (Node.shift k) := by
  induction nodes with
  | nil => rfl
  | cons n ns ih => rw [Node.shiftAll, ih, List.map_cons]

/-! ### Reading further on -/

/-- The second reading stands `k` positions further on. -/
def Comparison.further (k : Nat) : Comparison where
  Spans := Eq
  Blocks inner body inner' body' := inner' = inner.shift k ∧ body' = Node.shiftAll k body
  Positions i i' := i' = i + k
  cover := by rintro a _ b _ rfl rfl; rfl

lemma Comparison.further_nodes {k : Nat} {n n' : Node} (h : (further k).Nodes n n') :
    n' = n.shift k := by
  cases h with
  | text hs => cases hs; rfl
  | value hs => cases hs; rfl
  | block hs hb =>
    cases hs
    rw [hb.1, hb.2]
    rfl
  | inclusion hs => cases hs; rfl

lemma Comparison.further_forall₂ {k : Nat} {nodes nodes' : List Node}
    (h : List.Forall₂ (further k).Nodes nodes nodes') : nodes' = Node.shiftAll k nodes := by
  induction h with
  | nil => rfl
  | cons hn _ ih => rw [Node.shiftAll, further_nodes hn, ih]

lemma Comparison.further_tokens (k : Nat) (ts : List Token) :
    List.Forall₂ (further k).Tokens ts ts := by
  refine List.forall₂_same.2 fun t _ => ?_
  cases t with
  | text content span => exact .text rfl
  | tag u => exact .tag ⟨rfl, rfl, rfl, rfl⟩

/-- **Tokens further on.** Tokens that are read `k` positions further on have the same nodes, with
all ranges `k` positions further on. -/
theorem Node.readFrom_add (start k : Nat) (ts : List Token) :
    Node.readFrom (start + k) ts = (Node.readFrom start ts).map (Node.shiftAll k) := by
  have hblock : ∀ {n j j' : Nat} {body body' : List Node}, j' = j + k →
      List.Forall₂ (Comparison.further k).Nodes body body' →
      (⟨j' + 1, start + k + n⟩ : TokenRange) = (⟨j + 1, start + n⟩ : TokenRange).shift k ∧
        body' = Node.shiftAll k body := by
    rintro n j _ body body' rfl hbody
    refine ⟨?_, Comparison.further_forall₂ hbody⟩
    simp only [TokenRange.shift, TokenRange.mk.injEq]
    omega
  unfold Node.readFrom
  rcases Comparison.Builders.empty.run (Comparison.further_tokens k ts)
      (i := start) (fun n => show start + k + n = start + n + k by omega) hblock with
    ⟨c, c', h, h', hc⟩ | ⟨e, h, h'⟩
  · rw [h, h']
    exact congrArg Except.ok (Comparison.further_forall₂ hc.finish)
  · rw [h, h']
    rfl

/-! ### Ranges among tokens -/

/-- The positions of the range are positions of the tokens, the last one excluded. -/
structure TokenRange.Within (r : TokenRange) (tokens : List Token) : Prop where
  start_le_stop : r.start ≤ r.stop
  stop_le_length : r.stop ≤ tokens.length

/-- The range of the tokens that stand between others. -/
lemma TokenRange.between {before mid after tokens : List Token}
    (h : tokens = before ++ (mid ++ after)) {r : TokenRange} (hstart : r.start = before.length)
    (hstop : r.stop = before.length + mid.length) : r.Within tokens ∧ r.slice tokens = mid := by
  subst h
  refine ⟨⟨by omega, ?_⟩, ?_⟩
  · simp only [List.length_append]
    omega
  · rw [TokenRange.slice, hstart, hstop, List.drop_left, Nat.add_sub_cancel_left, List.take_left]

/-- All tokens, as a range. -/
lemma TokenRange.slice_all (tokens : List Token) :
    (⟨0, tokens.length⟩ : TokenRange).slice tokens = tokens := by
  simp [TokenRange.slice]

/-- The tokens around a range. -/
lemma TokenRange.append_slice {r : TokenRange} {tokens : List Token} (h : r.Within tokens) :
    tokens.take r.start ++ (r.slice tokens ++ tokens.drop r.stop) = tokens := by
  have hdrop : tokens.drop r.stop = (tokens.drop r.start).drop (r.stop - r.start) := by
    have := h.start_le_stop
    rw [List.drop_drop, show r.start + (r.stop - r.start) = r.stop by omega]
  rw [TokenRange.slice, hdrop, List.take_append_drop, List.take_append_drop]

/-- A range among the tokens of another range, as a range among all tokens. -/
lemma TokenRange.slice_shift {r inner : TokenRange} {tokens : List Token}
    (h : inner.Within (r.slice tokens)) :
    (inner.shift r.start).slice tokens = inner.slice (r.slice tokens) := by
  have hstop : inner.stop ≤ r.stop - r.start := by
    refine Nat.le_trans h.stop_le_length ?_
    simp only [TokenRange.slice, List.length_take]
    omega
  have hlen : inner.stop + r.start - (inner.start + r.start) = inner.stop - inner.start := by
    omega
  have hmin : min (inner.stop - inner.start) (r.stop - r.start - inner.start) =
      inner.stop - inner.start := by
    omega
  simp only [TokenRange.slice, TokenRange.shift, hlen]
  rw [List.drop_take, List.drop_drop, List.take_take, hmin, Nat.add_comm]

/-- The nodes are those of the tokens in the range, with the positions that these tokens have. -/
structure Node.ReadIn (range : TokenRange) (tokens : List Token) (nodes : List Node) : Prop where
  within : range.Within tokens
  read : Node.readFrom range.start (range.slice tokens) = .ok nodes

/-- All tokens read from the first one on. -/
lemma Node.readIn_all {tokens : List Token} {nodes : List Node}
    (h : Node.ofTokens tokens = .ok nodes) : Node.ReadIn ⟨0, tokens.length⟩ tokens nodes where
  within := ⟨Nat.zero_le _, Nat.le_refl _⟩
  read := by rwa [TokenRange.slice_all, ← Node.ofTokens_eq]

/-- Nodes that were read in a range are the nodes of its tokens, up to the positions. -/
lemma Node.ReadIn.map_shiftAll {range : TokenRange} {tokens : List Token} {nodes : List Node}
    (h : Node.ReadIn range tokens nodes) :
    (Node.ofTokens (range.slice tokens)).map (Node.shiftAll range.start) = .ok nodes := by
  rw [Node.ofTokens_eq, ← Node.readFrom_add, Nat.zero_add, h.read]

/-- **A block among the tokens in a range.** The tokens between its tags are those in its range,
and its body is read in that range. -/
theorem Node.ReadIn.block {range : TokenRange} {tokens : List Token} {nodes : List Node}
    (h : Node.ReadIn range tokens nodes) {kind : BlockKind} {name : String} {span : Span}
    {inner : TokenRange} {body : List Node} (hmem : .block kind name span inner body ∈ nodes) :
    Node.ReadIn inner tokens body ∧ ∃ before opener closer after,
      range.slice tokens =
        before ++ .tag opener :: (inner.slice tokens ++ .tag closer :: after) ∧
      opener.role = .opens kind ∧ opener.name = name ∧
      closer.role = .closes ∧ closer.name = name ∧
      inner.start = range.start + before.length + 1 := by
  obtain ⟨before, opener, mid, closer, after, hslice, hok, hon, hck, hcn, -, hinner, hread⟩ :=
    Node.standsIn_of_readFrom h.read _ hmem
  have hstart : (tokens.take range.start).length = range.start := by
    have h₁ := h.within.start_le_stop
    have h₂ := h.within.stop_le_length
    simp only [List.length_take]
    omega
  have htokens : tokens = (tokens.take range.start ++ (before ++ [Token.tag opener])) ++
      (mid ++ (Token.tag closer :: after ++ tokens.drop range.stop)) := by
    have := TokenRange.append_slice h.within
    rw [hslice] at this
    simpa using this.symm
  obtain ⟨hwithin, hmid⟩ := TokenRange.between htokens (r := inner)
    (by simp only [hinner, List.length_append, hstart, List.length_singleton]; omega)
    (by simp only [hinner, List.length_append, hstart, List.length_singleton]; omega)
  refine ⟨⟨hwithin, hmid ▸ hread⟩, before, opener, closer, after, ?_, hok, hon, hck, hcn, ?_⟩
  · rw [hmid, hslice]
  · rw [hinner]

end Stencil
