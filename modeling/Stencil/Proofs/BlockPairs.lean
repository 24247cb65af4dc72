import Mathlib.Data.List.Chain
import Mathlib.Data.List.Find
import Stencil.Proofs.Division

set_option relaxedAutoImplicit false
set_option autoImplicit false

/-!
# Which tags belong together

Which blocks there are among given tokens can be said without open blocks and their nodes. The
closing tags are gone through from left to right, and each one is paired with the latest opening tag
of its name that is pending there: one before it that is neither part of an earlier pair nor between
the two tags of one. From the pairs of all tags it can be told what becomes of each token.

## Main definitions

* `Stencil.Node.joined` — nodes in their order, with plain text joined to plain text.
* `Stencil.Node.items` — the characters and the other nodes that nodes consist of.
* `Stencil.Pairing.pending`, `Stencil.Pairing.partner?` — the opening tags that are pending at a
  position, and the one that a closing tag is paired with.
* `Stencil.Pairing.pairs` — the pairs among tokens.
* `Stencil.Pairing.single?` — the node of a token outside of all pairs.
* `Stencil.Pairing.Layout` — what the tokens of a stretch come to.

## Main results

* `Stencil.Node.flatMap_items_joined`, `Stencil.Node.joined_apart` — what joining nodes keeps, and
  what it leaves.
* `Stencil.Pairing.pendingAt_succ_of_partner?_eq_none`,
  `Stencil.Pairing.pendingAt_succ_of_partner?_eq_some` — how the pending tags change.
* `Stencil.Pairing.Layout.unique` — the pairs determine what tokens come to.
* `Stencil.Pairing.Accounted.step` — what a reading holds open is what is pending.
* `Stencil.Node.ofTokens_pairs_blocks` — which nodes tokens have.
-/

namespace Stencil

/-! ### Parts of a stretch -/

namespace Node

/-- A value is kept as written. -/
def literal : Node → Node
  | value _ raw span => text raw span
  | n => n

/-- The nodes in their order, where plain text is joined to plain text in front of it, and empty
text is left out. -/
def joined (parts : List Node) : List Node := (parts.foldl push []).reverse

/-- The node is not empty plain text. -/
def NotBlank : Node → Prop
  | text content _ => content ≠ ""
  | _ => True

/-- What the node consists of: plain text of its characters, any other node of itself. -/
def items : Node → List (Char ⊕ Node)
  | text content _ => content.toList.map .inl
  | n => [.inr n]

lemma literal_literal (n : Node) : n.literal.literal = n.literal := by
  cases n <;> rfl

lemma pushUnclosed_eq : Frame.pushUnclosed = fun nodes n => push nodes n.literal := by
  funext nodes n
  cases n <;> rfl

lemma notBlank_push {nodes : List Node} (h : ∀ m ∈ nodes, m.NotBlank) (n : Node) :
    ∀ m ∈ push nodes n, m.NotBlank := by
  cases n with
  | text content span =>
    change ∀ m ∈ pushText nodes content span, m.NotBlank
    unfold pushText
    split
    · exact h
    · next hne =>
      split
      · exact List.forall_mem_cons.2 ⟨by simp [NotBlank, hne], (List.forall_mem_cons.1 h).2⟩
      · exact List.forall_mem_cons.2 ⟨hne, h⟩
  | value name raw span => exact List.forall_mem_cons.2 ⟨trivial, h⟩
  | block kind name span inner body => exact List.forall_mem_cons.2 ⟨trivial, h⟩
  | inclusion name span => exact List.forall_mem_cons.2 ⟨trivial, h⟩

lemma notBlank_foldl_push (parts : List Node) : ∀ m ∈ parts.foldl push [], m.NotBlank := by
  induction parts using List.reverseRecOn with
  | nil => simp
  | append_singleton parts n ih =>
    rw [List.foldl_append]
    exact notBlank_push ih n

/-! #### What joining keeps -/

lemma flatMap_items_push (nodes : List Node) (n : Node) :
    (push nodes n).reverse.flatMap items = nodes.reverse.flatMap items ++ n.items := by
  cases n with
  | text content span =>
    change (pushText nodes content span).reverse.flatMap items = _
    by_cases hcontent : content = ""
    · simp [pushText, hcontent, items]
    · cases nodes with
      | nil => simp [pushText, hcontent]
      | cons m nodes => cases m <;> simp [pushText, hcontent, items]
  | value name raw span => simp [push]
  | block kind name span inner body => simp [push]
  | inclusion name span => simp [push]

/-- **Joining keeps everything in its order**: each node that is no plain text, as it is, and each
character of plain text. -/
theorem flatMap_items_joined (parts : List Node) :
    (joined parts).flatMap items = parts.flatMap items := by
  unfold joined
  induction parts using List.reverseRecOn with
  | nil => rfl
  | append_singleton parts n ih =>
    rw [List.foldl_append, List.foldl_cons, List.foldl_nil, flatMap_items_push, ih]
    simp

lemma isChain_push {nodes : List Node} (h : nodes.IsChain fun n m => ¬ (m.IsText ∧ n.IsText))
    (n : Node) : (push nodes n).IsChain fun n m => ¬ (m.IsText ∧ n.IsText) := by
  cases n with
  | text content span =>
    change (pushText nodes content span).IsChain _
    unfold pushText
    split
    · exact h
    · split
      · next before place rest =>
        obtain ⟨hnext, hrest⟩ := List.isChain_cons.1 h
        refine List.isChain_cons.2 ⟨fun m hm => ?_, hrest⟩
        rintro ⟨htext, -⟩
        exact hnext m hm ⟨htext, trivial⟩
      · next hother =>
        refine List.isChain_cons.2 ⟨fun m hm => ?_, h⟩
        rintro ⟨htext, -⟩
        exact not_isText_of_head hother m hm htext
  | value name raw span => exact List.isChain_cons.2 ⟨fun _ _ hboth => hboth.2, h⟩
  | block kind name span inner body => exact List.isChain_cons.2 ⟨fun _ _ hboth => hboth.2, h⟩
  | inclusion name span => exact List.isChain_cons.2 ⟨fun _ _ hboth => hboth.2, h⟩

/-- **Joining leaves no plain text beside plain text**, and none that is empty. -/
theorem joined_apart (parts : List Node) :
    (joined parts).IsChain (fun n m => ¬ (n.IsText ∧ m.IsText)) ∧
      ∀ n ∈ joined parts, n.NotBlank := by
  have hchain : ∀ parts : List Node,
      (parts.foldl push []).IsChain fun n m => ¬ (m.IsText ∧ n.IsText) := by
    intro parts
    induction parts using List.reverseRecOn with
    | nil => exact .nil
    | append_singleton parts n ih =>
      rw [List.foldl_append]
      exact isChain_push ih n
  refine ⟨List.isChain_reverse.2 (hchain parts), fun n hn => ?_⟩
  exact notBlank_foldl_push parts n (List.mem_reverse.1 hn)

/-! #### Joining in two steps -/

/-- Plain text may be joined to the nodes in front of it before all of them go behind others. -/
lemma foldl_pushUnclosed_pushText (nodes : List Node) {done : List Node}
    (h : ∀ m ∈ done, m.NotBlank) (content : String) (span : Span) :
    (pushText done content span).reverse.foldl Frame.pushUnclosed nodes =
      pushText (done.reverse.foldl Frame.pushUnclosed nodes) content span := by
  by_cases hcontent : content = ""
  · simp [pushText, hcontent]
  · cases done with
    | nil => simp [pushText, hcontent, Frame.pushUnclosed, push]
    | cons m done =>
      cases m with
      | text before place =>
        have hbefore : before ≠ "" := h _ List.mem_cons_self
        have hpush : pushText (.text before place :: done) content span =
            .text (before ++ content) (place.cover span) :: done := by
          simp [pushText, hcontent]
        rw [hpush, List.reverse_cons, List.reverse_cons, List.foldl_append, List.foldl_append]
        exact (pushText_pushText_of_ne _ hbefore hcontent place span).symm
      | value name raw place => simp [pushText, hcontent, Frame.pushUnclosed, push]
      | block kind name place inner body =>
        simp [pushText, hcontent, Frame.pushUnclosed, push]
      | inclusion name place => simp [pushText, hcontent, Frame.pushUnclosed, push]

/-- Nodes that go behind others may be joined first. -/
lemma foldl_pushUnclosed_joined (nodes parts : List Node) :
    (joined parts).foldl Frame.pushUnclosed nodes = parts.foldl Frame.pushUnclosed nodes := by
  unfold joined
  induction parts using List.reverseRecOn with
  | nil => rfl
  | append_singleton parts n ih =>
    rw [List.foldl_append, List.foldl_append, ← ih]
    cases n with
    | text content span =>
      exact foldl_pushUnclosed_pushText nodes (notBlank_foldl_push parts) content span
    | value name raw span => simp [push]
    | block kind name span inner body => simp [push]
    | inclusion name span => simp [push]

end Node

/-- A block that never closes is its opening tag and its nodes, all as written. -/
lemma Frame.flattenOnto_foldl_push {f : Frame} {more : List Node}
    (hf : f.nodes = more.foldl Node.push []) (parts : List Node) :
    f.flattenOnto (parts.foldl Node.push []) =
      (parts ++ .text f.opener.raw f.opener.span :: more.map Node.literal).foldl Node.push [] := by
  have hjoined : f.nodes.reverse = Node.joined more := congrArg List.reverse hf
  rw [Frame.flattenOnto, hjoined, Node.foldl_pushUnclosed_joined, List.foldl_append,
    List.foldl_cons, List.foldl_map, Node.pushUnclosed_eq]
  rfl

namespace Pairing

variable (ts : List Token)

/-! ### Pairs -/

/-- The opening tag at a position. -/
def opener? (i : Nat) : Option Tag :=
  match ts[i]? with
  | some (.tag u) =>
    match u.role with
    | .opens _ => some u
    | .value | .closes | .includes => none
  | _ => none

/-- The closing tag at a position. -/
def closer? (i : Nat) : Option Tag :=
  match ts[i]? with
  | some (.tag u) => if u.role = .closes then some u else none
  | _ => none

/-- The opening tags that are pending at the position `n`, the latest first: those before it that
are neither part of one of the pairs nor between its two tags. -/
def pending (pairs : List (Nat × Nat)) (n : Nat) : List Nat :=
  (List.range n).reverse.filter fun i =>
    (opener? ts i).isSome && !pairs.any fun p => p.1 ≤ i && i ≤ p.2

/-- The opening tag that a closing tag at the position `n` is paired with: the latest one that is
pending and has the same name. -/
def partner? (pairs : List (Nat × Nat)) (n : Nat) : Option Nat :=
  (closer? ts n).bind fun u =>
    (pending ts pairs n).find? fun i => (opener? ts i).any fun v => v.name == u.name

/-- The pairs whose closing tags are before the position. -/
def pairsBefore : Nat → List (Nat × Nat)
  | 0 => []
  | n + 1 =>
    match partner? ts (pairsBefore n) n with
    | some i => pairsBefore n ++ [(i, n)]
    | none => pairsBefore n

/-- The pairs of an opening and a closing tag, given by their positions. -/
def pairs : List (Nat × Nat) := pairsBefore ts ts.length

/-- The opening tags that are pending at a position, the latest first. -/
def pendingAt (n : Nat) : List Nat := pending ts (pairsBefore ts n) n

/-- There is no opening tag, or it is paired. -/
def Settled (opener : Option Nat) : Prop := ∀ i ∈ opener, i ∈ (pairs ts).map Prod.fst

instance (opener : Option Nat) : Decidable (Settled ts opener) :=
  inferInstanceAs (Decidable (∀ i ∈ opener, i ∈ (pairs ts).map Prod.fst))

/-! ### What becomes of tokens -/

/-- The node of the token at a position, if it is not part of a pair. An opening or closing tag is
plain text, and so is a value if the latest opening tag that is pending there is never paired. -/
def single? (i : Nat) : Token → Option Node
  | .text content span => some (.text content span)
  | .tag u =>
    match u.role with
    | .value =>
      some (if Settled ts (pendingAt ts i).head? then .value u.name u.raw u.span
        else .text u.raw u.span)
    | .includes => some (.inclusion u.name u.span)
    | .opens _ => if i ∈ (pairs ts).map Prod.fst then none else some (.text u.raw u.span)
    | .closes => if i ∈ (pairs ts).map Prod.snd then none else some (.text u.raw u.span)

/-- What the tokens from one position up to another one come to, in their order: each pair is a
block, whose body are the nodes of the tokens between its two tags, and each other token is a node
of its own. -/
inductive Layout : Nat → Nat → List Node → Prop where
  | nil (i : Nat) : Layout i i []
  | single {i j : Nat} {t : Token} {n : Node} {parts : List Node} (ht : ts[i]? = some t)
    (hn : single? ts i t = some n) (hrest : Layout (i + 1) j parts) : Layout i j (n :: parts)
  | block {i j k : Nat} {opener closer : Tag} {kind : BlockKind} {inner parts : List Node}
    (hpair : (i, k) ∈ pairs ts) (hopener : ts[i]? = some (.tag opener))
    (hkind : opener.role = .opens kind) (hcloser : ts[k]? = some (.tag closer))
    (hinner : Layout (i + 1) k inner) (hrest : Layout (k + 1) j parts) :
    Layout i j (.block kind opener.name (opener.span.cover closer.span) ⟨i + 1, k⟩
      (Node.joined inner) :: parts)

/-- Too many opening tags are pending where there is another one. -/
def Overfull : Prop :=
  ∃ i, (opener? ts i).isSome = true ∧ (pendingAt ts i).length = maxBlockDepth

variable {ts}

lemma opener?_eq_some_iff {i : Nat} {u : Tag} :
    opener? ts i = some u ↔ ts[i]? = some (.tag u) ∧ ∃ kind, u.role = .opens kind := by
  unfold opener?
  constructor
  · intro h
    split at h
    · next v hv =>
      split at h
      · next kind hrole =>
        cases h
        exact ⟨hv, kind, hrole⟩
      all_goals cases h
    · cases h
  · rintro ⟨h, kind, hrole⟩
    simp only [h, hrole]

lemma closer?_eq_some_iff {i : Nat} {u : Tag} :
    closer? ts i = some u ↔ ts[i]? = some (.tag u) ∧ u.role = .closes := by
  unfold closer?
  constructor
  · intro h
    split at h
    · next v hv =>
      split at h
      · next hrole =>
        cases h
        exact ⟨hv, hrole⟩
      · cases h
    · cases h
  · rintro ⟨h, hrole⟩
    simp only [h, if_pos hrole]

/-! ### Which pairs there are -/

lemma mem_pairsBefore_iff {i j n : Nat} :
    (i, j) ∈ pairsBefore ts n ↔ j < n ∧ partner? ts (pairsBefore ts j) j = some i := by
  induction n with
  | zero => simp [pairsBefore]
  | succ n ih =>
    rw [pairsBefore]
    cases h : partner? ts (pairsBefore ts n) n with
    | none =>
      simp only [ih]
      constructor
      · rintro ⟨hj, hi⟩
        exact ⟨Nat.lt_succ_of_lt hj, hi⟩
      · rintro ⟨hj, hi⟩
        refine ⟨Nat.lt_of_le_of_ne (Nat.le_of_lt_succ hj) ?_, hi⟩
        rintro rfl
        rw [h] at hi
        cases hi
    | some k =>
      simp only [List.mem_append, List.mem_singleton, Prod.mk.injEq, ih]
      constructor
      · rintro (⟨hj, hi⟩ | ⟨rfl, rfl⟩)
        · exact ⟨Nat.lt_succ_of_lt hj, hi⟩
        · exact ⟨Nat.lt_succ_self j, h⟩
      · rintro ⟨hj, hi⟩
        rcases Nat.lt_succ_iff_lt_or_eq.1 hj with hj | rfl
        · exact .inl ⟨hj, hi⟩
        · rw [h] at hi
          cases hi
          exact .inr ⟨rfl, rfl⟩

lemma mem_pendingAt_iff {i n : Nat} : i ∈ pendingAt ts n ↔
    i < n ∧ (opener? ts i).isSome = true ∧ ∀ p ∈ pairsBefore ts n, ¬ (p.1 ≤ i ∧ i ≤ p.2) := by
  simp only [pendingAt, pending, List.mem_filter, List.mem_reverse, List.mem_range,
    Bool.and_eq_true, Bool.not_eq_true', List.any_eq_false, decide_eq_true_eq]

/-- An opening tag that a closing tag is paired with was pending there. -/
lemma mem_pendingAt_of_partner? {i n : Nat} (h : partner? ts (pairsBefore ts n) n = some i) :
    (∃ u, closer? ts n = some u) ∧ i ∈ pendingAt ts n := by
  obtain ⟨u, hu, hfind⟩ := Option.bind_eq_some_iff.1 h
  exact ⟨⟨u, hu⟩, List.mem_of_find?_eq_some hfind⟩

lemma length_of_closer? {n : Nat} {u : Tag} (h : closer? ts n = some u) : n < ts.length := by
  obtain ⟨hn, -⟩ := closer?_eq_some_iff.1 h
  exact (List.getElem?_eq_some_iff.1 hn).1

/-- A closing tag is paired exactly if it finds an opening tag. -/
lemma mem_pairs_iff {i j : Nat} :
    (i, j) ∈ pairs ts ↔ partner? ts (pairsBefore ts j) j = some i := by
  refine mem_pairsBefore_iff.trans ⟨fun h => h.2, fun h => ⟨?_, h⟩⟩
  obtain ⟨⟨u, hu⟩, -⟩ := mem_pendingAt_of_partner? h
  exact length_of_closer? hu

/-- An opening tag is part of one pair at most. -/
lemma snd_unique {i j j' : Nat} (h : (i, j) ∈ pairs ts) (h' : (i, j') ∈ pairs ts) : j = j' := by
  have main : ∀ {j j' : Nat}, (i, j) ∈ pairs ts → (i, j') ∈ pairs ts → ¬ j < j' := by
    intro j j' h h' hlt
    rw [mem_pairs_iff] at h h'
    have hi := (mem_pendingAt_iff.1 (mem_pendingAt_of_partner? h').2).2.2
    have hlt' := (mem_pendingAt_iff.1 (mem_pendingAt_of_partner? h).2).1
    exact hi (i, j) (mem_pairsBefore_iff.2 ⟨hlt, h⟩) ⟨Nat.le_refl i, Nat.le_of_lt hlt'⟩
  exact Nat.le_antisymm (Nat.le_of_not_lt (main h' h)) (Nat.le_of_not_lt (main h h'))

/-! ### How the pending tags change -/

/-- The pending tags are listed from the latest to the earliest. -/
lemma pairwise_pendingAt (n : Nat) : (pendingAt ts n).Pairwise (· > ·) :=
  (List.pairwise_reverse.2 List.pairwise_lt_range).filter _

lemma pendingAt_succ_of_partner?_eq_none {n : Nat}
    (h : partner? ts (pairsBefore ts n) n = none) :
    pendingAt ts (n + 1) =
      if (opener? ts n).isSome then n :: pendingAt ts n else pendingAt ts n := by
  have hpairs : pairsBefore ts (n + 1) = pairsBefore ts n := by rw [pairsBefore, h]
  have hbefore : ((pairsBefore ts n).any fun p => p.1 ≤ n && n ≤ p.2) = false := by
    rw [List.any_eq_false]
    rintro ⟨i, j⟩ hp
    have := (mem_pairsBefore_iff.1 hp).1
    simp only [Bool.and_eq_true, decide_eq_true_eq]
    omega
  unfold pendingAt pending
  rw [hpairs, List.range_succ, List.reverse_append, List.reverse_singleton, List.singleton_append,
    List.filter_cons, hbefore]
  simp

/-- A pair takes away the opening tag and those behind it. -/
lemma pendingAt_succ_of_partner?_eq_some {i n : Nat}
    (h : partner? ts (pairsBefore ts n) n = some i) :
    pendingAt ts (n + 1) = (pendingAt ts n).filter (· < i) := by
  have hpairs : pairsBefore ts (n + 1) = pairsBefore ts n ++ [(i, n)] := by rw [pairsBefore, h]
  have hi := (mem_pendingAt_iff.1 (mem_pendingAt_of_partner? h).2).1
  unfold pendingAt pending
  rw [hpairs, List.range_succ, List.reverse_append, List.reverse_singleton, List.singleton_append,
    List.filter_cons_of_neg (by simp [Nat.le_of_lt hi]), List.filter_filter]
  refine List.filter_congr fun k hk => ?_
  have hk' : k < n := by simpa using hk
  simp only [List.any_append, List.any_cons, List.any_nil, Bool.or_false, Bool.not_or,
    decide_eq_true (Nat.le_of_lt hk'), Bool.and_true, ← Bool.and_assoc]
  have hlt : decide (k < i) = !decide (i ≤ k) := by
    rw [← decide_not]
    exact decide_eq_decide.2 Nat.not_le.symm
  rw [hlt, Bool.and_comm, Bool.and_assoc]

/-- What is pending at the end is never paired. -/
lemma not_paired_of_pending {i : Nat} (h : i ∈ pendingAt ts ts.length) :
    i ∉ (pairs ts).map Prod.fst := by
  intro hmem
  obtain ⟨⟨_, j⟩, hj, rfl⟩ := List.mem_map.1 hmem
  have hlt := (mem_pendingAt_iff.1 (mem_pendingAt_of_partner? (mem_pairs_iff.1 hj)).2).1
  exact (mem_pendingAt_iff.1 h).2.2 _ hj ⟨Nat.le_refl _, Nat.le_of_lt hlt⟩

/-- An opening tag that is pending where a pair is formed around it is never paired. -/
lemma not_paired_of_partner? {i k n : Nat} (h : partner? ts (pairsBefore ts n) n = some i)
    (hk : k ∈ pendingAt ts n) (hik : i < k) : k ∉ (pairs ts).map Prod.fst := by
  intro hmem
  obtain ⟨⟨_, j⟩, hj, rfl⟩ := List.mem_map.1 hmem
  obtain ⟨hkn, -, hpending⟩ := mem_pendingAt_iff.1 hk
  have hj' := mem_pairs_iff.1 hj
  obtain ⟨hkj, -, hpending'⟩ := mem_pendingAt_iff.1 (mem_pendingAt_of_partner? hj').2
  rcases Nat.lt_trichotomy j n with hlt | rfl | hgt
  · exact hpending _ (mem_pairsBefore_iff.2 ⟨hlt, hj'⟩) ⟨Nat.le_refl _, Nat.le_of_lt hkj⟩
  · rw [h] at hj'
    cases hj'
    exact Nat.lt_irrefl _ hik
  · exact hpending' _ (mem_pairsBefore_iff.2 ⟨hgt, h⟩) ⟨Nat.le_of_lt hik, Nat.le_of_lt hkn⟩

/-! ### What tokens come to is determined -/

lemma single?_eq_none_of_mem_pairs {i k : Nat} {u : Tag} {kind : BlockKind}
    (h : (i, k) ∈ pairs ts) (hu : u.role = .opens kind) : single? ts i (.tag u) = none := by
  have hmem : i ∈ (pairs ts).map Prod.fst := List.mem_map.2 ⟨_, h, rfl⟩
  simp only [single?, hu, if_pos hmem]

namespace Layout

lemma le {i j : Nat} {parts : List Node} (h : Layout ts i j parts) : i ≤ j := by
  induction h with
  | nil => exact Nat.le_refl _
  | single _ _ _ ih => exact Nat.le_of_succ_le ih
  | block _ _ _ _ _ _ ihinner ih => omega

/-- Stretches that meet are one stretch. -/
lemma append {i j k : Nat} {parts more : List Node} (h : Layout ts i j parts)
    (h' : Layout ts j k more) : Layout ts i k (parts ++ more) := by
  induction h with
  | nil => exact h'
  | single ht hn _ ih => exact .single ht hn (ih h')
  | block hpair hopener hkind hcloser hinner _ _ ih =>
    exact .block hpair hopener hkind hcloser hinner (ih h')

/-- **The pairs determine what tokens come to.** -/
theorem unique {i j : Nat} {parts parts' : List Node} (h : Layout ts i j parts)
    (h' : Layout ts i j parts') : parts = parts' := by
  induction h generalizing parts' with
  | nil i =>
    cases h' with
    | nil => rfl
    | single _ _ hrest => exact absurd hrest.le (Nat.not_le.2 (Nat.lt_succ_self _))
    | block _ _ _ _ hinner hrest =>
      have := hinner.le
      have := hrest.le
      omega
  | single ht hn hrest ih =>
    cases h' with
    | nil => exact absurd hrest.le (Nat.not_le.2 (Nat.lt_succ_self _))
    | single ht' hn' hrest' =>
      cases ht.symm.trans ht'
      cases hn.symm.trans hn'
      rw [ih hrest']
    | block hpair hopener hkind _ _ _ =>
      cases ht.symm.trans hopener
      rw [single?_eq_none_of_mem_pairs hpair hkind] at hn
      cases hn
  | block hpair hopener hkind hcloser hinner hrest ihinner ih =>
    cases h' with
    | nil =>
      have := hinner.le
      have := hrest.le
      omega
    | single ht hn _ =>
      cases ht.symm.trans hopener
      rw [single?_eq_none_of_mem_pairs hpair hkind] at hn
      cases hn
    | block hpair' hopener' hkind' hcloser' hinner' hrest' =>
      cases snd_unique hpair hpair'
      cases hopener.symm.trans hopener'
      cases hkind.symm.trans hkind'
      cases hcloser.symm.trans hcloser'
      rw [ihinner hinner', ih hrest']

end Layout

/-! ### What a reading holds -/

/-- The opening tag behind which a stretch starts. -/
def owner : Nat → Option Nat
  | 0 => none
  | i + 1 => some i

variable (ts) in
/-- What becomes of the nodes of a stretch that starts at a position: if its opening tag is never
paired, then values are kept as written. -/
def settle (start : Nat) (parts : List Node) : List Node :=
  if Settled ts (owner start) then parts else parts.map Node.literal

lemma settle_append (start : Nat) (parts more : List Node) :
    settle ts start (parts ++ more) = settle ts start parts ++ settle ts start more := by
  unfold settle
  split
  · rfl
  · exact List.map_append

/-- Nodes without values stay as they are. -/
lemma settle_eq_self {start : Nat} {parts : List Node} (h : ∀ n ∈ parts, n.literal = n) :
    settle ts start parts = parts := by
  unfold settle
  split
  · rfl
  · exact (List.map_congr_left h).trans (List.map_id parts)

variable (ts) in
/-- The nodes, the newest first, are those of a stretch, before it is settled what becomes of their
values. -/
def Reach (start : Nat) (nodes : List Node) (stop : Nat) : Prop :=
  ∃ parts, nodes = parts.foldl Node.push [] ∧ Layout ts start stop (settle ts start parts)

namespace Reach

variable {start stop : Nat} {nodes : List Node}

/-- The nodes of a token behind those before it. -/
lemma single {t : Token} {n : Node} (h : Reach ts start nodes stop) (ht : ts[stop]? = some t)
    (hn : single? ts stop t = some (if Settled ts (owner start) then n else n.literal)) :
    Reach ts start (Node.push nodes n) (stop + 1) := by
  obtain ⟨parts, rfl, hlayout⟩ := h
  refine ⟨parts ++ [n], by rw [List.foldl_append]; rfl, ?_⟩
  rw [settle_append]
  have hone : settle ts start [n] = [if Settled ts (owner start) then n else n.literal] := by
    unfold settle
    split <;> rfl
  rw [hone]
  exact hlayout.append (.single ht hn (.nil _))

/-- A block behind the nodes before it. -/
lemma block {k : Nat} {opener closer : Tag} {kind : BlockKind} {inner : List Node}
    (h : Reach ts start nodes stop) (hpair : (stop, k) ∈ pairs ts)
    (hopener : ts[stop]? = some (.tag opener)) (hkind : opener.role = .opens kind)
    (hcloser : ts[k]? = some (.tag closer)) (hinner : Layout ts (stop + 1) k inner) :
    Reach ts start (Node.push nodes (.block kind opener.name (opener.span.cover closer.span)
      ⟨stop + 1, k⟩ (Node.joined inner))) (k + 1) := by
  obtain ⟨parts, rfl, hlayout⟩ := h
  refine ⟨parts ++ [.block kind opener.name (opener.span.cover closer.span) ⟨stop + 1, k⟩
    (Node.joined inner)], by rw [List.foldl_append]; rfl, ?_⟩
  have hone : ∀ m ∈ [Node.block kind opener.name (opener.span.cover closer.span) ⟨stop + 1, k⟩
      (Node.joined inner)], m.literal = m := by simp [Node.literal]
  rw [settle_append, settle_eq_self hone]
  exact hlayout.append (.block hpair hopener hkind hcloser hinner (.nil _))

/-- A block that never closes behind the nodes before it. -/
lemma flattenOnto {f : Frame} (h : Reach ts start nodes f.index)
    (hopener : ts[f.index]? = some (.tag f.opener)) (hkind : f.opener.role = .opens f.kind)
    (hf : Reach ts (f.index + 1) f.nodes stop) (hnever : f.index ∉ (pairs ts).map Prod.fst) :
    Reach ts start (f.flattenOnto nodes) stop := by
  obtain ⟨parts, rfl, hlayout⟩ := h
  obtain ⟨more, hnodes, hmore⟩ := hf
  have hnot : ¬ Settled ts (owner (f.index + 1)) := fun h => hnever (h _ rfl)
  rw [settle, if_neg hnot] at hmore
  have hsingle : single? ts f.index (.tag f.opener) =
      some (.text f.opener.raw f.opener.span) := by
    simp only [single?, hkind, if_neg hnever]
  refine ⟨_, Frame.flattenOnto_foldl_push hnodes parts, ?_⟩
  have hall : ∀ n ∈ Node.text f.opener.raw f.opener.span :: more.map Node.literal,
      n.literal = n := by
    refine List.forall_mem_cons.2 ⟨rfl, fun n hn => ?_⟩
    obtain ⟨m, -, rfl⟩ := List.mem_map.1 hn
    exact m.literal_literal
  rw [settle_append, settle_eq_self hall]
  exact hlayout.append (.single hopener hsingle hmore)

/-- The nodes behind a paired opening tag, or behind none, keep their values. -/
lemma exists_layout (h : Reach ts start nodes stop) (hstart : Settled ts (owner start)) :
    ∃ parts, nodes.reverse = Node.joined parts ∧ Layout ts start stop parts := by
  obtain ⟨parts, rfl, hlayout⟩ := h
  rw [settle, if_pos hstart] at hlayout
  exact ⟨parts, rfl, hlayout⟩

end Reach

end Pairing

/-- Places are positions of tokens. -/
def Division.byTokens (ts : List Token) : Division where
  before _ index := index
  after _ index := index + 1
  Opened kind opener index := ts[index]? = some (.tag opener) ∧ opener.role = .opens kind
  Reach := Pairing.Reach ts

namespace Pairing

variable {ts : List Token} {n : Nat} {b c : Builder}

lemma opener?_of_opened {f : Frame} (h : (Division.byTokens ts).Opened f.kind f.opener f.index) :
    opener? ts f.index = some f.opener :=
  opener?_eq_some_iff.2 ⟨h.1, _, h.2⟩

variable (ts) in
/-- After the tokens before the position `n` the open blocks are the opening tags that are pending,
and all that has been read is divided among them. -/
structure Accounted (n : Nat) (b : Builder) : Prop where
  divided : (Division.byTokens ts).Of 0 b n
  frames : b.frames.map Frame.index = pendingAt ts n
  bounded : b.frames.length ≤ maxBlockDepth

namespace Accounted

lemma map_index_modifyNodes (b : Builder) (g : List Node → List Node) :
    (b.modifyNodes g).frames.map Frame.index = b.frames.map Frame.index := by
  obtain ⟨root, frames⟩ := b
  cases frames <;> rfl

/-- The innermost open block is the latest opening tag that is pending. -/
lemma owner_innermost (h : Accounted ts n b) :
    owner ((Division.byTokens ts).innermost 0 b) = (pendingAt ts n).head? := by
  rw [← h.frames]
  obtain ⟨root, frames⟩ := b
  cases frames <;> rfl

/-- A closing tag closes the block that it is paired with. -/
lemma partner?_eq (h : Accounted ts n b) {u : Tag} (hn : ts[n]? = some (.tag u))
    (hu : u.role = .closes) : partner? ts (pairsBefore ts n) n =
      (b.frames.find? fun f => f.opener.name == u.name).map Frame.index := by
  rw [partner?, closer?_eq_some_iff.2 ⟨hn, hu⟩, Option.bind_some]
  change (pendingAt ts n).find? _ = _
  rw [← h.frames, List.find?_map]
  congr 1
  refine List.find?_congr fun f hf => ?_
  simp only [Function.comp_apply, opener?_of_opened (h.divided.opened f hf), Option.any_some]

/-- A node of its own that a token gives. -/
lemma push (h : Accounted ts n b) {t : Token} (hn : ts[n]? = some t) {m : Node}
    (hopener : opener? ts n = none) (hpartner : partner? ts (pairsBefore ts n) n = none)
    (hm : single? ts n t =
      some (if Settled ts (pendingAt ts n).head? then m else m.literal)) :
    Accounted ts (n + 1) (b.push m) := by
  refine ⟨h.divided.modifyNodes fun nodes hnodes => ?_, ?_, ?_⟩
  · refine Reach.single hnodes hn ?_
    rwa [h.owner_innermost]
  · rw [Builder.push, map_index_modifyNodes, h.frames,
      pendingAt_succ_of_partner?_eq_none hpartner, hopener]
    rfl
  · rw [Builder.push, Builder.length_frames_modifyNodes]
    exact h.bounded

/-- A token that is neither an opening nor a closing tag. -/
lemma leaf (h : Accounted ts n b) {t : Token} (hn : ts[n]? = some t) {m : Node}
    (hm : t.leaf? = some m) : Accounted ts (n + 1) (b.push m) := by
  cases t with
  | text content span =>
    cases hm
    have hopener : opener? ts n = none := by simp only [opener?, hn]
    have hcloser : closer? ts n = none := by simp only [closer?, hn]
    refine h.push hn hopener (by rw [partner?, hcloser, Option.bind_none]) ?_
    simp [single?, Node.literal]
  | tag u =>
    cases hu : u.role <;> simp only [Token.leaf?, hu, reduceCtorEq, Option.some.injEq] at hm
    all_goals
      subst hm
      have hopener : opener? ts n = none := by simp only [opener?, hn, hu]
      have hcloser : closer? ts n = none := by simp [closer?, hn, hu]
      refine h.push hn hopener (by rw [partner?, hcloser, Option.bind_none]) ?_
      simp [single?, hu, Node.literal]

/-- An opening tag. -/
lemma opens (h : Accounted ts n b) {u : Tag} {kind : BlockKind} (hn : ts[n]? = some (.tag u))
    (hu : u.role = .opens kind) (hlt : b.frames.length < maxBlockDepth) :
    Accounted ts (n + 1) ⟨b.root, ⟨kind, u, n, []⟩ :: b.frames⟩ := by
  have hpartner : partner? ts (pairsBefore ts n) n = none := by
    have hcloser : closer? ts n = none := by simp [closer?, hn, hu]
    rw [partner?, hcloser, Option.bind_none]
  have hopener : opener? ts n = some u := opener?_eq_some_iff.2 ⟨hn, kind, hu⟩
  refine ⟨.frame h.divided ⟨hn, hu⟩ ⟨[], rfl, ?_⟩, ?_, hlt⟩
  · rw [settle_eq_self (by simp)]
    exact .nil _
  · rw [List.map_cons, h.frames, pendingAt_succ_of_partner?_eq_none hpartner, hopener]
    rfl

/-- A closing tag of which no block is open. -/
lemma stray (h : Accounted ts n b) {u : Tag} (hn : ts[n]? = some (.tag u)) (hu : u.role = .closes)
    (hother : ∀ g ∈ b.frames, g.opener.name ≠ u.name) :
    Accounted ts (n + 1) (b.push (.text u.raw u.span)) := by
  have hpartner : partner? ts (pairsBefore ts n) n = none := by
    rw [h.partner?_eq hn hu, List.find?_eq_none.2 (by simpa using hother)]
    rfl
  have hopener : opener? ts n = none := by simp only [opener?, hn, hu]
  have hnever : n ∉ (pairs ts).map Prod.snd := by
    intro hmem
    obtain ⟨⟨i, _⟩, hi, rfl⟩ := List.mem_map.1 hmem
    rw [mem_pairs_iff] at hi
    rw [hi] at hpartner
    cases hpartner
  refine h.push hn hopener hpartner ?_
  simp [single?, hu, if_neg hnever, Node.literal]

section Closes

variable {u : Tag} {gone rest : List Frame} {f : Frame}

/-- A closing tag is paired with the block that it closes. -/
lemma partner?_of_frames (h : Accounted ts n b) (hn : ts[n]? = some (.tag u))
    (hu : u.role = .closes) (hframes : b.frames = gone ++ f :: rest)
    (hgone : ∀ g ∈ gone, g.opener.name ≠ u.name) (hf : f.opener.name = u.name) :
    partner? ts (pairsBefore ts n) n = some f.index := by
  rw [h.partner?_eq hn hu, hframes, List.find?_append,
    List.find?_eq_none.2 (by simpa using hgone), Option.none_or,
    List.find?_cons_of_pos (by simpa using hf)]
  rfl

/-- The positions of open blocks get smaller from the innermost to the outermost one. -/
lemma index_lt (h : Accounted ts n b) (hframes : b.frames = gone ++ f :: rest) :
    (∀ g ∈ gone, f.index < g.index) ∧ ∀ g ∈ rest, g.index < f.index := by
  have hsorted : (pendingAt ts n).Pairwise (· > ·) := pairwise_pendingAt n
  rw [← h.frames, hframes, List.map_append, List.map_cons, List.pairwise_append,
    List.pairwise_cons] at hsorted
  obtain ⟨-, ⟨hrest, -⟩, hgone⟩ := hsorted
  refine ⟨fun g hg => hgone _ (List.mem_map_of_mem hg) _ List.mem_cons_self, fun g hg => ?_⟩
  exact hrest _ (List.mem_map_of_mem hg)

/-- What is pending after a block has been closed are the blocks around it. -/
lemma pendingAt_succ_of_closes (h : Accounted ts n b) (hframes : b.frames = gone ++ f :: rest)
    (hpartner : partner? ts (pairsBefore ts n) n = some f.index) :
    pendingAt ts (n + 1) = rest.map Frame.index := by
  obtain ⟨hgone, hrest⟩ := h.index_lt hframes
  have hgone' : (gone.map Frame.index).filter (· < f.index) = [] := by
    refine List.filter_eq_nil_iff.2 fun i hi => ?_
    obtain ⟨g, hg, rfl⟩ := List.mem_map.1 hi
    simpa using Nat.le_of_lt (hgone g hg)
  have hrest' : (rest.map Frame.index).filter (· < f.index) = rest.map Frame.index := by
    refine List.filter_eq_self.2 fun i hi => ?_
    obtain ⟨g, hg, rfl⟩ := List.mem_map.1 hi
    exact decide_eq_true (hrest g hg)
  rw [pendingAt_succ_of_partner?_eq_some hpartner, ← h.frames, hframes, List.map_append,
    List.map_cons, List.filter_append, List.filter_cons_of_neg (by simp), hgone', hrest',
    List.nil_append]

/-- The nodes of a block that is closed are those of the tokens between its tags. The blocks that
are open inside of it are given up, since their opening tags are never paired. -/
lemma exists_layout_of_closes (h : Accounted ts n b) (hframes : b.frames = gone ++ f :: rest)
    (hpartner : partner? ts (pairsBefore ts n) n = some f.index) :
    ∃ inner, (⟨f.nodes, gone⟩ : Builder).finish = Node.joined inner ∧
      Layout ts (f.index + 1) n inner := by
  have hpending : ∀ g ∈ gone, g.index ∈ pendingAt ts n := by
    intro g hg
    rw [← h.frames, hframes]
    exact List.mem_map_of_mem (List.mem_append_left _ hg)
  have hlt := (h.index_lt hframes).1
  obtain ⟨root, frames⟩ := b
  cases hframes
  obtain ⟨-, -, hinner⟩ := h.divided.split
  have hreach : Reach ts (f.index + 1) (⟨f.nodes, gone⟩ : Builder).finish.reverse n := by
    refine hinner.finish fun g hg from' nodes more stop hg' hnodes hmore => ?_
    exact Reach.flattenOnto (f := { g with nodes := more }) hnodes hg'.1 hg'.2 hmore
      (not_paired_of_partner? hpartner (hpending g hg) (hlt g hg))
  have hsettled : Settled ts (owner (f.index + 1)) := by
    intro i hi
    cases hi
    exact List.mem_map.2 ⟨_, mem_pairs_iff.2 hpartner, rfl⟩
  obtain ⟨inner, hfinish, hlayout⟩ := hreach.exists_layout hsettled
  rw [List.reverse_reverse] at hfinish
  exact ⟨inner, hfinish, hlayout⟩

/-- A closing tag of an open block. -/
lemma closes (h : Accounted ts n b) (hn : ts[n]? = some (.tag u)) (hu : u.role = .closes)
    (hframes : b.frames = gone ++ f :: rest) (hgone : ∀ g ∈ gone, g.opener.name ≠ u.name)
    (hf : f.opener.name = u.name) :
    Accounted ts (n + 1) ((⟨b.root, rest⟩ : Builder).push
      (.block f.kind f.opener.name (f.opener.span.cover u.span) ⟨f.index + 1, n⟩
        (⟨f.nodes, gone⟩ : Builder).finish)) := by
  have hpartner := h.partner?_of_frames hn hu hframes hgone hf
  have hpending := h.pendingAt_succ_of_closes hframes hpartner
  obtain ⟨inner, hfinish, hlayout⟩ := h.exists_layout_of_closes hframes hpartner
  have hbound : rest.length ≤ maxBlockDepth := by
    refine Nat.le_trans ?_ h.bounded
    rw [hframes, List.length_append, List.length_cons]
    omega
  obtain ⟨root, frames⟩ := b
  cases hframes
  obtain ⟨houter, hopened, -⟩ := h.divided.split
  refine ⟨houter.modifyNodes fun nodes hnodes => ?_, ?_, ?_⟩
  · rw [hfinish]
    exact Reach.block hnodes (mem_pairs_iff.2 hpartner) hopened.1 hopened.2 hn hlayout
  · rw [Builder.push, map_index_modifyNodes, hpending]
  · rwa [Builder.push, Builder.length_frames_modifyNodes]

end Closes

/-- **What a reading holds open is what is pending**, after each token.

**Proof sketch.** A token that is neither an opening nor a closing tag is a node of its own, and so
is a closing tag without a partner. An opening tag is pending from now on. A closing tag with a
partner takes away what was pending behind its partner, and the nodes between the two tags are those
of the pair. -/
theorem step (h : Accounted ts n b) {t : Token} (hn : ts[n]? = some t) (hread : b.Reads n t c) :
    Accounted ts (n + 1) c := by
  cases hread with
  | leaf hm => exact h.leaf hn hm
  | opens hu hlt => exact h.opens hn hu hlt
  | stray hu hother => exact h.stray hn hu hother
  | closes hu hframes hgone hf => exact h.closes hn hu hframes hgone hf

/-- After each start of the tokens. -/
lemma run {read rest : List Token} (hts : ts = read ++ rest)
    (h : Builder.empty.run 0 read = .ok b) : Accounted ts read.length b := by
  induction read using List.reverseRecOn generalizing rest b with
  | nil =>
    cases h
    refine ⟨.root ⟨[], rfl, ?_⟩, rfl, Nat.zero_le _⟩
    rw [settle_eq_self (by simp)]
    exact .nil _
  | append_singleton read t ih =>
    obtain ⟨d, hd, hstep⟩ := Builder.run_concat_eq_ok.1 h
    rw [Nat.zero_add] at hstep
    rw [List.append_assoc] at hts
    have hn : ts[read.length]? = some t := by
      rw [hts]
      simp
    have hnext := (ih hts hd).step hn (Builder.step_eq_ok_iff.1 hstep)
    rwa [List.length_append]

end Accounted

/-- What is read of all tokens is what they come to. -/
lemma Accounted.finish (h : Accounted ts ts.length b) :
    ∃ parts, Layout ts 0 ts.length parts ∧ b.finish = Node.joined parts := by
  have hreach : Reach ts 0 b.finish.reverse ts.length := by
    refine h.divided.finish fun g hg from' nodes more stop hg' hnodes hmore => ?_
    refine Reach.flattenOnto (f := { g with nodes := more }) hnodes hg'.1 hg'.2 hmore ?_
    have hmem : g.index ∈ b.frames.map Frame.index := List.mem_map_of_mem hg
    exact not_paired_of_pending (h.frames ▸ hmem)
  obtain ⟨parts, hfinish, hlayout⟩ := hreach.exists_layout (by
    intro i hi
    cases hi)
  rw [List.reverse_reverse] at hfinish
  exact ⟨parts, hlayout, hfinish⟩

/-- A reading that fails meets too many pending tags. -/
lemma overfull_of_error {e : Error} (h : Node.ofTokens ts = .error e) :
    e = .nestingTooDeep maxBlockDepth ∧ Overfull ts := by
  cases hrun : Builder.empty.run 0 ts with
  | ok b =>
    rw [Node.ofTokens, hrun] at h
    cases h
  | error e' =>
    rw [Node.ofTokens, hrun] at h
    cases h
    obtain ⟨before, t, after, c, hts, hc, hstep⟩ := Builder.exists_of_run_eq_error hrun
    have hc' := Accounted.run hts hc
    obtain ⟨u, kind, rfl, hu, hmax, rfl⟩ := Builder.step_eq_error_iff.1 hstep
    have hopener : opener? ts before.length = some u := by
      refine opener?_eq_some_iff.2 ⟨?_, kind, hu⟩
      rw [hts]
      simp
    refine ⟨rfl, before.length, by rw [hopener]; rfl, ?_⟩
    rw [← hc'.frames, List.length_map]
    exact Nat.le_antisymm hc'.bounded hmax

/-- A reading that succeeds meets nowhere too many pending tags. -/
lemma not_overfull_of_run (hb : Builder.empty.run 0 ts = .ok b) : ¬ Overfull ts := by
  rintro ⟨i, hi, hlength⟩
  obtain ⟨u, hu⟩ := Option.isSome_iff_exists.1 hi
  obtain ⟨hget, kind, hkind⟩ := opener?_eq_some_iff.1 hu
  obtain ⟨hlt, hget⟩ := List.getElem?_eq_some_iff.1 hget
  have hsplit : ts = ts.take i ++ .tag u :: ts.drop (i + 1) := by
    rw [← hget]
    simp
  have hlen : (ts.take i).length = i := by
    rw [List.length_take]
    omega
  rw [hsplit, Builder.run_append] at hb
  cases hd : Builder.empty.run 0 (ts.take i) with
  | error e =>
    rw [hd] at hb
    cases hb
  | ok d =>
    have hcount := (Accounted.run hsplit hd).frames
    rw [hlen] at hcount
    have hstep : d.step i (.tag u) = .error (.nestingTooDeep maxBlockDepth) := by
      refine Builder.step_eq_error_iff.2 ⟨u, kind, rfl, hkind, ?_, rfl⟩
      rw [← hlength, ← hcount, List.length_map]
    rw [hd] at hb
    change d.run _ (.tag u :: ts.drop (i + 1)) = _ at hb
    rw [hlen, Nat.zero_add, Builder.run_cons, hstep] at hb
    cases hb

/-- The nodes of tokens that can be read are laid out by their pairs. -/
lemma exists_layout_of_ok {nodes : List Node} (h : Node.ofTokens ts = .ok nodes) :
    ¬ Overfull ts ∧ ∃ parts, Layout ts 0 ts.length parts ∧ nodes = Node.joined parts := by
  obtain ⟨b, hb, rfl⟩ := Node.readFrom_eq_ok.1 h
  exact ⟨not_overfull_of_run hb, (Accounted.run (List.append_nil ts).symm hb).finish⟩

end Pairing

/-- **The blocks are the pairs of tags.**

The reading of tokens fails, and then always in the same way, exactly if there is an opening tag at
which as many others are pending as may be. Otherwise the nodes are laid out by the pairs: each pair
is a block, nested as the pairs are, whose body are the nodes of the tokens between its two tags.
Each other opening or closing tag is plain text as written, and so is a value if the latest opening
tag that is pending there is never paired; other values are kept, and so is each partial. The order
of the tokens is kept as well: joining what they come to changes neither the characters nor the
other nodes, and only leaves no two texts side by side. -/
theorem Node.ofTokens_pairs_blocks (ts : List Token) :
    (∀ e, Node.ofTokens ts = .error e ↔
      e = .nestingTooDeep maxBlockDepth ∧ Pairing.Overfull ts) ∧
    ∀ nodes, Node.ofTokens ts = .ok nodes ↔
      ¬ Pairing.Overfull ts ∧
        ∃ parts, Pairing.Layout ts 0 ts.length parts ∧ nodes = Node.joined parts := by
  refine ⟨fun e => ⟨Pairing.overfull_of_error, ?_⟩, fun nodes => ⟨Pairing.exists_layout_of_ok, ?_⟩⟩
  · rintro ⟨rfl, hfull⟩
    cases h : Node.ofTokens ts with
    | ok nodes => exact absurd hfull (Pairing.exists_layout_of_ok h).1
    | error e => rw [(Pairing.overfull_of_error h).1]
  · rintro ⟨hfull, parts, hlayout, rfl⟩
    cases h : Node.ofTokens ts with
    | error e => exact absurd (Pairing.overfull_of_error h).2 hfull
    | ok nodes =>
      obtain ⟨-, parts', hlayout', rfl⟩ := Pairing.exists_layout_of_ok h
      rw [hlayout.unique hlayout']

-- the closing tag of `b` comes too late for its opening tag, which is inside a pair by then
example : Pairing.pairs (Token.ofText .standard 0 "{{#a}}{{#b}}{{x}}{{/a}}{{/b}}") = [(0, 3)] := by
  decide +kernel

end Stencil
