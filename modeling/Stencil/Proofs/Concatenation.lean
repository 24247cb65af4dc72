import Stencil.Proofs.BlockPairs
import Stencil.Proofs.Inlining

set_option relaxedAutoImplicit false
set_option autoImplicit false

/-!
# One text after another

If no block of a text is left open at its end, then a text that follows it is read as on its own,
except that plain text on both sides of the seam becomes one. Partials are expanded in both texts
before anything is rendered. So the two texts together are rendered like one after the other, but
the warnings of the second expansion come before those of the first rendering.

## Main definitions

* `Stencil.Builder.Behind` — a reading goes on behind nodes as another one does from the start.
* `Stencil.Run.Agrees` — two runs have the same results, and say the same if they have one.

## Main results

* `Stencil.Node.ofTokens_append` — how tokens are read behind others that leave no block open.
* `Stencil.Setting.renderExpandedWith_append` — how they are rendered.
* `Stencil.Template.concatenated_renders_in_sequence` — two texts, and the text of both.
-/

namespace Stencil

/-! ### Reading behind nodes -/

/-- A block that never closes comes to nodes put behind those before it. -/
lemma Frame.flattenOnto_eq (f : Frame) (nodes : List Node) :
    f.flattenOnto nodes =
      (.text f.opener.raw f.opener.span :: f.nodes.reverse.map Node.literal).foldl Node.push
        nodes := by
  rw [flattenOnto, Node.pushUnclosed_eq, List.foldl_cons, List.foldl_map]
  rfl

/-- What becomes of a node that is put behind others: it stands there as it is, or it is an empty
text and leaves no trace, or its text becomes one with the text before it. -/
lemma Node.push_cases (nodes : List Node) (n : Node) :
    push nodes n = n :: nodes ∨
      (∃ span, n = .text "" span ∧ push nodes n = nodes) ∨
      ∃ before content place span rest, n = .text content span ∧
        nodes = .text before place :: rest ∧
          push nodes n = .text (before ++ content) (place.cover span) :: rest := by
  cases n with
  | value name raw span => exact .inl rfl
  | block kind name span inner body => exact .inl rfl
  | inclusion name span => exact .inl rfl
  | text content span =>
    by_cases hempty : content = ""
    · subst hempty
      exact .inr (.inl ⟨span, rfl, by simp [push, pushText]⟩)
    · cases nodes with
      | nil => exact .inl (if_neg hempty)
      | cons m rest =>
        cases m with
        | value name raw place => exact .inl (if_neg hempty)
        | block kind name place inner body => exact .inl (if_neg hempty)
        | inclusion name place => exact .inl (if_neg hempty)
        | text before place =>
          exact .inr (.inr ⟨before, content, place, span, rest, rfl, rfl, if_neg hempty⟩)

namespace Builder

/-- The reading `c` goes on behind the given nodes as the reading `b` does from the start: the same
blocks are open, and the same nodes were put outside of them. -/
structure Behind (nodes : List Node) (b c : Builder) : Prop where
  frames : c.frames = b.frames
  root : ∃ parts : List Node,
    b.root = parts.foldl Node.push [] ∧ c.root = parts.foldl Node.push nodes

namespace Behind

variable {nodes : List Node} {b c : Builder}

lemma start (nodes : List Node) : Behind nodes empty ⟨nodes, []⟩ := ⟨rfl, [], rfl, rfl⟩

lemma modifyNodes (h : Behind nodes b c) {g : List Node → List Node} (more : List Node)
    (hg : ∀ ns, g ns = more.foldl Node.push ns) :
    Behind nodes (b.modifyNodes g) (c.modifyNodes g) := by
  obtain ⟨broot, bframes⟩ := b
  obtain ⟨croot, cframes⟩ := c
  obtain ⟨rfl, parts, rfl, rfl⟩ := h
  cases cframes with
  | nil =>
    refine ⟨rfl, parts ++ more, ?_, ?_⟩
    · rw [List.foldl_append, ← hg]
      rfl
    · rw [List.foldl_append, ← hg]
      rfl
  | cons f fs => exact ⟨rfl, parts, rfl, rfl⟩

lemma push (h : Behind nodes b c) (n : Node) : Behind nodes (b.push n) (c.push n) :=
  h.modifyNodes [n] fun _ => rfl

lemma giveUp (h : Behind nodes b c) (n : Nat) : Behind nodes (b.giveUp n) (c.giveUp n) := by
  induction n generalizing b c with
  | zero => exact h
  | succ n ih =>
    obtain ⟨broot, bframes⟩ := b
    obtain ⟨croot, cframes⟩ := c
    obtain ⟨rfl, hroot⟩ := h
    cases cframes with
    | nil => exact ⟨rfl, hroot⟩
    | cons f fs =>
      rw [giveUp_succ_cons, giveUp_succ_cons]
      have hrest : Behind nodes ⟨broot, fs⟩ ⟨croot, fs⟩ := ⟨rfl, hroot⟩
      exact ih (hrest.modifyNodes _ f.flattenOnto_eq)

/-- In the end, one reading has the nodes of the other one behind the given ones. -/
lemma finish (h : Behind nodes b c) : ∃ parts, b.finish = Node.joined parts ∧
    c.finish = (parts.foldl Node.push nodes).reverse := by
  obtain ⟨parts, hb, hc⟩ := (h.giveUp b.frames.length).root
  refine ⟨parts, ?_, ?_⟩
  · rw [Builder.finish, hb]
    rfl
  · rw [Builder.finish, h.frames, hc]

/-- **A token is read alike** behind nodes and from the start. -/
lemma step (h : Behind nodes b c) (i : Nat) (t : Token) :
    (∃ b' c', b.step i t = .ok b' ∧ c.step i t = .ok c' ∧ Behind nodes b' c') ∨
      ∃ e, b.step i t = .error e ∧ c.step i t = .error e := by
  cases hstep : b.step i t with
  | error e =>
    obtain ⟨u, kind, rfl, hu, hmax, rfl⟩ := step_eq_error_iff.1 hstep
    exact .inr ⟨_, rfl, step_eq_error_iff.2 ⟨u, kind, rfl, hu, h.frames ▸ hmax, rfl⟩⟩
  | ok b' =>
    refine .inl ⟨b', ?_⟩
    simp only [step_eq_ok_iff, true_and]
    cases step_eq_ok_iff.1 hstep with
    | @leaf _ n hn => exact ⟨_, .leaf hn, h.push n⟩
    | @opens u kind hu hlt =>
      refine ⟨_, .opens hu (h.frames ▸ hlt), ?_, h.root⟩
      rw [h.frames]
    | stray hu hne => exact ⟨_, .stray hu (h.frames ▸ hne), h.push _⟩
    | @closes u gone rest f hu hframes hgone hf =>
      have hrest : Behind nodes ⟨b.root, rest⟩ ⟨c.root, rest⟩ := ⟨rfl, h.root⟩
      exact ⟨_, .closes hu (h.frames.trans hframes) hgone hf, hrest.push _⟩

/-- So are all tokens. -/
lemma run (h : Behind nodes b c) (i : Nat) (ts : List Token) :
    (∃ b' c', b.run i ts = .ok b' ∧ c.run i ts = .ok c' ∧ Behind nodes b' c') ∨
      ∃ e, b.run i ts = .error e ∧ c.run i ts = .error e := by
  induction ts generalizing b c i with
  | nil => exact .inl ⟨b, c, rfl, rfl, h⟩
  | cons t ts ih =>
    rw [run_cons, run_cons]
    rcases h.step i t with ⟨b', c', hb', hc', h'⟩ | ⟨e, hb, hc⟩
    · rw [hb', hc']
      exact ih h' (i + 1)
    · rw [hb, hc]
      exact .inr ⟨e, rfl, rfl⟩

end Behind

end Builder

/-- Tokens that cannot be read cannot be read with others behind them either. -/
lemma Node.ofTokens_append_of_error {ts : List Token} {e : Error}
    (h : Node.ofTokens ts = .error e) (us : List Token) :
    Node.ofTokens (ts ++ us) = .error e := by
  unfold ofTokens at *
  rw [Builder.run_append]
  cases hrun : Builder.empty.run 0 ts with
  | error e' =>
    rw [hrun] at h
    exact h
  | ok b =>
    rw [hrun] at h
    cases h

/-- **Tokens behind others** that leave no block open are read as from their position on, and what
they come to is put behind the nodes of the others. -/
theorem Node.ofTokens_append {ts : List Token} (us : List Token) {nodes : List Node}
    (hpending : Pairing.pendingAt ts ts.length = []) (h : Node.ofTokens ts = .ok nodes) :
    (∃ parts, Node.readFrom ts.length us = .ok (Node.joined parts) ∧
      Node.ofTokens (ts ++ us) = .ok (parts.foldl Node.push nodes.reverse).reverse) ∨
    ∃ e, Node.readFrom ts.length us = .error e ∧ Node.ofTokens (ts ++ us) = .error e := by
  obtain ⟨b, hb, rfl⟩ := Node.readFrom_eq_ok.1 h
  -- the frames of the reading are the pending tags
  have hframes : b.frames = [] := by
    have hindices := (Pairing.Accounted.run (List.append_nil ts).symm hb).frames
    rw [hpending] at hindices
    exact List.map_eq_nil_iff.1 hindices
  have hfinish : b = ⟨b.finish.reverse, []⟩ := by
    obtain ⟨root, frames⟩ := b
    cases hframes
    simp [Builder.finish, Builder.giveUp]
  unfold ofTokens readFrom
  rw [Builder.run_append, hb]
  change (∃ parts, _ ∧ Except.map _ (b.run (0 + ts.length) us) = _) ∨
    ∃ e, _ ∧ Except.map _ (b.run (0 + ts.length) us) = _
  rw [Nat.zero_add]
  have hbehind : Builder.Behind b.finish.reverse Builder.empty b := by
    conv => rhs; rw [hfinish]
    exact .start _
  rcases hbehind.run ts.length us with ⟨c, c', hc, hc', hcc⟩ | ⟨e, hc, hc'⟩
  · obtain ⟨parts, hparts, hparts'⟩ := hcc.finish
    rw [hc, hc']
    exact .inl ⟨parts, congrArg Except.ok hparts, congrArg Except.ok hparts'⟩
  · rw [hc, hc']
    exact .inr ⟨e, rfl, rfl⟩

/-! ### Runs with the same results -/

namespace Run

variable {α β : Type}

/-- The runs have the same results, and say the same if they have one. -/
def Agrees (r s : Run α) : Prop := Yields Eq r s ∧ Yields Eq s r

namespace Agrees

variable {r s t : Run α}

lemma refl (r : Run α) : Agrees r r := ⟨.refl r, .refl r⟩

lemma of_eq (h : r = s) : Agrees r s := h ▸ .refl r

lemma symm (h : Agrees r s) : Agrees s r := ⟨h.2, h.1⟩

lemma trans (hrs : Agrees r s) (hst : Agrees s t) : Agrees r t := by
  refine ⟨(hrs.1.trans hst.1).imp ?_, (hst.2.trans hrs.2).imp ?_⟩
  · rintro a _ ⟨_, rfl, rfl⟩
    rfl
  · rintro a _ ⟨_, rfl, rfl⟩
    rfl

lemma of_done {a : α} (hr : r.outcome = .done a) (hs : s.outcome = .done a)
    (h : SaysSame r s) : Agrees r s := by
  refine ⟨fun b hb => ?_, fun b hb => ?_⟩
  · rw [hr] at hb
    cases hb
    exact ⟨a, hs, rfl, h⟩
  · rw [hs] at hb
    cases hb
    exact ⟨a, hr, rfl, h.output.symm, h.warnings.symm⟩

/-- Runs that have no results agree. -/
lemma of_forall_ne (hr : ∀ a, r.outcome ≠ .done a) (hs : ∀ a, s.outcome ≠ .done a) :
    Agrees r s :=
  ⟨fun a ha => absurd ha (hr a), fun a ha => absurd ha (hs a)⟩

/-- **Runs in sequence** agree if each of them does. What follows matters only for the results of
the first ones. -/
lemma bind {f g : α → Run β} (hrs : Agrees r s)
    (hfg : ∀ a, r.outcome = .done a → Agrees (f a) (g a)) : Agrees (r >>= f) (s >>= g) := by
  refine ⟨fun b hb => ?_, fun b hb => ?_⟩
  · obtain ⟨a, hr, hb⟩ := bind_outcome_done_iff.1 hb
    obtain ⟨_, hs, rfl, hsame⟩ := hrs.1 a hr
    obtain ⟨_, hg, rfl, hsame'⟩ := (hfg a hr).1 b hb
    exact ⟨b, bind_outcome_done_iff.2 ⟨a, hs, hg⟩, rfl, hsame.bind hr hs hsame'⟩
  · obtain ⟨a, hs, hb⟩ := bind_outcome_done_iff.1 hb
    obtain ⟨_, hr, rfl, hsame⟩ := hrs.2 a hs
    obtain ⟨_, hf, rfl, hsame'⟩ := (hfg a hr).2 b hb
    exact ⟨b, bind_outcome_done_iff.2 ⟨a, hr, hf⟩, rfl, hsame.bind hs hr hsame'⟩

end Agrees

end Run

namespace Setting

variable (set : Setting)

/-! ### Rendering one after the other -/

/-- A node that is put behind others is rendered after them, also if its text becomes one with
theirs. -/
lemma forM_push_agrees (f : List Node → TokenRange → Scope → Run Unit) (scope : Scope)
    (nodes : List Node) (n : Node) :
    Run.Agrees ((Node.push nodes n).reverse.forM (set.renderNode f scope)) (do
      nodes.reverse.forM (set.renderNode f scope)
      set.renderNode f scope n) := by
  have hbehind : ∀ (nodes : List Node) (n : Node),
      (n :: nodes).reverse.forM (set.renderNode f scope) = (do
        nodes.reverse.forM (set.renderNode f scope)
        set.renderNode f scope n) := by
    intro nodes n
    rw [List.reverse_cons, Run.forM_append, Run.forM_cons]
    congr 1
    funext _
    exact bind_pure _
  rcases Node.push_cases nodes n with hpush | ⟨span, rfl, hpush⟩ |
    ⟨before, content, place, span, rest, rfl, rfl, hpush⟩
  · rw [hpush, hbehind]
    exact .refl _
  · have hsilent : Run.Agrees (pure ()) (Run.emit (.text "")) := .of_done rfl rfl ⟨rfl, rfl⟩
    rw [hpush]
    exact (Run.Agrees.of_eq (bind_pure _).symm).trans ((Run.Agrees.refl _).bind fun _ _ => hsilent)
  · have hjoined : Run.Agrees (Run.emit (.text (before ++ content))) (do
        Run.emit (.text before)
        Run.emit (.text content)) := by
      refine .of_done rfl rfl ⟨?_, rfl⟩
      simp [Run.output, Run.emit, Run.bind_eq, Run.bind, Event.written]
    rw [hpush, hbehind, hbehind, bind_assoc]
    exact (Run.Agrees.refl _).bind fun _ _ => hjoined

/-- Nodes that are put behind others are rendered after them. -/
lemma forM_foldl_push_agrees (f : List Node → TokenRange → Scope → Run Unit) (scope : Scope)
    (parts nodes : List Node) :
    Run.Agrees ((parts.foldl Node.push nodes).reverse.forM (set.renderNode f scope)) (do
      nodes.reverse.forM (set.renderNode f scope)
      parts.forM (set.renderNode f scope)) := by
  induction parts generalizing nodes with
  | nil => exact .of_eq (bind_pure _).symm
  | cons n parts ih =>
    rw [List.foldl_cons, Run.forM_cons, ← bind_assoc]
    exact (ih _).trans ((set.forM_push_agrees f scope nodes n).bind fun _ _ => .refl _)

/-- **Tokens behind others** that leave no block open are rendered after them.

**Proof sketch.** The nodes of all tokens are those of the first ones, with those of the others put
behind them. The bodies of blocks have the tokens that they have on either side of the seam. -/
theorem renderExpandedWith_append {ts : List Token} (us : List Token)
    (hpending : Pairing.pendingAt ts ts.length = []) (g : List Token → Scope → Run Unit)
    (scope : Scope) :
    Run.Agrees (set.renderExpandedWith g scope (ts ++ us)) (do
      set.renderExpandedWith g scope ts
      set.renderExpandedWith g scope us) := by
  cases hts : Node.ofTokens ts with
  | error e =>
    unfold renderExpandedWith
    rw [Node.ofTokens_append_of_error hts us, hts]
    exact .of_forall_ne (fun _ => nofun) fun _ => nofun
  | ok nodes =>
    -- both readings as parts of the one of all tokens
    have hsplit : ts ++ us = ts ++ (us ++ []) := by rw [List.append_nil]
    obtain ⟨hwithin, hslice⟩ := TokenRange.between (r := ⟨0, ts.length⟩)
      (List.nil_append (ts ++ us)).symm rfl (Nat.zero_add _).symm
    obtain ⟨hwithin', hslice'⟩ := TokenRange.between (r := ⟨ts.length, ts.length + us.length⟩)
      hsplit rfl rfl
    have hfirst : Node.ReadIn ⟨0, ts.length⟩ (ts ++ us) nodes :=
      ⟨hwithin, by rw [hslice, ← Node.ofTokens_eq, hts]⟩
    have hleft := set.forM_renderNode_slice g hfirst (by rw [hslice, hts]) scope
    rw [hslice] at hleft
    have hshift : Node.readFrom ts.length us =
        (Node.ofTokens us).map (Node.shiftAll ts.length) := by
      rw [Node.ofTokens_eq, ← Node.readFrom_add, Nat.zero_add]
    unfold renderExpandedWith
    rw [hts]
    cases hus : Node.ofTokens us with
    | error e =>
      rw [hus] at hshift
      rcases Node.ofTokens_append us hpending hts with ⟨parts, hparts, -⟩ | ⟨e', -, hall⟩
      · rw [hshift] at hparts
        cases hparts
      · rw [hall]
        refine .of_forall_ne (fun _ => nofun) fun _ hdone => ?_
        obtain ⟨_, -, hdone⟩ := Run.bind_outcome_done_iff.1 hdone
        cases hdone
    | ok nodes' =>
      rw [hus] at hshift
      rcases Node.ofTokens_append us hpending hts with ⟨parts, hparts, hall⟩ | ⟨e, herror, -⟩
      · have hsecond : Node.ReadIn ⟨ts.length, ts.length + us.length⟩ (ts ++ us)
            (Node.joined parts) := ⟨hwithin', by rw [hslice', hparts]⟩
        have hright := set.forM_renderNode_slice g hsecond (by rw [hslice', hus]) scope
        rw [hslice'] at hright
        have hwhole := set.forM_foldl_push_agrees
          (fun _ inner => g (inner.slice (ts ++ us))) scope parts nodes.reverse
        rw [List.reverse_reverse] at hwhole
        have hparts' := set.forM_foldl_push_agrees
          (fun _ inner => g (inner.slice (ts ++ us))) scope parts []
        rw [hall]
        refine hwhole.trans ?_
        rw [hleft]
        refine (Run.Agrees.refl _).bind fun _ _ => hparts'.symm.trans (.of_eq ?_)
        exact hright
      · rw [hshift] at herror
        cases herror

/-- The tokens are expanded, and then they are rendered. -/
lemma exists_renderAnew_eq (depth : Nat) : ∃ g : List Token → Scope → Run Unit, ∀ ts scope,
    set.renderAnew depth ts scope = set.expand scope ts >>= set.renderExpandedWith g scope := by
  cases depth with
  | zero => exact ⟨fun _ _ => Run.exhausted, fun _ _ => rfl⟩
  | succ depth => exact ⟨set.renderAnew depth, fun _ _ => rfl⟩

/-- Nothing is warned of where no partial has to be put in. -/
lemma warnings_expand_of_partials_eq_nil {ts : List Token} (h : Token.partials ts = [])
    (scope : Scope) : (set.expand scope ts).warnings = [] := by
  rw [expand, set.expandTo_of_unbound _ (by simp [h])]
  rfl

/-- **Tokens one after the other.** If no block of the first ones is left open once their partials
have been put in, then all tokens have a rendering exactly if both parts have one, and it says what
these say, but the warnings of both expansions come first.

**Proof sketch.** All tokens are expanded part by part, and then rendered part by part. An expansion
writes nothing, so that only the warnings show that the second expansion comes before the first
rendering. -/
theorem renderAnew_append {ts : List Token} (us : List Token) {scope : Scope}
    (hpending : ∀ expanded, (set.expand scope ts).outcome = .done expanded →
      Pairing.pendingAt expanded expanded.length = []) (depth : Nat) :
    let whole := set.renderAnew depth (ts ++ us) scope
    let front := set.renderAnew depth ts scope
    let back := set.renderAnew depth us scope
    (whole.outcome = .done () ↔ front.outcome = .done () ∧ back.outcome = .done ()) ∧
      (whole.outcome = .done () → whole.output = front.output ++ back.output ∧
        (whole.warnings.map Prod.fst).Perm
          (front.warnings.map Prod.fst ++ back.warnings.map Prod.fst) ∧
        (Token.partials us = [] → whole.warnings.map Prod.fst =
          front.warnings.map Prod.fst ++ back.warnings.map Prod.fst)) := by
  intro whole front back
  obtain ⟨g, hg⟩ := set.exists_renderAnew_eq depth
  have hwhole : Run.Agrees whole (do
      let ts' ← set.expand scope ts
      let us' ← set.expand scope us
      set.renderExpandedWith g scope ts'
      set.renderExpandedWith g scope us') := by
    change Run.Agrees (set.renderAnew depth (ts ++ us) scope) _
    rw [hg, expand, expandTo_append, bind_assoc]
    refine (Run.Agrees.refl _).bind fun ts' hts' => ?_
    rw [bind_assoc]
    refine (Run.Agrees.refl _).bind fun us' _ => ?_
    rw [pure_bind]
    exact set.renderExpandedWith_append us' (hpending ts' hts') g scope
  have hfront : front = set.expand scope ts >>= set.renderExpandedWith g scope := hg ts scope
  have hback : back = set.expand scope us >>= set.renderExpandedWith g scope := hg us scope
  rw [hfront, hback]
  refine ⟨⟨fun h => ?_, fun h => ?_⟩, fun h => ?_⟩
  · obtain ⟨_, h, -, -⟩ := hwhole.1 () h
    obtain ⟨ts', hts', h⟩ := Run.bind_outcome_done_iff.1 h
    obtain ⟨us', hus', h⟩ := Run.bind_outcome_done_iff.1 h
    obtain ⟨_, hf, hb⟩ := Run.bind_outcome_done_iff.1 h
    exact ⟨Run.bind_outcome_done_iff.2 ⟨ts', hts', hf⟩, Run.bind_outcome_done_iff.2 ⟨us', hus', hb⟩⟩
  · obtain ⟨ts', hts', hf⟩ := Run.bind_outcome_done_iff.1 h.1
    obtain ⟨us', hus', hb⟩ := Run.bind_outcome_done_iff.1 h.2
    obtain ⟨_, h, -, -⟩ := hwhole.2 () (Run.bind_outcome_done_iff.2 ⟨ts', hts',
      Run.bind_outcome_done_iff.2 ⟨us', hus', Run.bind_outcome_done_iff.2 ⟨(), hf, hb⟩⟩⟩)
    exact h
  · obtain ⟨_, h, -, hsame⟩ := hwhole.1 () h
    obtain ⟨ts', hts', h⟩ := Run.bind_outcome_done_iff.1 h
    obtain ⟨us', hus', h⟩ := Run.bind_outcome_done_iff.1 h
    obtain ⟨_, hf, hb⟩ := Run.bind_outcome_done_iff.1 h
    have hsilent : ∀ ts, (set.expand scope ts).output = "" := set.output_expandTo _
    rw [hsame.output, hsame.warnings]
    simp only [Run.output_bind hts', Run.output_bind hus', Run.output_bind hf,
      Run.warnings_bind hts', Run.warnings_bind hus', Run.warnings_bind hf, List.map_append,
      hsilent, String.empty_append, List.append_assoc, true_and]
    refine ⟨?_, fun hnone => ?_⟩
    · exact (List.perm_append_comm_assoc _ _ _).append_left _
    · rw [set.warnings_expand_of_partials_eq_nil hnone]
      rfl

end Setting

/-! ### Whole templates -/

namespace Template

/-- **Two texts one after the other render like the text of both.**

Let two texts and the text of both be templates, let no tag reach from the first text into the
second one (the letters of the whole are those of its parts), and let no opening tag of the first
text be pending at its end once its partials have been put in. If the three renderings come to an
end, then that of the whole succeeds exactly if both others do. It then writes what these write, and
gives their diagnostics, apart from places: those for the partials of the second text may come
earlier, and without partials the order is the same. -/
theorem concatenated_renders_in_sequence {d : Delimiters} {A B : String} {a b ab : Template}
    {context : Context} {loader : Loader} {options : Options}
    (ha : compileWith d A = .ok a) (hb : compileWith d B = .ok b)
    (hab : compileWith d (A ++ B) = .ok ab)
    (hseam : Token.letters ab.tokens = Token.letters a.tokens ++ Token.letters b.tokens)
    (hpending : ∀ expanded,
      ((a.setting loader options).expand (Scope.root context) a.tokens).outcome = .done expanded →
        Pairing.pendingAt expanded expanded.length = [])
    {depth depthA depthB : Nat}
    (hwhole : (ab.run context loader options depth).outcome ≠ .exhausted)
    (hfront : (a.run context loader options depthA).outcome ≠ .exhausted)
    (hback : (b.run context loader options depthB).outcome ≠ .exhausted) :
    let whole := ab.run context loader options depth
    let front := a.run context loader options depthA
    let back := b.run context loader options depthB
    let log (r : Run Unit) := r.diagnostics.diagnostics.map fun x => (x.code, x.message)
    (whole.outcome = .done () ↔ front.outcome = .done () ∧ back.outcome = .done ()) ∧
      (whole.outcome = .done () → whole.output = front.output ++ back.output ∧
        (log whole).Perm (log front ++ log back) ∧
        (Token.partials ab.tokens = [] → log whole = log front ++ log back)) := by
  intro whole front back log
  obtain ⟨hd, hatokens, -⟩ := of_compileWith ha
  obtain ⟨-, hbtokens, -⟩ := of_compileWith hb
  obtain ⟨-, htokens, -⟩ := of_compileWith hab
  have hsetting : a.setting loader options = ⟨d, loader, options⟩ := by rw [setting, hd]
  rw [hsetting] at hpending
  -- all three with the greatest of the depths, and by their tokens
  have hwhole' : (⟨d, loader, options⟩ : Setting).renderAnew (depth + depthA + depthB) ab.tokens
      (Scope.root context) = whole := by
    rw [htokens, ← run_eq_renderAnew hab]
    exact Call.run_below_of_le (ab.setting loader options) (by omega) (ab.entry context) hwhole
  have hfront' : (⟨d, loader, options⟩ : Setting).renderAnew (depth + depthA + depthB) a.tokens
      (Scope.root context) = front := by
    rw [hatokens, ← run_eq_renderAnew ha]
    exact Call.run_below_of_le (a.setting loader options) (by omega) (a.entry context) hfront
  have hback' : (⟨d, loader, options⟩ : Setting).renderAnew (depth + depthA + depthB) b.tokens
      (Scope.root context) = back := by
    rw [hbtokens, ← run_eq_renderAnew hb]
    exact Call.run_below_of_le (b.setting loader options) (by omega) (b.entry context) hback
  have hletters : Token.SameLetters ab.tokens (a.tokens ++ b.tokens) := by
    rw [Token.SameLetters, hseam, Token.letters_append]
  have halike := (⟨d, loader, options⟩ : Setting).renderAnew_alike (.refl (Scope.root context))
    (depth + depthA + depthB) hletters
  obtain ⟨hdone, hsaid⟩ := (⟨d, loader, options⟩ : Setting).renderAnew_append b.tokens
    hpending (depth + depthA + depthB)
  rw [hwhole'] at halike
  rw [hfront', hback', ← halike.outcome.eq] at hdone hsaid
  rw [← halike.output_eq, ← halike.warnings_eq] at hsaid
  have hlog : ∀ r, log r = (r.warnings.map Prod.fst).map fun w => (w.code, w.message) :=
    Run.diagnostics_map_eq
  refine ⟨hdone, fun h => ?_⟩
  obtain ⟨houtput, hperm, hsequence⟩ := hsaid h
  refine ⟨houtput, ?_, fun hnone => ?_⟩
  · rw [hlog, hlog, hlog, ← List.map_append]
    exact hperm.map _
  · have hnone' : Token.partials b.tokens = [] := by
      have hpartials := Token.partials_eq_of_letters hletters
      rw [hnone, Token.partials, List.filterMap_append] at hpartials
      exact (List.append_eq_nil_iff.1 hpartials.symm).2
    rw [hlog, hlog, hlog, ← List.map_append, hsequence hnone']

/-- A case where a partial of the first text closes its block, and the second text has a closing tag
left over and a partial that cannot be loaded. -/
theorem concatenated_renders_in_sequence_of_closing_partial :
    ∃ a b ab, compileWith .standard "{{#s}}x{{>p}}{{u}}" = .ok a ∧
      compileWith .standard "{{>q}}{{/s}}y" = .ok b ∧
      compileWith .standard ("{{#s}}x{{>p}}{{u}}" ++ "{{>q}}{{/s}}y") = .ok ab ∧
      let context := Context.ofList
        [("s", .bool true), ("p", .inline "{{/s}}-"), ("q", .resource "m")]
      let whole := ab.run context Loader.empty {} 1
      let front := a.run context Loader.empty {} 1
      let back := b.run context Loader.empty {} 0
      let log (r : Run Unit) := r.diagnostics.diagnostics.map fun x => (x.code, x.message)
      whole.outcome = .done () ∧ front.outcome = .done () ∧ back.outcome = .done () ∧
        whole.output = front.output ++ back.output ∧ (log whole).Perm (log front ++ log back) := by
  obtain ⟨a, ha⟩ := exists_of_isOk
    (show (compileWith .standard "{{#s}}x{{>p}}{{u}}").isOk = true by decide +kernel)
  obtain ⟨b, hb⟩ := exists_of_isOk
    (show (compileWith .standard "{{>q}}{{/s}}y").isOk = true by decide +kernel)
  obtain ⟨ab, hab⟩ := exists_of_isOk (show
    (compileWith .standard ("{{#s}}x{{>p}}{{u}}" ++ "{{>q}}{{/s}}y")).isOk = true by decide +kernel)
  refine ⟨a, b, ab, ha, hb, hab, ?_⟩
  intro context whole front back log
  have hwhole : whole.outcome = .done () := by
    change (ab.run context Loader.empty {} 1).outcome = _
    rw [run_eq_renderAnew hab]
    exact Outcome.eq_done_of_isDone (by decide +kernel)
  have hfront : front.outcome = .done () := by
    change (a.run context Loader.empty {} 1).outcome = _
    rw [run_eq_renderAnew ha]
    exact Outcome.eq_done_of_isDone (by decide +kernel)
  have hback : back.outcome = .done () := by
    change (b.run context Loader.empty {} 0).outcome = _
    rw [run_eq_renderAnew hb]
    exact Outcome.eq_done_of_isDone (by decide +kernel)
  have hseam : Token.letters ab.tokens = Token.letters a.tokens ++ Token.letters b.tokens := by
    rw [(of_compileWith hab).2.1, (of_compileWith ha).2.1, (of_compileWith hb).2.1]
    decide +kernel
  have hnone : (match ((⟨.standard, Loader.empty, {}⟩ : Setting).expand (Scope.root context)
      (Token.ofText .standard 0 "{{#s}}x{{>p}}{{u}}")).outcome with
    | .done expanded => decide (Pairing.pendingAt expanded expanded.length = [])
    | _ => false) = true := by decide +kernel
  have hpending : ∀ expanded,
      ((a.setting Loader.empty {}).expand (Scope.root context) a.tokens).outcome =
        .done expanded → Pairing.pendingAt expanded expanded.length = [] := by
    intro expanded hdone
    rw [setting, (of_compileWith ha).1, (of_compileWith ha).2.1] at hdone
    rw [hdone] at hnone
    exact of_decide_eq_true hnone
  obtain ⟨-, hsaid⟩ := concatenated_renders_in_sequence ha hb hab hseam hpending
    (show whole.outcome ≠ .exhausted by rw [hwhole]; simp)
    (show front.outcome ≠ .exhausted by rw [hfront]; simp)
    (show back.outcome ≠ .exhausted by rw [hback]; simp)
  exact ⟨hwhole, hfront, hback, (hsaid hwhole).1, (hsaid hwhole).2.1⟩

end Template

end Stencil
