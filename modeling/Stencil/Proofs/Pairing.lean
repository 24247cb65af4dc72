import Mathlib.Data.List.Induction
import Stencil.Node.Pairing

set_option relaxedAutoImplicit false
set_option autoImplicit false

/-!
# Blocks and the tokens between their tags

The nodes of a block are read while other blocks around it are open. They are nevertheless the
nodes that the tokens between its two tags have when they are read on their own: a closing tag
between them that belonged to a block further out would have given up the block itself.

## Main definitions

* `Stencil.Node.readFrom` — the nodes of tokens that start at a given position.
* `Stencil.Builder.inside` — the state of a reading put inside an open block of another one.
* `Stencil.Builder.Local` — each open block holds what its own tokens give.
* `Stencil.Node.StandsIn` — a block stands among given tokens, and its body is read from those
  between its tags.
* `Stencil.Node.IsText` — the node is plain text.
* `Stencil.Node.FromTag` — a value or a partial is that of a tag among given tokens.

## Main results

* `Stencil.Builder.close_of_frames` — what a closing tag does to the open blocks.
* `Stencil.Builder.Local.run` — a reading keeps to what each open block holds on its own.
* `Stencil.Node.standsIn_of_readFrom` — every block that is read stands among the tokens.
* `Stencil.Node.fromTag_of_readFrom` — every value and every partial is that of a tag among the
  tokens.
-/

namespace Stencil

/-- The nodes of tokens of which the first one has the given position. -/
def Node.readFrom (start : Nat) (tokens : List Token) : Except Error (List Node) :=
  (Builder.empty.run start tokens).map Builder.finish

lemma Node.ofTokens_eq (tokens : List Token) : Node.ofTokens tokens = Node.readFrom 0 tokens :=
  rfl

lemma Node.readFrom_eq_ok {start : Nat} {tokens : List Token} {nodes : List Node} :
    Node.readFrom start tokens = .ok nodes ↔
      ∃ b, Builder.empty.run start tokens = .ok b ∧ b.finish = nodes := by
  unfold Node.readFrom
  cases Builder.empty.run start tokens <;> simp [Except.map]

namespace Builder

/-! ### Reading in parts -/

lemma run_cons (b : Builder) (i : Nat) (t : Token) (ts : List Token) :
    b.run i (t :: ts) = (b.step i t).bind fun c => c.run (i + 1) ts := by
  rw [run]
  cases b.step i t <;> rfl

/-- The tokens of two lists are read one list after the other. -/
lemma run_append (b : Builder) (i : Nat) (ts us : List Token) :
    b.run i (ts ++ us) = (b.run i ts).bind fun c => c.run (i + ts.length) us := by
  induction ts generalizing b i with
  | nil => rfl
  | cons t ts ih =>
    rw [List.cons_append, run_cons, run_cons]
    cases b.step i t with
    | error e => rfl
    | ok c =>
      change c.run (i + 1) (ts ++ us) = (c.run (i + 1) ts).bind _
      rw [ih, List.length_cons, show i + 1 + ts.length = i + (ts.length + 1) by omega]

lemma run_concat_eq_ok {b c : Builder} {i : Nat} {ts : List Token} {t : Token} :
    b.run i (ts ++ [t]) = .ok c ↔
      ∃ d, b.run i ts = .ok d ∧ d.step (i + ts.length) t = .ok c := by
  rw [run_append]
  cases b.run i ts with
  | error e => simp [Except.bind]
  | ok d =>
    change d.run _ [t] = _ ↔ _
    rw [run_cons]
    cases hd : d.step (i + ts.length) t <;> simp [Except.bind, run, hd]

/-- A reading that fails does so at one of the tokens. -/
lemma exists_of_run_eq_error {b : Builder} {i : Nat} {ts : List Token} {e : Error}
    (h : b.run i ts = .error e) : ∃ before t after c, ts = before ++ t :: after ∧
      b.run i before = .ok c ∧ c.step (i + before.length) t = .error e := by
  induction ts generalizing b i with
  | nil => cases h
  | cons t ts ih =>
    rw [run_cons] at h
    cases hstep : b.step i t with
    | error e' =>
      rw [hstep] at h
      cases h
      exact ⟨[], t, ts, b, rfl, rfl, hstep⟩
    | ok d =>
      rw [hstep] at h
      obtain ⟨before, u, after, c, rfl, hc, hu⟩ := ih h
      refine ⟨t :: before, u, after, c, rfl, ?_, ?_⟩
      · rw [run_cons, hstep]
        exact hc
      · rwa [List.length_cons, show i + (before.length + 1) = i + 1 + before.length by omega]

/-! ### A reading inside an open block -/

/-- The state `b` of a reading inside the open block `f` of the reading `outer`. What `b` holds
outside all its blocks are the nodes of `f`. -/
def inside (b : Builder) (f : Frame) (outer : Builder) : Builder :=
  ⟨outer.root, b.frames ++ { f with nodes := b.root } :: outer.frames⟩

lemma modifyNodes_inside (b : Builder) (f : Frame) (outer : Builder)
    (g : List Node → List Node) :
    (b.inside f outer).modifyNodes g = (b.modifyNodes g).inside f outer := by
  obtain ⟨root, frames⟩ := b
  cases frames <;> rfl

/-- If nodes were changed inside a block, then they were inside it before. -/
lemma eq_inside_of_modifyNodes {b c : Builder} {f : Frame} {outer : Builder}
    {g : List Node → List Node} (h : b.modifyNodes g = c.inside f outer) :
    ∃ d : Builder, b = d.inside f outer ∧ c = d.modifyNodes g := by
  obtain ⟨root, frames⟩ := b
  obtain ⟨croot, cframes⟩ := c
  cases frames with
  | nil => simp [modifyNodes, inside] at h
  | cons x xs =>
    cases cframes with
    | nil =>
      simp only [modifyNodes, inside, List.nil_append, Builder.mk.injEq, List.cons.injEq,
        Frame.mk.injEq] at h
      obtain ⟨rfl, ⟨h₁, h₂, h₃, rfl⟩, rfl⟩ := h
      refine ⟨⟨x.nodes, []⟩, ?_, rfl⟩
      simp [inside, ← h₁, ← h₂, ← h₃]
    | cons y ys =>
      simp only [modifyNodes, inside, List.cons_append, Builder.mk.injEq,
        List.cons.injEq] at h
      obtain ⟨rfl, rfl, rfl⟩ := h
      exact ⟨⟨croot, x :: ys⟩, rfl, rfl⟩

/-! ### Giving up and closing blocks -/

@[simp]
lemma length_frames_modifyNodes (b : Builder) (g : List Node → List Node) :
    (b.modifyNodes g).frames.length = b.frames.length := by
  unfold modifyNodes
  split <;> simp_all

lemma giveUp_succ_cons (n : Nat) (root : List Node) (f : Frame) (fs : List Frame) :
    (⟨root, f :: fs⟩ : Builder).giveUp (n + 1) =
      ((⟨root, fs⟩ : Builder).modifyNodes f.flattenOnto).giveUp n := rfl

/-- Once all open blocks are given up, none is open. -/
lemma frames_giveUp {b : Builder} {n : Nat} (h : b.frames.length = n) :
    (b.giveUp n).frames = [] := by
  induction n generalizing b with
  | zero => exact List.length_eq_zero_iff.1 h
  | succ n ih =>
    obtain ⟨root, _ | ⟨f, fs⟩⟩ := b
    · simp at h
    · rw [giveUp_succ_cons]
      apply ih
      simpa using h

/-- The blocks inside another one are given up as they would be outside of it. -/
lemma giveUp_inside {b : Builder} {n : Nat} (h : b.frames.length = n) (f : Frame)
    (outer : Builder) : (b.inside f outer).giveUp n = (b.giveUp n).inside f outer := by
  induction n generalizing b with
  | zero => rfl
  | succ n ih =>
    obtain ⟨root, _ | ⟨g, gs⟩⟩ := b
    · simp at h
    · have hin : (⟨root, g :: gs⟩ : Builder).inside f outer =
          ⟨outer.root, g :: ((⟨root, gs⟩ : Builder).inside f outer).frames⟩ := rfl
      rw [hin, giveUp_succ_cons, giveUp_succ_cons, ← ih (by simpa using h),
        ← modifyNodes_inside]
      rfl

/-- **What a closing tag does.** The blocks inside the one that it closes are given up, and the
block becomes a node behind the nodes before it. -/
lemma close_of_frames {b : Builder} {gone rest : List Frame} {f : Frame} {closer : Tag} (i : Nat)
    (hb : b.frames = gone ++ f :: rest) (hgone : ∀ g ∈ gone, g.opener.name ≠ closer.name)
    (hf : f.opener.name = closer.name) :
    b.close closer i = (⟨b.root, rest⟩ : Builder).push
      (.block f.kind f.opener.name (f.opener.span.cover closer.span) ⟨f.index + 1, i⟩
        (⟨f.nodes, gone⟩ : Builder).finish) := by
  have hfind : b.frames.findIdx? (fun frame => frame.opener.name == closer.name) =
      some gone.length := by
    rw [hb, List.findIdx?_append, List.findIdx?_eq_none_iff.2 (by simpa using hgone)]
    simp [List.findIdx?_cons, hf]
  have hin : b = (⟨f.nodes, gone⟩ : Builder).inside f ⟨b.root, rest⟩ := by
    obtain ⟨root, frames⟩ := b
    simpa [inside] using hb
  have hgive : b.giveUp gone.length =
      ⟨b.root, { f with nodes := (⟨f.nodes, gone⟩ : Builder).finish.reverse } :: rest⟩ := by
    have hnil := frames_giveUp (b := ⟨f.nodes, gone⟩) rfl
    rw [hin, giveUp_inside (b := ⟨f.nodes, gone⟩) rfl]
    simp only [inside, hnil, finish, List.nil_append, List.reverse_reverse]
  unfold close
  rw [hfind]
  dsimp only
  rw [hgive]
  simp only [closeInnermost, Frame.close, List.reverse_reverse]

/-- A closing tag that closes no open block is plain text. -/
lemma close_of_forall_ne {b : Builder} {closer : Tag} (i : Nat)
    (h : ∀ g ∈ b.frames, g.opener.name ≠ closer.name) :
    b.close closer i = b.pushText closer.raw closer.span := by
  unfold close
  rw [List.findIdx?_eq_none_iff.2 (by simpa using h)]

/-- A closing tag closes no open block, or it closes the innermost one of its name. -/
lemma forall_ne_or_split (frames : List Frame) (name : String) :
    (∀ g ∈ frames, g.opener.name ≠ name) ∨
      ∃ gone f rest, frames = gone ++ f :: rest ∧ f.opener.name = name ∧
        ∀ g ∈ gone, g.opener.name ≠ name := by
  induction frames with
  | nil => exact .inl (by simp)
  | cons f fs ih =>
    by_cases hf : f.opener.name = name
    · exact .inr ⟨[], f, fs, rfl, hf, by simp⟩
    · rcases ih with h | ⟨gone, g, rest, rfl, hg, hgone⟩
      · exact .inl (List.forall_mem_cons.2 ⟨hf, h⟩)
      · exact .inr ⟨f :: gone, g, rest, rfl, hg, List.forall_mem_cons.2 ⟨hf, hgone⟩⟩

/-! ### The cases of a step -/

end Builder

/-- The node of a token that neither opens nor closes a block. -/
def Token.leaf? : Token → Option Node
  | .text content span => some (.text content span)
  | .tag t =>
    match t.role with
    | .value => some (.value t.name t.raw t.span)
    | .includes => some (.inclusion t.name t.span)
    | .opens _ | .closes => none

namespace Builder

/-- What reading a token at the position `i` can do. -/
inductive Reads (b : Builder) (i : Nat) : Token → Builder → Prop where
  /-- The token is a node of its own. -/
  | leaf {t : Token} {n : Node} (h : t.leaf? = some n) : Reads b i t (b.push n)
  /-- The token opens a block. -/
  | opens {u : Tag} {kind : BlockKind} (hu : u.role = .opens kind)
      (h : b.frames.length < maxBlockDepth) :
      Reads b i (.tag u) ⟨b.root, ⟨kind, u, i, []⟩ :: b.frames⟩
  /-- The token is a closing tag of which no block is open. -/
  | stray {u : Tag} (hu : u.role = .closes) (h : ∀ g ∈ b.frames, g.opener.name ≠ u.name) :
      Reads b i (.tag u) (b.push (.text u.raw u.span))
  /-- The token closes the block `f` and gives up those inside it. -/
  | closes {u : Tag} {gone rest : List Frame} {f : Frame} (hu : u.role = .closes)
      (hb : b.frames = gone ++ f :: rest) (hgone : ∀ g ∈ gone, g.opener.name ≠ u.name)
      (hf : f.opener.name = u.name) :
      Reads b i (.tag u) ((⟨b.root, rest⟩ : Builder).push
        (.block f.kind f.opener.name (f.opener.span.cover u.span) ⟨f.index + 1, i⟩
          (⟨f.nodes, gone⟩ : Builder).finish))

/-- A token is read without failure exactly in these cases. -/
theorem step_eq_ok_iff {b c : Builder} {i : Nat} {t : Token} :
    b.step i t = .ok c ↔ b.Reads i t c := by
  constructor
  · intro h
    cases t with
    | text content span =>
      cases h
      exact .leaf (n := .text content span) rfl
    | tag u =>
      cases hu : u.role with
      | value =>
        simp only [step, hu, Except.ok.injEq] at h
        exact h ▸ .leaf (by simp [Token.leaf?, hu])
      | includes =>
        simp only [step, hu, Except.ok.injEq] at h
        exact h ▸ .leaf (by simp [Token.leaf?, hu])
      | opens kind =>
        simp only [step, hu] at h
        split at h
        · cases h
        · next hlt =>
          cases h
          exact .opens hu (Nat.lt_of_not_le hlt)
      | closes =>
        simp only [step, hu, Except.ok.injEq] at h
        rcases forall_ne_or_split b.frames u.name with hne | ⟨gone, f, rest, hb, hf, hgone⟩
        · rw [close_of_forall_ne i hne] at h
          exact h ▸ .stray hu hne
        · rw [close_of_frames i hb hgone hf] at h
          exact h ▸ .closes hu hb hgone hf
  · intro h
    cases h with
    | @leaf _ n h =>
      cases t with
      | text content span => cases h; rfl
      | tag u =>
        cases hu : u.role <;> simp only [Token.leaf?, hu, reduceCtorEq, Option.some.injEq] at h
        · simp only [step, hu, h]
        · simp only [step, hu, h]
    | opens hu h => simp only [step, hu, if_neg (Nat.not_le.2 h)]
    | stray hu h =>
      simp only [step, hu, close_of_forall_ne i h]
      rfl
    | closes hu hb hgone hf => simp only [step, hu, close_of_frames i hb hgone hf]

/-- A token cannot be read exactly if it opens a block and too many are open. -/
theorem step_eq_error_iff {b : Builder} {i : Nat} {t : Token} {e : Error} :
    b.step i t = .error e ↔ ∃ u kind, t = .tag u ∧ u.role = .opens kind ∧
      maxBlockDepth ≤ b.frames.length ∧ e = .nestingTooDeep maxBlockDepth := by
  constructor
  · intro h
    cases t with
    | text content span => cases h
    | tag u =>
      cases hu : u.role <;> simp only [step, hu, reduceCtorEq] at h
      split at h
      · next hmax =>
        cases h
        exact ⟨u, _, rfl, hu, hmax, rfl⟩
      · cases h
  · rintro ⟨u, kind, rfl, hu, hmax, rfl⟩
    simp only [step, hu, if_pos hmax]

/-! ### What the open blocks hold -/

/-- Each open block holds what the tokens since its opening tag give when they are read on their
own. `read` are all tokens read so far, of which the first one has the position `start`. -/
def Local (start : Nat) (read : List Token) (b : Builder) : Prop :=
  ∀ (c : Builder) (f : Frame) (outer : Builder), b = c.inside f outer →
    ∃ before inner, read = before ++ .tag f.opener :: inner ∧ f.index = start + before.length ∧
      f.opener.role = .opens f.kind ∧ empty.run (f.index + 1) inner = .ok c

/-- **A step keeps to what each open block holds on its own.**

**Proof sketch.** An open block after the step was open before it, or the step opened it. In the
first case the step does inside the block what it does outside of it: a closing tag that left the
block open belongs to no block further out. -/
lemma Local.step {start : Nat} {read : List Token} {b b' : Builder} {t : Token}
    (hb : b.Local start read) (h : b.Reads (start + read.length) t b') :
    b'.Local start (read ++ [t]) := by
  intro c f outer hc
  -- it is enough to have the block open before the step, with what is in it reading the token
  have keep : ∀ d : Builder, b = d.inside f outer →
      (d.Reads (start + read.length) t c) →
      ∃ before inner, read ++ [t] = before ++ .tag f.opener :: inner ∧
        f.index = start + before.length ∧ f.opener.role = .opens f.kind ∧
        empty.run (f.index + 1) inner = .ok c := by
    intro d hd hstep
    obtain ⟨before, inner, rfl, hi, hk, hrun⟩ := hb d f outer hd
    refine ⟨before, inner ++ [t], by simp, hi, hk, ?_⟩
    refine run_concat_eq_ok.2 ⟨d, hrun, step_eq_ok_iff.2 ?_⟩
    have hpos : f.index + 1 + inner.length =
        start + (before ++ Token.tag f.opener :: inner).length := by
      simp only [List.length_append, List.length_cons]
      omega
    rwa [hpos]
  cases h with
  | leaf h =>
    obtain ⟨d, hd, rfl⟩ := eq_inside_of_modifyNodes hc
    exact keep d hd (.leaf h)
  | @opens u kind hu h =>
    obtain ⟨root, frames⟩ := c
    cases frames with
    | nil =>
      simp only [inside, List.nil_append, Builder.mk.injEq, List.cons.injEq,
        Frame.mk.injEq] at hc
      obtain ⟨-, ⟨rfl, rfl, hi, rfl⟩, -⟩ := hc
      exact ⟨read, [], rfl, hi.symm, hu, rfl⟩
    | cons g gs =>
      simp only [inside, List.cons_append, Builder.mk.injEq, List.cons.injEq] at hc
      obtain ⟨hroot, rfl, hframes⟩ := hc
      refine keep ⟨root, gs⟩ ?_ ?_
      · obtain ⟨broot, bframes⟩ := b
        simp only at hroot hframes
        rw [hroot, hframes]
        rfl
      · refine .opens hu (Nat.lt_of_le_of_lt ?_ h)
        simp [hframes]
  | @stray u hu h =>
    obtain ⟨d, hd, rfl⟩ := eq_inside_of_modifyNodes hc
    refine keep d hd (.stray hu fun g hg => h g ?_)
    rw [hd]
    exact List.mem_append_left _ hg
  | @closes u gone rest g hu hframes hgone hg =>
    obtain ⟨d, hd, rfl⟩ := eq_inside_of_modifyNodes hc
    simp only [inside, Builder.mk.injEq] at hd
    obtain ⟨hroot, hrest⟩ := hd
    refine keep ⟨d.root, gone ++ g :: d.frames⟩ ?_ ?_
    · obtain ⟨broot, bframes⟩ := b
      simp only at hroot hframes
      simp [inside, hroot, hframes, hrest]
    · exact .closes hu rfl hgone hg

/-- **A reading keeps to what each open block holds on its own.** -/
lemma Local.run {start : Nat} {read : List Token} {b : Builder}
    (h : empty.run start read = .ok b) : b.Local start read := by
  induction read using List.reverseRecOn generalizing b with
  | nil =>
    cases h
    intro c f outer hc
    simp [empty, inside] at hc
  | append_singleton read t ih =>
    obtain ⟨d, hd, hstep⟩ := run_concat_eq_ok.1 h
    exact (ih hd).step (step_eq_ok_iff.1 hstep)

end Builder

/-! ### Plain text behind nodes -/

lemma Span.cover_assoc (a b c : Span) : (a.cover b).cover c = a.cover (b.cover c) := by
  simp only [cover, Nat.min_assoc, Nat.max_assoc]

/-- Two stretches of text one after the other are one stretch, from the first to the second one. -/
lemma Node.pushText_pushText_of_ne (nodes : List Node) {content content' : String}
    (h : content ≠ "") (h' : content' ≠ "") (span span' : Span) :
    pushText (pushText nodes content span) content' span' =
      pushText nodes (content ++ content') (span.cover span') := by
  have hne : content ++ content' ≠ "" := by simp [h]
  unfold pushText
  rw [if_neg h, if_neg h', if_neg hne]
  cases nodes with
  | nil => rfl
  | cons n nodes =>
    cases n with
    | text before place => simp [Span.cover_assoc, String.append_assoc]
    | value name raw place => rfl
    | block kind name place inner body => rfl
    | inclusion name place => rfl

/-- The node is plain text. -/
def Node.IsText : Node → Prop
  | text _ _ => True
  | value _ _ _ => False
  | block _ _ _ _ _ => False
  | inclusion _ _ => False

lemma Node.not_isText_of_head {nodes : List Node}
    (h : ∀ content span rest, nodes = .text content span :: rest → False) :
    ∀ n ∈ nodes.head?, ¬ n.IsText := by
  intro n hn htext
  obtain ⟨rest, rfl⟩ := List.head?_eq_some_iff.1 hn
  cases n with
  | text content span => exact h content span rest rfl
  | value name raw span => exact htext
  | block kind name span inner body => exact htext
  | inclusion name span => exact htext

/-! ### A property of all nodes -/

section All

variable {P : Node → Prop} (hP : ∀ content span, P (.text content span))

include hP

lemma Node.forall_pushText {nodes : List Node} (h : ∀ n ∈ nodes, P n) (content : String)
    (span : Span) : ∀ n ∈ Node.pushText nodes content span, P n := by
  unfold Node.pushText
  split
  · exact h
  · split
    · exact List.forall_mem_cons.2 ⟨hP _ _, (List.forall_mem_cons.1 h).2⟩
    · exact List.forall_mem_cons.2 ⟨hP _ _, h⟩

lemma Node.forall_push {nodes : List Node} {n : Node} (h : ∀ m ∈ nodes, P m) (hn : P n) :
    ∀ m ∈ Node.push nodes n, P m := by
  cases n with
  | text content span => exact Node.forall_pushText hP h content span
  | value name raw span => exact List.forall_mem_cons.2 ⟨hn, h⟩
  | block kind name span inner body => exact List.forall_mem_cons.2 ⟨hn, h⟩
  | inclusion name span => exact List.forall_mem_cons.2 ⟨hn, h⟩

lemma Frame.forall_pushUnclosed {nodes : List Node} {n : Node} (h : ∀ m ∈ nodes, P m)
    (hn : P n) : ∀ m ∈ Frame.pushUnclosed nodes n, P m := by
  cases n with
  | value name raw span => exact Node.forall_pushText hP h raw span
  | text content span => exact Node.forall_push hP h hn
  | block kind name span inner body => exact Node.forall_push hP h hn
  | inclusion name span => exact Node.forall_push hP h hn

lemma Frame.forall_flattenOnto {f : Frame} {nodes : List Node} (hf : ∀ n ∈ f.nodes, P n)
    (h : ∀ n ∈ nodes, P n) : ∀ n ∈ f.flattenOnto nodes, P n := by
  have main : ∀ (more before : List Node), (∀ n ∈ more, P n) → (∀ n ∈ before, P n) →
      ∀ n ∈ more.foldl Frame.pushUnclosed before, P n := by
    intro more
    induction more with
    | nil => exact fun _ _ hbefore => hbefore
    | cons m more ih =>
      intro before hmore hbefore
      obtain ⟨hm, hmore⟩ := List.forall_mem_cons.1 hmore
      exact ih _ hmore (Frame.forall_pushUnclosed hP hbefore hm)
  refine main _ _ ?_ (Node.forall_pushText hP h _ _)
  simpa using hf

end All

namespace Builder

/-- A property holds of all nodes read so far, inside and outside the open blocks. -/
def All (P : Node → Prop) (b : Builder) : Prop :=
  (∀ n ∈ b.root, P n) ∧ ∀ f ∈ b.frames, ∀ n ∈ f.nodes, P n

namespace All

variable {P : Node → Prop}

lemma empty : Builder.empty.All P := by
  simp [All, Builder.empty]

lemma mono {Q : Node → Prop} {b : Builder} (hb : b.All P) (h : ∀ n, P n → Q n) : b.All Q :=
  ⟨fun n hn => h n (hb.1 n hn), fun f hf n hn => h n (hb.2 f hf n hn)⟩

lemma modifyNodes {b : Builder} {g : List Node → List Node} (hb : b.All P)
    (hg : ∀ nodes : List Node, (∀ n ∈ nodes, P n) → ∀ n ∈ g nodes, P n) :
    (b.modifyNodes g).All P := by
  obtain ⟨root, _ | ⟨f, fs⟩⟩ := b
  · exact ⟨hg _ hb.1, by simp [Builder.modifyNodes]⟩
  · obtain ⟨hroot, hframes⟩ := hb
    obtain ⟨hf, hfs⟩ := List.forall_mem_cons.1 hframes
    exact ⟨hroot, List.forall_mem_cons.2 ⟨hg _ hf, hfs⟩⟩

section Texts

variable (hP : ∀ content span, P (.text content span))

include hP

lemma push {b : Builder} {n : Node} (hb : b.All P) (hn : P n) : (b.push n).All P :=
  hb.modifyNodes fun _ h => Node.forall_push hP h hn

lemma giveUp {b : Builder} (n : Nat) (hb : b.All P) : (b.giveUp n).All P := by
  induction n generalizing b with
  | zero => exact hb
  | succ n ih =>
    obtain ⟨root, _ | ⟨f, fs⟩⟩ := b
    · exact hb
    · obtain ⟨hroot, hframes⟩ := hb
      obtain ⟨hf, hfs⟩ := List.forall_mem_cons.1 hframes
      have hrest : (⟨root, fs⟩ : Builder).All P := ⟨hroot, hfs⟩
      exact ih (hrest.modifyNodes fun _ h => Frame.forall_flattenOnto hP hf h)

lemma finish {b : Builder} (hb : b.All P) : ∀ n ∈ b.finish, P n := by
  intro n hn
  exact (hb.giveUp hP b.frames.length).1 n (List.mem_reverse.1 hn)

/-- A step keeps a property of all nodes if the new node has it: that of the token, or the block
that the token closes. -/
lemma step {b c : Builder} {i : Nat} {t : Token} (hb : b.All P) (h : b.Reads i t c)
    (hleaf : ∀ n, t.leaf? = some n → P n)
    (hblock : ∀ u gone f rest, t = .tag u → u.role = .closes → b.frames = gone ++ f :: rest →
      f.opener.name = u.name → P (.block f.kind f.opener.name (f.opener.span.cover u.span)
        ⟨f.index + 1, i⟩ (⟨f.nodes, gone⟩ : Builder).finish)) : c.All P := by
  cases h with
  | leaf h => exact hb.push hP (hleaf _ h)
  | opens hu h => exact ⟨hb.1, List.forall_mem_cons.2 ⟨by simp, hb.2⟩⟩
  | stray hu h => exact hb.push hP (hP _ _)
  | @closes u gone rest f hu hframes hgone hf =>
    have hrest : (⟨b.root, rest⟩ : Builder).All P :=
      ⟨hb.1, fun g hg => hb.2 g (by simp [hframes, hg])⟩
    exact hrest.push hP (hblock u gone f rest rfl hu hframes hf)

end Texts

end All

end Builder

/-! ### Blocks among the tokens -/

/-- A block stands among the given tokens, of which the first one has the position `start`: it
runs from an opening tag of its name and kind to a closing tag of its name, and its body are the
nodes of the tokens between the two. -/
def Node.StandsIn (start : Nat) (tokens : List Token) : Node → Prop
  | .block kind name span inner body => ∃ before opener mid closer after,
      tokens = before ++ .tag opener :: (mid ++ .tag closer :: after) ∧
      opener.role = .opens kind ∧ opener.name = name ∧
      closer.role = .closes ∧ closer.name = name ∧
      span = opener.span.cover closer.span ∧
      inner = ⟨start + before.length + 1, start + before.length + 1 + mid.length⟩ ∧
      Node.readFrom inner.start mid = .ok body
  | _ => True

/-- What stands among tokens still does when more of them follow. -/
lemma Node.StandsIn.append {start : Nat} {tokens : List Token} {n : Node}
    (h : n.StandsIn start tokens) (more : List Token) : n.StandsIn start (tokens ++ more) := by
  cases n with
  | block kind name span inner body =>
    obtain ⟨before, opener, mid, closer, after, rfl, h⟩ := h
    exact ⟨before, opener, mid, closer, after ++ more, by simp, h⟩
  | text content span => trivial
  | value name raw span => trivial
  | inclusion name span => trivial

namespace Builder

/-- **Every block read so far stands among the tokens read so far.** -/
lemma all_standsIn_of_run {start : Nat} {read : List Token} {b : Builder}
    (h : empty.run start read = .ok b) : b.All (Node.StandsIn start read) := by
  induction read using List.reverseRecOn generalizing b with
  | nil =>
    cases h
    exact .empty
  | append_singleton read t ih =>
    obtain ⟨d, hd, hstep⟩ := run_concat_eq_ok.1 h
    have hall : d.All (Node.StandsIn start (read ++ [t])) := (ih hd).mono fun n hn => hn.append [t]
    refine hall.step (fun _ _ => trivial) (step_eq_ok_iff.1 hstep) ?_ ?_
    · intro n hn
      rcases t with ⟨content, span⟩ | u
      · cases hn; trivial
      · cases hu : u.role <;> simp only [Token.leaf?, hu, reduceCtorEq, Option.some.injEq] at hn
        · cases hn; trivial
        · cases hn; trivial
    · rintro u gone f rest rfl hu hframes hf
      -- the tokens since the opening tag, read on their own
      obtain ⟨before, inner, rfl, hi, hk, hrun⟩ :=
        Local.run hd ⟨f.nodes, gone⟩ f ⟨d.root, rest⟩ (by
          obtain ⟨droot, dframes⟩ := d
          simpa [inside] using hframes)
      refine ⟨before, f.opener, inner, u, [], by simp, hk, rfl, hu, hf.symm, rfl, ?_, ?_⟩
      · simp only [TokenRange.mk.injEq, List.length_append, List.length_cons]
        omega
      · exact Node.readFrom_eq_ok.2 ⟨_, hrun, rfl⟩

end Builder

/-- **Every block stands among the tokens that it was read from.** Its body is what the tokens
between its two tags give when they are read on their own. -/
theorem Node.standsIn_of_readFrom {start : Nat} {tokens : List Token} {nodes : List Node}
    (h : Node.readFrom start tokens = .ok nodes) : ∀ n ∈ nodes, n.StandsIn start tokens := by
  obtain ⟨b, hb, rfl⟩ := Node.readFrom_eq_ok.1 h
  exact (Builder.all_standsIn_of_run hb).finish fun _ _ => trivial

/-! ### Values and partials among the tokens -/

/-- A value or a partial is that of a tag among the given tokens. -/
def Node.FromTag (tokens : List Token) : Node → Prop
  | .value name raw span => ∃ u, .tag u ∈ tokens ∧ u.role = .value ∧ u.name = name ∧ u.raw = raw ∧
      u.span = span
  | .inclusion name span => ∃ u, .tag u ∈ tokens ∧ u.role = .includes ∧ u.name = name ∧
      u.span = span
  | _ => True

lemma Node.FromTag.mono {tokens tokens' : List Token} {n : Node} (h : n.FromTag tokens)
    (hsub : tokens ⊆ tokens') : n.FromTag tokens' := by
  cases n with
  | value name raw span =>
    obtain ⟨u, hu, h⟩ := h
    exact ⟨u, hsub hu, h⟩
  | inclusion name span =>
    obtain ⟨u, hu, h⟩ := h
    exact ⟨u, hsub hu, h⟩
  | text content span => trivial
  | block kind name span inner body => trivial

lemma Node.fromTag_of_leaf {t : Token} {n : Node} (h : t.leaf? = some n) : n.FromTag [t] := by
  cases t with
  | text content span =>
    cases h
    trivial
  | tag u =>
    cases hu : u.role <;> simp only [Token.leaf?, hu, reduceCtorEq, Option.some.injEq] at h
    · subst h
      exact ⟨u, List.mem_cons_self, hu, rfl, rfl, rfl⟩
    · subst h
      exact ⟨u, List.mem_cons_self, hu, rfl, rfl⟩

/-- **Every value and every partial is that of a tag among the tokens.** -/
theorem Node.fromTag_of_readFrom {start : Nat} {tokens : List Token} {nodes : List Node}
    (h : Node.readFrom start tokens = .ok nodes) : ∀ n ∈ nodes, n.FromTag tokens := by
  have main : ∀ (read : List Token) (b : Builder), Builder.empty.run start read = .ok b →
      b.All (Node.FromTag read) := by
    intro read
    induction read using List.reverseRecOn with
    | nil =>
      intro b hb
      cases hb
      exact .empty
    | append_singleton read t ih =>
      intro b hb
      obtain ⟨c, hc, hstep⟩ := Builder.run_concat_eq_ok.1 hb
      have hall : c.All (Node.FromTag (read ++ [t])) :=
        (ih c hc).mono fun n hn => hn.mono (List.subset_append_left read [t])
      exact hall.step (fun _ _ => trivial) (Builder.step_eq_ok_iff.1 hstep)
        (fun n hn => (Node.fromTag_of_leaf hn).mono (List.subset_append_right read [t]))
        fun _ _ _ _ _ _ _ _ => trivial
  obtain ⟨b, hb, rfl⟩ := Node.readFrom_eq_ok.1 h
  exact (main tokens b hb).finish fun _ _ => trivial

end Stencil
