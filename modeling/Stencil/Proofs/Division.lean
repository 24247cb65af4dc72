import Stencil.Proofs.Pairing

set_option relaxedAutoImplicit false
set_option autoImplicit false

/-!
# How a text is divided among open blocks

While tokens are read, what has been read so far is divided: the nodes outside all blocks reach up
to the first opening tag, the nodes of each open block reach from behind its opening tag up to the
next one, and the innermost nodes reach up to where the reading is. What it means for nodes to reach
from one place to another is left open here, and so is what places are.

## Main definitions

* `Stencil.Division` — what nodes and opening tags of a stretch are like.
* `Stencil.Division.Of` — a state of a reading is divided like this.

## Main results

* `Stencil.Division.Of.modifyNodes` — nodes can be put behind the innermost ones.
* `Stencil.Division.Of.split` — a block can be taken out, with those inside it.
* `Stencil.Division.Of.finish` — all that has been read is one stretch, once no block is open.
-/

namespace Stencil

/-- What nodes and opening tags of a stretch are like. -/
structure Division where
  /-- The place where an opening tag, given with its position, starts. -/
  before : Tag → Nat → Nat
  /-- The place where an opening tag stops. -/
  after : Tag → Nat → Nat
  /-- What is known of an open block. -/
  Opened : BlockKind → Tag → Nat → Prop
  /-- The nodes, the newest first, reach from one place to another. -/
  Reach : Nat → List Node → Nat → Prop

namespace Division

variable (D : Division)

/-- What has been read from the place `start` on is divided among the nodes outside all blocks and
those of the open blocks. -/
inductive Of (start : Nat) : Builder → Nat → Prop where
  | root {nodes : List Node} {stop : Nat} (h : D.Reach start nodes stop) : Of start ⟨nodes, []⟩ stop
  | frame {root nodes : List Node} {frames : List Frame} {kind : BlockKind} {opener : Tag}
    {index stop : Nat} (houter : Of start ⟨root, frames⟩ (D.before opener index))
    (hopened : D.Opened kind opener index) (h : D.Reach (D.after opener index) nodes stop) :
    Of start ⟨root, ⟨kind, opener, index, nodes⟩ :: frames⟩ stop

/-- Where the innermost nodes start. -/
def innermost (start : Nat) (b : Builder) : Nat :=
  match b.frames with
  | [] => start
  | f :: _ => D.after f.opener f.index

namespace Of

variable {D} {start stop : Nat}

/-- Nodes can be put behind the innermost ones. -/
lemma modifyNodes {b : Builder} (hb : D.Of start b stop) {stop' : Nat}
    {g : List Node → List Node}
    (hg : ∀ nodes, D.Reach (D.innermost start b) nodes stop →
      D.Reach (D.innermost start b) (g nodes) stop') : D.Of start (b.modifyNodes g) stop' := by
  cases hb with
  | root h => exact .root (hg _ h)
  | frame houter hopened h => exact .frame houter hopened (hg _ h)

/-- **A block can be taken out.** What is around it reaches up to its opening tag, and what is
inside it is divided in turn. -/
theorem split {root : List Node} {gone rest : List Frame} {f : Frame}
    (h : D.Of start ⟨root, gone ++ f :: rest⟩ stop) :
    D.Of start ⟨root, rest⟩ (D.before f.opener f.index) ∧ D.Opened f.kind f.opener f.index ∧
      D.Of (D.after f.opener f.index) ⟨f.nodes, gone⟩ stop := by
  induction gone generalizing stop with
  | nil =>
    cases h with
    | frame houter hopened h => exact ⟨houter, hopened, .root h⟩
  | cons g gone ih =>
    cases h with
    | frame houter hopened h =>
      obtain ⟨hrest, hf, hin⟩ := ih houter
      exact ⟨hrest, hf, .frame hin hopened h⟩

/-- What is known of open blocks holds of each of them. -/
lemma opened {b : Builder} (hb : D.Of start b stop) :
    ∀ f ∈ b.frames, D.Opened f.kind f.opener f.index := by
  obtain ⟨root, frames⟩ := b
  intro f hf
  obtain ⟨gone, rest, rfl⟩ := List.append_of_mem hf
  exact hb.split.2.1

/-- The block that was opened last is flattened first. -/
lemma finish_cons (root : List Node) (f : Frame) (frames : List Frame) :
    (⟨root, f :: frames⟩ : Builder).finish =
      ((⟨root, frames⟩ : Builder).modifyNodes f.flattenOnto).finish := by
  simp only [Builder.finish, List.length_cons, Builder.giveUp_succ_cons,
    Builder.length_frames_modifyNodes]

/-- **All that has been read is one stretch** once no block is open, if a stretch goes on where
blocks are given up.

**Proof sketch.** The innermost block is put behind the nodes around it, which then reach as far as
it did. So there is one block less. -/
theorem finish {b : Builder} (hb : D.Of start b stop)
    (hflat : ∀ f ∈ b.frames, ∀ from' nodes more stop, D.Opened f.kind f.opener f.index →
      D.Reach from' nodes (D.before f.opener f.index) →
      D.Reach (D.after f.opener f.index) more stop →
      D.Reach from' (Frame.flattenOnto { f with nodes := more } nodes) stop) :
    D.Reach start b.finish.reverse stop := by
  induction hn : b.frames.length generalizing b stop with
  | zero =>
    cases hb with
    | root h => simpa [Builder.finish, Builder.giveUp] using h
    | frame => simp at hn
  | succ n ih =>
    cases hb with
    | root => simp at hn
    | @frame root nodes frames kind opener index stop houter hopened h =>
      obtain ⟨hf, hframes⟩ := List.forall_mem_cons.1 hflat
      rw [finish_cons]
      refine ih (houter.modifyNodes fun nodes hnodes => hf _ _ _ _ hopened hnodes h) ?_ ?_
      · cases frames with
        | nil => simp [Builder.modifyNodes]
        | cons g gs => exact List.forall_mem_cons.2 (List.forall_mem_cons.1 hframes)
      · simpa using hn

end Of

end Division

end Stencil
