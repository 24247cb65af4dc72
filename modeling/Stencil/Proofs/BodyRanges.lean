import Stencil.Proofs.Tiling

set_option relaxedAutoImplicit false
set_option autoImplicit false

/-!
# Bodies read on their own

A block knows the range of the tokens between its tags, and its body was read while the block, and
perhaps others around it, were open. Taken out and read on their own, the tokens in the range give
the same body: no closing tag among them belongs to a block outside, and what is still open in front
of the closing tag of the block is given up there as it is at the end of a text. This is so for the
blocks at all depths.

## Main results

* `Stencil.Node.Level.exists_readIn` — at every depth the nodes are those of the tokens in a range.
* `Stencil.Node.ReadIn.tags_around` — the tags of a block stand around the range of its body.
* `Stencil.Node.bodies_read_on_their_own` — what is in the range of a block gives its body.
-/

namespace Stencil

/-- Where two tokens stand that have others in front of them, between them and behind them. -/
lemma getElem?_of_eq_append {tokens before mid after : List Token} {t u : Token}
    (h : tokens = before ++ t :: (mid ++ u :: after)) :
    tokens[before.length]? = some t ∧ tokens[before.length + 1 + mid.length]? = some u := by
  subst h
  constructor
  · simp
  · have hsplit : before ++ t :: (mid ++ u :: after) = (before ++ t :: mid) ++ u :: after := by
      simp
    have hpos : before.length + 1 + mid.length = (before ++ t :: mid).length := by
      simp only [List.length_append, List.length_cons]
      omega
    rw [hsplit, hpos]
    simp

namespace Node

/-- At every depth the nodes are those of the tokens in a range.

**Proof sketch.** Induction on the depth: the body of a block is read in the range of the block. -/
lemma Level.exists_readIn {range : TokenRange} {tokens : List Token} {whole nodes : List Node}
    (h : Level whole nodes) (hread : ReadIn range tokens whole) :
    ∃ outer, ReadIn outer tokens nodes := by
  induction h with
  | whole => exact ⟨range, hread⟩
  | @body _ _ _ _ inner _ _ hmem ih =>
    obtain ⟨outer, houter⟩ := ih
    exact ⟨inner, (houter.block hmem).1⟩

/-- **The tags of a block stand around the range of its body**: the opening tag right in front of
it, and the closing tag right behind it. -/
theorem ReadIn.tags_around {range : TokenRange} {tokens : List Token} {nodes : List Node}
    (h : ReadIn range tokens nodes) {kind : BlockKind} {name : String} {span : Span}
    {inner : TokenRange} {body : List Node} (hmem : .block kind name span inner body ∈ nodes) :
    1 ≤ inner.start ∧
      (∃ opener : Tag, tokens[inner.start - 1]? = some (.tag opener) ∧
        opener.role = .opens kind ∧ opener.name = name) ∧
      ∃ closer : Tag, tokens[inner.stop]? = some (.tag closer) ∧
        closer.role = .closes ∧ closer.name = name := by
  obtain ⟨hinner, before, opener, closer, after, hslice, hok, hon, hck, hcn, hstart⟩ :=
    h.block hmem
  -- all tokens, divided at the two tags
  have htokens : tokens = (tokens.take range.start ++ before) ++ .tag opener ::
      (inner.slice tokens ++ .tag closer :: (after ++ tokens.drop range.stop)) := by
    have := TokenRange.append_slice h.within
    rw [hslice] at this
    simpa using this.symm
  obtain ⟨hopener, hcloser⟩ := getElem?_of_eq_append htokens
  have houter₁ := h.within.start_le_stop
  have houter₂ := h.within.stop_le_length
  have hinner₁ := hinner.within.start_le_stop
  have hinner₂ := hinner.within.stop_le_length
  have hfront : (tokens.take range.start ++ before).length = inner.start - 1 := by
    simp only [List.length_append, List.length_take]
    omega
  have hback : (tokens.take range.start ++ before).length + 1 + (inner.slice tokens).length =
      inner.stop := by
    simp only [hfront, TokenRange.slice, List.length_take, List.length_drop]
    omega
  rw [hfront] at hopener
  rw [hback] at hcloser
  exact ⟨by omega, ⟨opener, hopener, hok, hon⟩, closer, hcloser, hck, hcn⟩

/-- **Bodies are what their tokens give on their own.**

In front of the range of a block, at any depth, stands an opening tag of its kind and name, and
behind it a closing tag of its name. If the tokens in the range are read on their own, then this
does not fail, and the nodes are those of the body, except that their ranges count from the start of
the body.

**Proof sketch.** At every depth the nodes are read in a range of the tokens. A block among them has
its tags around its own range, and its body is read there; reading further on moves the ranges
along and changes nothing else. -/
theorem bodies_read_on_their_own {tokens : List Token} {whole : List Node}
    (h : ofTokens tokens = .ok whole) :
    ∀ nodes, Level whole nodes →
      ∀ kind name span inner body, .block kind name span inner body ∈ nodes →
        (1 ≤ inner.start ∧ inner.start ≤ inner.stop ∧ inner.stop < tokens.length) ∧
        (∃ opener : Tag, tokens[inner.start - 1]? = some (.tag opener) ∧
          opener.role = .opens kind ∧ opener.name = name) ∧
        (∃ closer : Tag, tokens[inner.stop]? = some (.tag closer) ∧
          closer.role = .closes ∧ closer.name = name) ∧
        ∃ alone, ofTokens (inner.slice tokens) = .ok alone ∧
          body = shiftAll inner.start alone := by
  intro nodes hlevel kind name span inner body hmem
  obtain ⟨outer, houter⟩ := hlevel.exists_readIn (readIn_all h)
  have hinner : ReadIn inner tokens body := (houter.block hmem).1
  obtain ⟨hpos, hopener, closer, hcloser, hclosing⟩ := houter.tags_around hmem
  have hlt : inner.stop < tokens.length := by
    by_contra hle
    rw [List.getElem?_eq_none (Nat.le_of_not_lt hle)] at hcloser
    cases hcloser
  refine ⟨⟨hpos, hinner.within.start_le_stop, hlt⟩, hopener, ⟨closer, hcloser, hclosing⟩, ?_⟩
  have hread := hinner.map_shiftAll
  cases halone : ofTokens (inner.slice tokens) with
  | ok alone =>
    rw [halone] at hread
    exact ⟨alone, rfl, (Except.ok.inj hread).symm⟩
  | error e =>
    rw [halone] at hread
    cases hread

/-- A case of a block inside another one of the same name, with a third one in it that never
closes. -/
theorem bodies_read_on_their_own_of_nested_blocks :
    let tag (role : Role) (name : Char) : Piece := .tag ⟨[], role, [], [name], []⟩
    let tokens := Token.ofPieces .standard 0 0 [tag (.opens .plain) 'a', tag (.opens .plain) 'a',
      tag .value 'x', tag (.opens .inverted) 'c', tag .value 'y', tag .closes 'a', tag .closes 'a']
    let inner : TokenRange := ⟨2, 5⟩
    ∃ whole nodes span body, ofTokens tokens = .ok whole ∧ Level whole nodes ∧
      .block .plain "a" span inner body ∈ nodes ∧
      inner.stop < tokens.length ∧
      (∃ opener : Tag, tokens[1]? = some (.tag opener) ∧ opener.role = .opens .plain ∧
        opener.name = "a") ∧
      (∃ closer : Tag, tokens[5]? = some (.tag closer) ∧ closer.role = .closes ∧
        closer.name = "a") ∧
      ∃ alone, ofTokens (inner.slice tokens) = .ok alone ∧ body = shiftAll 2 alone := by
  intro tag tokens inner
  let body : List Node :=
    [.value "x" "{{x}}" ⟨12, 17⟩, .text "{{^c}}{{y}}" ⟨17, 28⟩]
  let block : Node := .block .plain "a" ⟨6, 34⟩ inner body
  let whole : List Node := [.block .plain "a" ⟨0, 40⟩ ⟨1, 6⟩ [block]]
  have hwhole : ofTokens tokens = .ok whole := rfl
  have hlevel : Level whole [block] := .body .whole List.mem_cons_self
  have hmem : block ∈ [block] := List.mem_cons_self
  obtain ⟨⟨-, -, hlt⟩, hopener, hcloser, hbody⟩ :=
    bodies_read_on_their_own hwhole [block] hlevel .plain "a" ⟨6, 34⟩ inner body hmem
  exact ⟨whole, [block], ⟨6, 34⟩, body, hwhole, hlevel, hmem, hlt, hopener, hcloser, hbody⟩

end Node

end Stencil
