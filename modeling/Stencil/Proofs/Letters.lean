import Stencil.Proofs.Lockstep
import Stencil.Proofs.Partials
import Stencil.Proofs.Position

set_option relaxedAutoImplicit false
set_option autoImplicit false

/-!
# What tokens say apart from their places

Plain text may be cut into tokens in several ways, and the same tag may stand at several places.
None of this matters for the nodes: plain text is joined to the plain text before it. What counts
are the characters of plain text and the tags as wholes, here called the letters of the tokens.

## Main definitions

* `Stencil.Letter`, `Stencil.Token.letters` — the letters of tokens.
* `Stencil.Token.Alike` — tokens with the same letters, seen tag by tag.
* `Stencil.Comparison.lettered` — compares the readings of such tokens.

## Main results

* `Stencil.Token.alike_of_letters_eq` — equal letters come from alike tokens.
* `Stencil.Token.letters_ofText` — how deep a text is included makes no difference to its letters.
* `Stencil.Token.partials_eq_of_letters` — tokens with the same letters have the same partials.
* `Stencil.Node.ofTokens_lettered` — tokens with the same letters have the same nodes, apart from
  places, and the bodies of their blocks have the same letters again.
-/

namespace Stencil

/-- A character of plain text, or a tag. -/
inductive Letter where
  | char (c : Char)
  | tag (role : Role) (name raw : String)
  deriving DecidableEq

/-- The tags are equal apart from their places. -/
structure Tag.Alike (u u' : Tag) : Prop where
  role : u.role = u'.role
  name : u.name = u'.name
  raw : u.raw = u'.raw

namespace Token

/-- The letters of tokens. -/
def letters : List Token → List Letter
  | [] => []
  | text content _ :: ts => content.toList.map .char ++ letters ts
  | tag u :: ts => .tag u.role u.name u.raw :: letters ts

lemma letters_append (ts us : List Token) : letters (ts ++ us) = letters ts ++ letters us := by
  induction ts with
  | nil => rfl
  | cons t ts ih =>
    cases t with
    | text content span => simp only [List.cons_append, letters, ih, List.append_assoc]
    | tag u => simp only [List.cons_append, letters, ih]

/-! ### Stretches of plain text -/

/-- Consecutive stretches of plain text, as tokens. -/
def ofTexts (texts : List (String × Span)) : List Token := texts.map fun p => .text p.1 p.2

/-- The text of consecutive stretches. -/
def written : List (String × Span) → String
  | [] => ""
  | p :: texts => p.1 ++ written texts

lemma letters_ofTexts (texts : List (String × Span)) :
    letters (ofTexts texts) = (written texts).toList.map .char := by
  induction texts with
  | nil => rfl
  | cons p texts ih =>
    change p.1.toList.map Letter.char ++ letters (ofTexts texts) = _
    rw [ih, ← List.map_append, ← String.toList_append]
    rfl

/-- All tokens up to the first tag are stretches of plain text. -/
lemma exists_ofTexts (ts : List Token) :
    (∃ texts, ts = ofTexts texts) ∨ ∃ texts u rest, ts = ofTexts texts ++ .tag u :: rest := by
  induction ts with
  | nil => exact .inl ⟨[], rfl⟩
  | cons t ts ih =>
    cases t with
    | tag u => exact .inr ⟨[], u, ts, rfl⟩
    | text content span =>
      rcases ih with ⟨texts, rfl⟩ | ⟨texts, u, rest, rfl⟩
      · exact .inl ⟨(content, span) :: texts, rfl⟩
      · exact .inr ⟨(content, span) :: texts, u, rest, rfl⟩

/-! ### Tokens with the same letters -/

/-- The tokens have the same text before the first tag, the same first tag, and so on. -/
inductive Alike : List Token → List Token → Prop where
  | texts {xs ys : List (String × Span)} (h : written xs = written ys) :
    Alike (ofTexts xs) (ofTexts ys)
  | tag {xs ys : List (String × Span)} {u u' : Tag} {ts us : List Token}
    (h : written xs = written ys) (hu : u.Alike u') (hrest : Alike ts us) :
    Alike (ofTexts xs ++ .tag u :: ts) (ofTexts ys ++ .tag u' :: us)

/-- Characters before the first tag end at the same place in equal letters. -/
lemma chars_append_tag_inj {cs cs' : List Char} {u u' : Tag} {rest rest' : List Letter}
    (h : cs.map Letter.char ++ Letter.tag u.role u.name u.raw :: rest =
      cs'.map Letter.char ++ Letter.tag u'.role u'.name u'.raw :: rest') :
    cs = cs' ∧ u.Alike u' ∧ rest = rest' := by
  induction cs generalizing cs' with
  | nil =>
    cases cs' with
    | nil =>
      simp only [List.map_nil, List.nil_append, List.cons.injEq, Letter.tag.injEq] at h
      exact ⟨rfl, ⟨h.1.1, h.1.2.1, h.1.2.2⟩, h.2⟩
    | cons c' cs' => simp at h
  | cons c cs ih =>
    cases cs' with
    | nil => simp at h
    | cons c' cs' =>
      simp only [List.map_cons, List.cons_append, List.cons.injEq, Letter.char.injEq] at h
      obtain ⟨rfl, hu, hrest⟩ := ih h.2
      exact ⟨by rw [h.1], hu, hrest⟩

/-- There is no tag among characters. -/
lemma chars_ne_chars_append_tag {cs cs' : List Char} {u : Tag} {rest : List Letter} :
    cs.map Letter.char ≠ cs'.map Letter.char ++ Letter.tag u.role u.name u.raw :: rest := by
  intro h
  have hmem : Letter.tag u.role u.name u.raw ∈ cs.map Letter.char := by
    rw [h]
    simp
  simp at hmem

/-- **Equal letters come from alike tokens.** -/
theorem alike_of_letters_eq {ts us : List Token} (h : letters ts = letters us) : Alike ts us := by
  induction hn : ts.length using Nat.strongRecOn generalizing ts us with
  | ind n ih =>
    subst hn
    rcases exists_ofTexts ts with ⟨xs, rfl⟩ | ⟨xs, u, ts, rfl⟩
    · rcases exists_ofTexts us with ⟨ys, rfl⟩ | ⟨ys, u', us, rfl⟩
      · rw [letters_ofTexts, letters_ofTexts] at h
        have hchars := (List.map_inj_right (f := Letter.char) (by simp)).1 h
        exact .texts (String.toList_injective hchars)
      · rw [letters_append, letters_ofTexts, letters_ofTexts] at h
        exact absurd h chars_ne_chars_append_tag
    · rcases exists_ofTexts us with ⟨ys, rfl⟩ | ⟨ys, u', us, rfl⟩
      · rw [letters_append, letters_ofTexts, letters_ofTexts] at h
        exact absurd h.symm chars_ne_chars_append_tag
      · rw [letters_append, letters_append, letters_ofTexts, letters_ofTexts] at h
        obtain ⟨hchars, hu, hrest⟩ := chars_append_tag_inj h
        refine .tag (String.toList_injective hchars) hu (ih ts.length ?_ hrest rfl)
        simp only [List.length_append, List.length_cons]
        omega

lemma Alike.letters_eq {ts us : List Token} (h : Alike ts us) : letters ts = letters us := by
  induction h with
  | texts h => rw [letters_ofTexts, letters_ofTexts, h]
  | tag h hu _ ih =>
    rw [letters_append, letters_append, letters_ofTexts, letters_ofTexts, h]
    simp only [letters, ih, hu.role, hu.name, hu.raw]

/-- Pieces have the same letters wherever they start. -/
lemma letters_ofPieces (d : Delimiters) (level level' start start' : Nat) (ps : List Piece) :
    letters (ofPieces d level start ps) = letters (ofPieces d level' start' ps) := by
  induction ps generalizing start start' with
  | nil => rfl
  | cons p ps ih =>
    have hrest := ih (start + Text.byteLength (p.write d)) (start' + Text.byteLength (p.write d))
    cases p with
    | text content => simp only [ofPieces, ofPiece, letters, hrest]
    | tag form => simp only [ofPieces, ofPiece, letters, hrest]

/-- **How deep a text is included makes no difference to its letters.** -/
theorem letters_ofText (d : Delimiters) (level level' : Nat) (text : String) :
    letters (ofText d level text) = letters (ofText d level' text) :=
  letters_ofPieces d level level' 0 0 _

/-- **Tokens with the same letters have the same partials.** -/
lemma partials_eq_of_letters {ts us : List Token} (h : letters ts = letters us) :
    partials ts = partials us := by
  have main : ∀ ts : List Token, partials ts = (letters ts).filterMap fun
      | .tag .includes name _ => some name
      | _ => none := by
    intro ts
    induction ts with
    | nil => rfl
    | cons t ts ih =>
      cases t with
      | text content span =>
        have hchars : (content.toList.map Letter.char).filterMap (fun
            | .tag .includes name _ => some name
            | _ => none) = ([] : List String) := by
          rw [List.filterMap_map]
          exact List.filterMap_eq_nil_iff.2 fun c _ => rfl
        rw [letters, List.filterMap_append, hchars, List.nil_append, ← ih]
        rfl
      | tag u =>
        unfold partials at ih ⊢
        rw [letters, List.filterMap_cons, List.filterMap_cons, ih]
        cases hu : u.role <;> simp [partial?, hu]
  rw [main, main, h]

end Token

/-! ### Plain text behind nodes -/

/-- Two stretches of text one after the other are one stretch. -/
lemma Node.pushText_pushText (content content' : String) (span span' : Span) :
    ∃ place, ∀ nodes, pushText (pushText nodes content span) content' span' =
      pushText nodes (content ++ content') place := by
  by_cases h : content = ""
  · subst h
    exact ⟨span', fun nodes => by simp [pushText]⟩
  · by_cases h' : content' = ""
    · subst h'
      exact ⟨span, fun nodes => by simp [pushText, h]⟩
    · exact ⟨span.cover span', fun nodes => pushText_pushText_of_ne nodes h h' span span'⟩

namespace Builder

lemma modifyNodes_modifyNodes (b : Builder) (f g : List Node → List Node) :
    (b.modifyNodes f).modifyNodes g = b.modifyNodes fun nodes => g (f nodes) := by
  obtain ⟨root, frames⟩ := b
  cases frames <;> rfl

/-- Stretches of plain text are read like a single one. -/
lemma run_ofTexts (b : Builder) (i : Nat) (texts : List (String × Span)) :
    ∃ span, b.run i (Token.ofTexts texts) = .ok (b.pushText (Token.written texts) span) := by
  induction texts generalizing b i with
  | nil =>
    refine ⟨⟨0, 0⟩, ?_⟩
    obtain ⟨root, frames⟩ := b
    cases frames <;> rfl
  | cons p texts ih =>
    obtain ⟨span, hrun⟩ := ih (b.pushText p.1 p.2) (i + 1)
    obtain ⟨place, hplace⟩ := Node.pushText_pushText p.1 (Token.written texts) p.2 span
    refine ⟨place, ?_⟩
    change (b.pushText p.1 p.2).run (i + 1) (Token.ofTexts texts) = _
    rw [hrun]
    simp only [pushText, modifyNodes_modifyNodes, hplace]
    rfl

end Builder

/-! ### Reading tokens with the same letters -/

/-- Compares the readings of two lists of tokens: the letters up to corresponding positions are
the same ones, and spans do not count. -/
def Comparison.lettered (ts us : List Token) : Comparison where
  Spans _ _ := True
  Blocks inner _ inner' _ :=
    Token.letters (ts.take inner.start) = Token.letters (us.take inner'.start) ∧
      Token.letters (ts.take inner.stop) = Token.letters (us.take inner'.stop)
  Positions j j' := Token.letters (ts.take (j + 1)) = Token.letters (us.take (j' + 1))
  cover _ _ := trivial

namespace Comparison

variable {ts us : List Token}

/-- Reading stretches of plain text, in both readings. -/
lemma Builders.run_ofTexts {b b' : Builder} (hb : (lettered ts us).Builders b b') (i i' : Nat)
    {xs ys : List (String × Span)} (h : Token.written xs = Token.written ys) :
    ∃ c c', b.run i (Token.ofTexts xs) = .ok c ∧ b'.run i' (Token.ofTexts ys) = .ok c' ∧
      (lettered ts us).Builders c c' := by
  obtain ⟨span, hrun⟩ := b.run_ofTexts i xs
  obtain ⟨span', hrun'⟩ := b'.run_ofTexts i' ys
  rw [← h] at hrun'
  exact ⟨_, _, hrun, hrun', hb.push (.text trivial)⟩

/-- **Reading tokens with the same letters.** Both readings succeed with states that agree, or both
fail in the same way.

**Proof sketch.** Up to the next tag there is plain text, which is read like a single stretch. The
letters up to this tag are the same ones in both readings, so that the block that it opens or
closes lies between corresponding positions. -/
lemma Builders.run_alike {b b' : Builder} {rest rest' : List Token} (h : Token.Alike rest rest')
    (hb : (lettered ts us).Builders b b') {before before' : List Token}
    (hts : ts = before ++ rest) (hus : us = before' ++ rest')
    (hbefore : Token.letters before = Token.letters before') :
    (∃ c c', b.run before.length rest = .ok c ∧ b'.run before'.length rest' = .ok c' ∧
      (lettered ts us).Builders c c') ∨
    ∃ e, b.run before.length rest = .error e ∧ b'.run before'.length rest' = .error e := by
  induction h generalizing b b' before before' with
  | texts h => exact .inl (hb.run_ofTexts _ _ h)
  | @tag xs ys u u' rest rest' h hu _ ih =>
    have htexts : Token.letters (before ++ Token.ofTexts xs) =
        Token.letters (before' ++ Token.ofTexts ys) := by
      rw [Token.letters_append, Token.letters_append, Token.letters_ofTexts,
        Token.letters_ofTexts, hbefore, h]
    have htag : Token.letters (before ++ Token.ofTexts xs ++ [.tag u]) =
        Token.letters (before' ++ Token.ofTexts ys ++ [.tag u']) := by
      rw [Token.letters_append (before ++ _), Token.letters_append (before' ++ _), htexts]
      simp only [Token.letters, hu.role, hu.name, hu.raw]
    have hts' : ts = before ++ Token.ofTexts xs ++ [.tag u] ++ rest := by simp [hts]
    have hus' : us = before' ++ Token.ofTexts ys ++ [.tag u'] ++ rest' := by simp [hus]
    -- the letters in front of the tag, and those up to it, as parts of all tokens
    have hpos : Token.letters (ts.take (before.length + (Token.ofTexts xs).length)) =
        Token.letters (us.take (before'.length + (Token.ofTexts ys).length)) := by
      rw [hts', hus', List.append_assoc _ [_], List.append_assoc _ [_],
        List.take_left' (List.length_append ..), List.take_left' (List.length_append ..)]
      exact htexts
    have hnext : (lettered ts us).Positions (before.length + (Token.ofTexts xs).length)
        (before'.length + (Token.ofTexts ys).length) := by
      change Token.letters (ts.take _) = Token.letters (us.take _)
      rw [hts', hus', List.take_left' (by simp; omega), List.take_left' (by simp; omega)]
      exact htag
    obtain ⟨c, c', hc, hc', hcc⟩ := hb.run_ofTexts before.length before'.length h
    rw [Builder.run_append, Builder.run_append, hc, hc']
    change (∃ d d', Builder.run c _ _ = .ok d ∧ Builder.run c' _ _ = .ok d' ∧ _) ∨
      ∃ e, Builder.run c _ _ = .error e ∧ Builder.run c' _ _ = .error e
    rw [Builder.run_cons, Builder.run_cons]
    have ht : (lettered ts us).Tokens (.tag u) (.tag u') :=
      .tag ⟨hu.role, hu.name, hu.raw, trivial⟩
    cases hstep : c.step (before.length + (Token.ofTexts xs).length) (.tag u) with
    | error e =>
      rw [hcc.step_error ht hstep]
      exact .inr ⟨e, rfl, rfl⟩
    | ok d =>
      obtain ⟨d', hd', hdd⟩ := hcc.step ht hnext (fun hj _ => ⟨hj, hpos⟩)
        (Builder.step_eq_ok_iff.1 hstep)
      rw [Builder.step_eq_ok_iff.2 hd']
      have := ih hdd hts' hus' htag
      simpa [Except.bind, Nat.add_assoc] using this

end Comparison

/-! ### Nodes of tokens with the same letters -/

/-- The letters in front of a range and those in it are the letters up to its end. -/
lemma TokenRange.letters_take_stop {r : TokenRange} {tokens : List Token} (h : r.Within tokens) :
    Token.letters (tokens.take r.stop) =
      Token.letters (tokens.take r.start) ++ Token.letters (r.slice tokens) := by
  have hsplit : tokens.take r.stop = tokens.take r.start ++ r.slice tokens := by
    have := h.start_le_stop
    rw [slice, ← List.take_add, Nat.add_sub_cancel' this]
  rw [hsplit, Token.letters_append]

/-- The nodes are equal apart from places, and the bodies of blocks have the same letters. The
nodes stand among the tokens `ts` and `us`. -/
inductive Node.Lettered (ts us : List Token) : Node → Node → Prop where
  | text (content : String) (span span' : Span) :
    Lettered ts us (.text content span) (.text content span')
  | value (name raw : String) (span span' : Span) :
    Lettered ts us (.value name raw span) (.value name raw span')
  | block (kind : BlockKind) (name : String) (span span' : Span) {inner inner' : TokenRange}
    (body body' : List Node)
    (h : Token.letters (inner.slice ts) = Token.letters (inner'.slice us)) :
    Lettered ts us (.block kind name span inner body) (.block kind name span' inner' body')
  | inclusion (name : String) (span span' : Span) :
    Lettered ts us (.inclusion name span) (.inclusion name span')

/-- Nodes that compare are equal apart from places, since ranges that start and stop at
corresponding positions hold the same letters. -/
lemma Node.lettered_of_forall₂ {ts us : List Token} {nodes nodes' : List Node}
    (hwithin : ∀ kind name span inner body, .block kind name span inner body ∈ nodes →
      inner.Within ts)
    (hwithin' : ∀ kind name span inner body, .block kind name span inner body ∈ nodes' →
      inner.Within us)
    (h : List.Forall₂ (Comparison.lettered ts us).Nodes nodes nodes') :
    List.Forall₂ (Node.Lettered ts us) nodes nodes' := by
  induction h with
  | nil => exact .nil
  | @cons n n' nodes nodes' hn _ ih =>
    refine .cons ?_ (ih (fun _ _ _ _ _ hmem => hwithin _ _ _ _ _ (List.mem_cons_of_mem _ hmem))
      fun _ _ _ _ _ hmem => hwithin' _ _ _ _ _ (List.mem_cons_of_mem _ hmem))
    cases hn with
    | text => exact .text _ _ _
    | value => exact .value _ _ _ _
    | inclusion => exact .inclusion _ _ _
    | @block kind name span span' inner inner' body body' _ hb =>
      obtain ⟨hstart, hstop⟩ := hb
      rw [TokenRange.letters_take_stop (hwithin _ _ _ _ _ List.mem_cons_self),
        TokenRange.letters_take_stop (hwithin' _ _ _ _ _ List.mem_cons_self), hstart] at hstop
      exact .block _ _ _ _ _ _ (List.append_cancel_left hstop)

/-- **Tokens with the same letters have the same nodes**, apart from places, and the bodies of their
blocks have the same letters again. -/
theorem Node.ofTokens_lettered {ts us : List Token} (h : Token.letters ts = Token.letters us) :
    (∃ nodes nodes', Node.ofTokens ts = .ok nodes ∧ Node.ofTokens us = .ok nodes' ∧
      List.Forall₂ (Node.Lettered ts us) nodes nodes') ∨
    ∃ e, Node.ofTokens ts = .error e ∧ Node.ofTokens us = .error e := by
  rcases Comparison.Builders.run_alike (Token.alike_of_letters_eq h)
      (Comparison.Builders.empty (R := Comparison.lettered ts us)) (List.nil_append ts).symm
      (List.nil_append us).symm rfl with ⟨c, c', hc, hc', hcc⟩ | ⟨e, he, he'⟩
  · have hts : Node.ofTokens ts = .ok c.finish := congrArg (Except.map Builder.finish) hc
    have hus : Node.ofTokens us = .ok c'.finish := congrArg (Except.map Builder.finish) hc'
    refine .inl ⟨c.finish, c'.finish, hts, hus, ?_⟩
    refine Node.lettered_of_forall₂ ?_ ?_ hcc.finish
    · intro kind name span inner body hmem
      exact ((Node.readIn_all hts).block hmem).1.within
    · intro kind name span inner body hmem
      exact ((Node.readIn_all hus).block hmem).1.within
  · exact .inr ⟨e, congrArg (Except.map Builder.finish) he,
      congrArg (Except.map Builder.finish) he'⟩

end Stencil
