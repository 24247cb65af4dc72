import Mathlib.Data.Finset.Card
import Mathlib.Data.Finset.Filter
import Mathlib.Data.Prod.Lex
import Mathlib.Order.WellFounded
import Stencil.Proofs.Names
import Stencil.Proofs.Rereading
import Stencil.Proofs.Scanning

set_option relaxedAutoImplicit false
set_option autoImplicit false

/-!
# Which renderings come to an end

How deep partials may include partials is limited within one block only. A partial that has no
value yet is kept, and when it gets one in the body of a block, it is put in with a fresh limit.
As long as values stay once they are there, this happens at most once for each name. But a path
of keys can lose its value in a body, where another context hides its first key. A rendering goes
on for ever exactly if names are lost again and again.

## Main definitions

* `Stencil.Setting.namesInPlay` — the names of all partials that can come up.
* `Stencil.Setting.Confined` — a block has nothing but these partials.

## Main results

* `Stencil.Setting.exists_loses_of_endless` — names are lost again and again in an endless nest.
* `Stencil.Template.halts_of_dotless` — without paths of keys every rendering comes to an end.
* `Stencil.Template.halts_iff_not_endless_losses` — exactly which renderings come to an end.
* `Stencil.Template.exhausted_of_hidden_partials` — one that does not.
-/

namespace Stencil

namespace Setting

variable (set : Setting)

/-- The names of the partials in the text of a value, if it has one. -/
def namesIn (v : Value) : List String :=
  match set.text? v with
  | some text => Token.partials (Token.ofText set.delimiters 0 text)
  | none => []

/-- The names of all partials that can come up when tokens are rendered with a context: those
among the tokens, and those in the texts of all values. -/
def namesInPlay (tokens : List Token) (context : Context) : List String :=
  Token.partials tokens ++ context.parts.flatMap set.namesIn

/-- A block has its own nodes, and nothing but the given names can come up in it. -/
structure Confined (names : List String) (c : Call) : Prop where
  read : Node.ReadIn c.range c.tokens c.nodes
  tokens : ∀ name ∈ Token.partials (c.range.slice c.tokens), name ∈ names
  texts : ∀ v ∈ c.scope.parts, ∀ name ∈ set.namesIn v, name ∈ names

variable {set}

/-- The partials after the expansion are in play, and have no values. -/
lemma Confined.expand {names : List String} {c : Call} (h : set.Confined names c)
    {expanded : List Token}
    (he : (set.expand c.scope (c.range.slice c.tokens)).outcome = .done expanded) :
    ∀ name ∈ Token.partials expanded, name ∈ names ∧ c.scope.resolve name = none := by
  have main : ∀ t ∈ expanded, (∀ name ∈ t.partial?, name ∈ names) ∧
      ∀ name ∈ t.partial?, c.scope.resolve name = none := by
    refine set.forall_of_expandTo_done (Q := fun t => ∀ name ∈ t.partial?, name ∈ names) ?_ ?_ he
    · intro tag value text _ _ hv htext t ht name hname
      have hmem : name ∈ Token.partials (Token.ofText set.delimiters (tag.level + 1) text) :=
        List.mem_filterMap.2 ⟨t, ht, hname⟩
      rw [Token.partials_ofText _ _ 0] at hmem
      refine h.texts value (Scope.parts_subset_of_resolve hv (Value.mem_parts_self value)) name ?_
      simpa only [namesIn, htext] using hmem
    · intro t ht name hname
      exact h.tokens name (List.mem_filterMap.2 ⟨t, ht, hname⟩)
  intro name hname
  obtain ⟨t, ht, hname⟩ := List.mem_filterMap.1 hname
  exact ⟨(main t ht).1 name hname, (main t ht).2 name hname⟩

/-- The partials in a body are in play, and have no values around it. -/
lemma Confined.body {names : List String} {c c' : Call} (h : set.Confined names c)
    (hcall : set.Calls c c') :
    ∀ name ∈ Token.partials (c'.range.slice c'.tokens),
      name ∈ names ∧ c.scope.resolve name = none := by
  obtain ⟨-, expanded, before, opener, closer, after, _, _, he, hsplit, -, -, -⟩ :=
    hcall.body h.read
  intro name hname
  refine h.expand he name ?_
  subst hsplit
  obtain ⟨t, ht, hr, hn⟩ := Token.mem_partials.1 hname
  exact Token.mem_partials.2 ⟨t, by simp [ht], hr, hn⟩

/-- A body holds no new values. -/
lemma Calls.parts_subset {c c' : Call} (h : set.Calls c c') : c'.scope.parts ⊆ c.scope.parts := by
  obtain ⟨nodes, tokens, before, after, depth, -, hjobs, -⟩ := h
  obtain ⟨kind, name, span, value, s, -, hv, hs, hc'⟩ :=
    mem_jobs_body (c := c') (by rw [hjobs]; simp)
  rw [hc']
  exact Value.parts_subset_of_mem_scopes hs (Scope.parts_subset_of_resolve hv)

/-- What is confined stays so in the bodies. -/
lemma Confined.calls {names : List String} {c c' : Call} (h : set.Confined names c)
    (hcall : set.Calls c c') : set.Confined names c' :=
  ⟨(hcall.body h.read).1, fun name hname => (h.body hcall name hname).1,
    fun v hmem => h.texts v (hcall.parts_subset hmem)⟩

/-- What is confined stays so along a nest of bodies. -/
lemma Confined.path {names : List String} {path : Nat → Call} (h : set.Confined names (path 0))
    (hcalls : ∀ i, set.Calls (path i) (path (i + 1))) (i : Nat) :
    set.Confined names (path i) := by
  induction i with
  | zero => exact h
  | succ i ih => exact ih.calls (hcalls i)

/-! ### What gets less -/

/-- The names without a value. -/
def unbound (names : List String) (scope : Scope) : Finset String :=
  names.toFinset.filter fun name => scope.resolve name = none

variable (set) in
/-- The number of tokens after the expansion. -/
def spread (c : Call) : Nat :=
  match (set.expand c.scope (c.range.slice c.tokens)).outcome with
  | .done expanded => expanded.length
  | _ => 0

/-- If nothing is lost, then no name is without value that had one before. -/
lemma unbound_subset {names : List String} {scope scope' : Scope}
    (h : ∀ name ∈ names, ¬ scope.Loses scope' name) :
    unbound names scope' ⊆ unbound names scope := by
  intro name hname
  obtain ⟨hmem, hnone⟩ := Finset.mem_filter.1 hname
  refine Finset.mem_filter.2 ⟨hmem, ?_⟩
  by_contra hne
  exact h name (List.mem_toFinset.1 hmem) ⟨Option.isSome_iff_ne_none.2 hne, hnone⟩

/-- If nothing is put into a body, then it is shorter than the block around it, by at least the
two tags of its own. -/
lemma spread_lt_of_calls {c c' : Call} (hc : Node.ReadIn c.range c.tokens c.nodes)
    (hcall : set.Calls c c')
    (h : ∀ name ∈ Token.partials (c'.range.slice c'.tokens), c'.scope.resolve name = none) :
    set.spread c' < set.spread c := by
  obtain ⟨-, expanded, before, opener, closer, after, _, _, he, hsplit, -, -, -⟩ := hcall.body hc
  have hbody : set.spread c' = (c'.range.slice c'.tokens).length := by
    unfold spread expand
    rw [set.expandTo_of_unbound _ h]
    rfl
  have hblock : set.spread c = expanded.length := by
    unfold spread
    rw [he]
  rw [hbody, hblock, hsplit]
  simp only [List.length_append, List.length_cons]
  omega

/-- **In a body there are fewer names without value, or as many and fewer tokens,** unless a name
has been lost.

**Proof sketch.** If a partial of the body has a value there, then it had none around the body,
since it would have been put in. Otherwise nothing is put in, and the body is shorter. -/
lemma lex_of_calls {names : List String} {c c' : Call} (h : set.Confined names c)
    (hcall : set.Calls c c') (hkept : ∀ name ∈ names, ¬ c.scope.Loses c'.scope name) :
    Prod.Lex (· < ·) (· < ·) ((unbound names c'.scope).card, set.spread c')
      ((unbound names c.scope).card, set.spread c) := by
  have hsub := unbound_subset hkept
  by_cases hnew : ∀ name ∈ Token.partials (c'.range.slice c'.tokens),
      c'.scope.resolve name = none
  · have hlt := spread_lt_of_calls h.read hcall hnew
    rcases (Finset.card_le_card hsub).lt_or_eq with hcard | hcard
    · exact .left _ _ hcard
    · rw [hcard]
      exact .right _ hlt
  · push Not at hnew
    obtain ⟨name, hname, hsome⟩ := hnew
    obtain ⟨hmem, hnone⟩ := h.body hcall name hname
    have hbefore : name ∈ unbound names c.scope :=
      Finset.mem_filter.2 ⟨List.mem_toFinset.2 hmem, hnone⟩
    have hinside : name ∉ unbound names c'.scope := fun hin => hsome (Finset.mem_filter.1 hin).2
    apply Prod.Lex.left
    apply Finset.card_lt_card
    exact (Finset.ssubset_iff_of_subset hsub).2 ⟨name, hbefore, hinside⟩

/-- **Names are lost again and again in an endless nest of bodies.** -/
theorem exists_loses_of_endless {names : List String} {path : Nat → Call}
    (h : set.Confined names (path 0)) (hcalls : ∀ i, set.Calls (path i) (path (i + 1))) (i : Nat) :
    ∃ j ≥ i, ∃ name ∈ names, (path j).scope.Loses (path (j + 1)).scope name := by
  by_contra hnone
  push Not at hnone
  have hwf : WellFounded (Prod.Lex (α := Nat) (β := Nat) (· < ·) (· < ·)) :=
    WellFounded.prod_lex Nat.lt_wfRel.wf Nat.lt_wfRel.wf
  refine (wellFounded_iff_isEmpty_descending_chain.1 hwf).false
    ⟨fun k => ((unbound names (path (i + k)).scope).card, set.spread (path (i + k))), ?_⟩
  intro k
  exact lex_of_calls (h.path hcalls (i + k)) (hcalls (i + k))
    (hnone (i + k) (Nat.le_add_right i k))

/-- Names that are lost in a nest of bodies are paths that are hidden there. -/
lemma exists_hides_of_endless {names : List String} {path : Nat → Call}
    (h : set.Confined names (path 0)) (hcalls : ∀ i, set.Calls (path i) (path (i + 1))) (i : Nat) :
    ∃ j ≥ i, ∃ name ∈ names, (path j).scope.Loses (path (j + 1)).scope name ∧
      ∃ c : Context, (path (j + 1)).scope = (path j).scope.overlay c ∧ c.Hides name := by
  obtain ⟨j, hj, name, hname, hloses⟩ := exists_loses_of_endless h hcalls i
  obtain ⟨-, _, _, _, _, _, kind, value, -, -, -, -, hs⟩ :=
    (hcalls j).body (h.path hcalls j).read
  exact ⟨j, hj, name, hname, hloses, Scope.exists_hides_of_loses hs hloses⟩

/-- A rendering comes to an end if names are not lost again and again in any nest of bodies. -/
lemma halts_iff_of_confined {names : List String} {c : Call} (h : set.Confined names c) :
    set.Halts c ↔ ¬ ∃ path : Nat → Call, path 0 = c ∧
      (∀ i, set.Calls (path i) (path (i + 1))) ∧
      ∀ i, ∃ j ≥ i, ∃ name ∈ names, (path j).scope.Loses (path (j + 1)).scope name ∧
        ∃ c : Context, (path (j + 1)).scope = (path j).scope.overlay c ∧ c.Hides name := by
  rw [halts_iff_acc, ← not_iff_not, not_not, not_acc_iff_exists_descending_chain]
  constructor
  · rintro ⟨path, h₀, hcalls⟩
    exact ⟨path, h₀, hcalls, exists_hides_of_endless (h₀ ▸ h) hcalls⟩
  · rintro ⟨path, h₀, hcalls, -⟩
    exact ⟨path, h₀, hcalls⟩

end Setting

/-! ### Whole templates -/

namespace Template

/-- The names of all partials that can come up when the template is rendered. -/
def namesInPlay (t : Template) (context : Context) (loader : Loader) (options : Options) :
    List String :=
  (t.setting loader options).namesInPlay t.tokens context

lemma confined_entry {d : Delimiters} {source : String} {t : Template}
    (h : compileWith d source = .ok t) (context : Context) (loader : Loader)
    (options : Options) :
    (t.setting loader options).Confined (t.namesInPlay context loader options)
      (t.entry context) := by
  refine ⟨readIn_of_compileWith h, ?_, ?_⟩
  · intro name hname
    have hname' : name ∈ Token.partials t.tokens := by
      rwa [entry, TokenRange.slice_all] at hname
    exact List.mem_append_left _ hname'
  · intro v hv name hname
    rw [entry, Scope.parts_root] at hv
    exact List.mem_append_right _ (List.mem_flatMap.2 ⟨v, hv, hname⟩)

/-- **Without paths of keys every rendering comes to an end.** -/
theorem halts_of_dotless {d : Delimiters} {source : String} {t : Template}
    (h : compileWith d source = .ok t) (context : Context) (loader : Loader) (options : Options)
    (hnames : ∀ name ∈ t.namesInPlay context loader options, '.' ∉ name.toList) :
    ∃ depth, (t.run context loader options depth).outcome ≠ .exhausted := by
  have hconfined := confined_entry h context loader options
  refine (Setting.halts_iff_of_confined hconfined).2 ?_
  rintro ⟨path, h₀, hcalls, hlost⟩
  obtain ⟨j, -, name, hname, -, c, -, hhides⟩ := hlost 0
  exact Context.not_hides_of_dotless (hnames name hname) hhides

/-- **Exactly which renderings come to an end.**

A rendering comes to an end with some grant, in an output or in a failure, if and only if there is
no endless nest of bodies in which, again and again, the name of a partial has a value around a
body and none inside it, since it is a path that the context of the body hides. -/
theorem halts_iff_not_endless_losses {d : Delimiters} {source : String} {t : Template}
    (h : compileWith d source = .ok t) (context : Context) (loader : Loader)
    (options : Options) :
    (∃ depth, (t.run context loader options depth).outcome ≠ .exhausted) ↔
      ¬ ∃ path : Nat → Call, path 0 = t.entry context ∧
        (∀ i, (t.setting loader options).Calls (path i) (path (i + 1))) ∧
        ∀ i, ∃ j ≥ i, ∃ name ∈ t.namesInPlay context loader options,
          (path j).scope.Loses (path (j + 1)).scope name ∧
            ∃ c : Context, (path (j + 1)).scope = (path j).scope.overlay c ∧ c.Hides name :=
  Setting.halts_iff_of_confined (confined_entry h context loader options)

/-- A case where the partial gets its value inside the block, and brings the same block again. -/
theorem halts_iff_not_endless_losses_of_late_value :
    ∃ t, compileWith .standard "{{#a}}{{>p}}{{/a}}" = .ok t ∧
      let context := Context.ofList [("a", .list [Context.ofList
        [("p", .inline "{{#a}}{{>q.r}}{{/a}}"), ("q", .map Context.empty)]])]
      ((∃ depth, (t.run context Loader.empty {} depth).outcome ≠ .exhausted) ↔
        ¬ ∃ path : Nat → Call, path 0 = t.entry context ∧
          (∀ i, (t.setting Loader.empty {}).Calls (path i) (path (i + 1))) ∧
          ∀ i, ∃ j ≥ i, ∃ name ∈ t.namesInPlay context Loader.empty {},
            (path j).scope.Loses (path (j + 1)).scope name ∧
              ∃ c : Context, (path (j + 1)).scope = (path j).scope.overlay c ∧ c.Hides name) := by
  obtain ⟨t, ht⟩ := exists_of_isOk
    (show (compileWith .standard "{{#a}}{{>p}}{{/a}}").isOk = true by decide +kernel)
  exact ⟨t, ht, halts_iff_not_endless_losses ht _ _ _⟩

end Template

/-! ### A rendering without end

Each of two contexts hides the path that leads to the partial of the other one. The blocks of `t`
around the partials change nothing, except that bodies nest faster than scopes grow. -/

namespace Hiding

/-- A text inside `n` blocks of `t`. -/
def padded : Nat → String → String
  | 0, text => text
  | n + 1, text => "{{#t}}" ++ padded n text ++ "{{/t}}"

/-- The context of the block `x`: the path `c.d` leads to a partial, and `a` is hidden. -/
def x (n : Nat) : Context :=
  .ofList [("t", .bool true), ("a", .scalar ""),
    ("c", .map (.ofList [("d", .inline (padded n "{{#y}}{{>a.b}}{{/y}}"))]))]

/-- The context of the block `y`: the path `a.b` leads to a partial, and `c` is hidden. -/
def y (n : Nat) : Context :=
  .ofList [("t", .bool true), ("c", .scalar ""),
    ("a", .map (.ofList [("b", .inline (padded n "{{#x}}{{>c.d}}{{/x}}"))]))]

/-- The context of the template. -/
def context (n : Nat) : Context :=
  .ofList [("t", .bool true), ("x", .map (x n)), ("y", .map (y n))]

/-- The partials of both texts are put in one at a time. -/
def setting : Setting := ⟨.standard, Loader.empty, ⟨false, 1⟩⟩

/-! #### The tokens of the texts -/

/-- The block `block` around the partial `name`, inside `n` blocks of `t`. -/
inductive Wrapped (block name : String) : Nat → List Token → Prop where
  | core {o u c : Tag} (ho : o.role = .opens .plain) (hu : u.role = .includes)
    (hc : c.role = .closes) (hon : o.name = block) (hun : u.name = name) (hcn : c.name = block) :
    Wrapped block name 0 (.tag o :: ([.tag u] ++ [.tag c]))
  | wrap {n : Nat} {o c : Tag} {mid : List Token} (ho : o.role = .opens .plain)
    (hc : c.role = .closes) (hon : o.name = "t") (hcn : c.name = "t")
    (h : Wrapped block name n mid) : Wrapped block name (n + 1) (.tag o :: (mid ++ [.tag c]))

/-- The pieces of such a text. -/
def pieces (block name : List Char) : Nat → List Piece
  | 0 => .tag ⟨[], .opens .plain, [], block, []⟩ ::
      ([.tag ⟨[], .includes, [], name, []⟩] ++ [.tag ⟨[], .closes, [], block, []⟩])
  | n + 1 => .tag ⟨[], .opens .plain, [], ['t'], []⟩ ::
      (pieces block name n ++ [.tag ⟨[], .closes, [], ['t'], []⟩])

lemma scan_padded {block name : List Char} {text : String}
    (h : ∀ rest, Piece.scan .standard (text.toList ++ rest) =
      pieces block name 0 ++ Piece.scan .standard rest) (n : Nat) (rest : List Char) :
    Piece.scan .standard ((padded n text).toList ++ rest) =
      pieces block name n ++ Piece.scan .standard rest := by
  induction n generalizing rest with
  | zero => exact h rest
  | succ n ih =>
    have hopen : ∀ s, Piece.scan .standard ("{{#t}}".toList ++ s) =
        .tag ⟨[], .opens .plain, [], ['t'], []⟩ :: Piece.scan .standard s :=
      fun s => Piece.scan_of_read? rfl
    have hclose : ∀ s, Piece.scan .standard ("{{/t}}".toList ++ s) =
        .tag ⟨[], .closes, [], ['t'], []⟩ :: Piece.scan .standard s :=
      fun s => Piece.scan_of_read? rfl
    rw [padded, String.toList_append, String.toList_append, List.append_assoc, List.append_assoc,
      hopen, ih, hclose, pieces]
    simp

lemma wrapped_ofPieces (block name : List Char) (n level start : Nat) :
    Wrapped (String.ofList block) (String.ofList name) n
      (Token.ofPieces .standard level start (pieces block name n)) := by
  induction n generalizing start with
  | zero => exact .core rfl rfl rfl rfl rfl rfl
  | succ n ih =>
    rw [pieces, Token.ofPieces, Token.ofPieces_append]
    exact .wrap rfl rfl rfl rfl (ih _)

lemma wrapped_ofText {block name : List Char} {text : String}
    (h : ∀ rest, Piece.scan .standard (text.toList ++ rest) =
      pieces block name 0 ++ Piece.scan .standard rest) (n level : Nat) :
    Wrapped (String.ofList block) (String.ofList name) n
      (Token.ofText .standard level (padded n text)) := by
  have hscan := scan_padded h n []
  rw [List.append_nil, Piece.scan, List.append_nil] at hscan
  rw [Token.ofText, hscan]
  exact wrapped_ofPieces _ _ _ _ _

/-- The text with the block `y`. -/
lemma wrapped_y (n level : Nat) :
    Wrapped "y" "a.b" n (Token.ofText .standard level (padded n "{{#y}}{{>a.b}}{{/y}}")) := by
  refine wrapped_ofText (fun rest => ?_) n level
  have hopen : Piece.scan .standard ("{{#y}}{{>a.b}}{{/y}}".toList ++ rest) =
      .tag ⟨[], .opens .plain, [], ['y'], []⟩ ::
        Piece.scan .standard ("{{>a.b}}{{/y}}".toList ++ rest) :=
    Piece.scan_of_read? rfl
  have hpartial : Piece.scan .standard ("{{>a.b}}{{/y}}".toList ++ rest) =
      .tag ⟨[], .includes, [], ['a', '.', 'b'], []⟩ ::
        Piece.scan .standard ("{{/y}}".toList ++ rest) :=
    Piece.scan_of_read? rfl
  have hclose : Piece.scan .standard ("{{/y}}".toList ++ rest) =
      .tag ⟨[], .closes, [], ['y'], []⟩ :: Piece.scan .standard rest :=
    Piece.scan_of_read? rfl
  rw [hopen, hpartial, hclose]
  rfl

/-- The text with the block `x`. -/
lemma wrapped_x (n level : Nat) :
    Wrapped "x" "c.d" n (Token.ofText .standard level (padded n "{{#x}}{{>c.d}}{{/x}}")) := by
  refine wrapped_ofText (fun rest => ?_) n level
  have hopen : Piece.scan .standard ("{{#x}}{{>c.d}}{{/x}}".toList ++ rest) =
      .tag ⟨[], .opens .plain, [], ['x'], []⟩ ::
        Piece.scan .standard ("{{>c.d}}{{/x}}".toList ++ rest) :=
    Piece.scan_of_read? rfl
  have hpartial : Piece.scan .standard ("{{>c.d}}{{/x}}".toList ++ rest) =
      .tag ⟨[], .includes, [], ['c', '.', 'd'], []⟩ ::
        Piece.scan .standard ("{{/x}}".toList ++ rest) :=
    Piece.scan_of_read? rfl
  have hclose : Piece.scan .standard ("{{/x}}".toList ++ rest) =
      .tag ⟨[], .closes, [], ['x'], []⟩ :: Piece.scan .standard rest :=
    Piece.scan_of_read? rfl
  rw [hopen, hpartial, hclose]
  rfl

/-- The only partial among these tokens is `name`. -/
lemma Wrapped.partials {block name : String} {n : Nat} {ts : List Token}
    (h : Wrapped block name n ts) : Token.partials ts = [name] := by
  induction h with
  | core ho hu hc hon hun hcn => simp [Token.partials, Token.partial?, ho, hu, hc, hun]
  | wrap ho hc hon hcn _ ih =>
    have : ∀ ts : List Token, Token.partials ts = ts.filterMap Token.partial? := fun _ => rfl
    rw [this] at ih ⊢
    simp [Token.partial?, ho, hc, ih]

/-! #### Reading and rendering these tokens -/

/-- A block whose inner tokens are read without closing it. -/
lemma run_block {b : Builder} {i : Nat} {o c : Tag} {mid : List Token} {nodes : List Node}
    (ho : o.role = .opens .plain) (hc : c.role = .closes) (hname : o.name = c.name)
    (hlt : b.frames.length < maxBlockDepth)
    (hmid : (⟨b.root, ⟨.plain, o, i, []⟩ :: b.frames⟩ : Builder).run (i + 1) mid =
      .ok ⟨b.root, ⟨.plain, o, i, nodes⟩ :: b.frames⟩) :
    b.run i (.tag o :: (mid ++ [.tag c])) = .ok (b.push (.block .plain o.name
      (o.span.cover c.span) ⟨i + 1, i + 1 + mid.length⟩ nodes.reverse)) := by
  have hopen : b.step i (.tag o) = .ok ⟨b.root, ⟨.plain, o, i, []⟩ :: b.frames⟩ := by
    simp only [Builder.step, ho, if_neg (Nat.not_le.2 hlt)]
  rw [Builder.run_cons, hopen]
  change Builder.run _ (i + 1) (mid ++ [.tag c]) = _
  rw [Builder.run_append, hmid]
  change Builder.run _ _ [.tag c] = _
  simp [Builder.run, Builder.step, hc, Builder.close, List.findIdx?_cons, hname, Builder.giveUp,
    Builder.closeInnermost, Frame.close]

/-- Such tokens are a single block, whatever is open around them. -/
lemma Wrapped.run {block name : String} {n : Nat} {ts : List Token}
    (h : Wrapped block name n ts) {b : Builder} (i : Nat)
    (hlt : b.frames.length + n < maxBlockDepth) :
    ∃ name' span inner body, b.run i ts = .ok (b.push (.block .plain name' span inner body)) := by
  induction h generalizing b i with
  | @core o u c ho hu hc hon hun hcn =>
    have hmid : (⟨b.root, ⟨.plain, o, i, []⟩ :: b.frames⟩ : Builder).run (i + 1) [.tag u] =
        .ok ⟨b.root, ⟨.plain, o, i, [.inclusion u.name u.span]⟩ :: b.frames⟩ := by
      simp [Builder.run, Builder.step, hu, Builder.push, Builder.modifyNodes, Node.push]
    exact ⟨_, _, _, _, run_block ho hc (hon.trans hcn.symm) hlt hmid⟩
  | @wrap n o c mid ho hc hon hcn _ ih =>
    obtain ⟨name', span, inner, body, hmid⟩ :=
      ih (b := ⟨b.root, ⟨.plain, o, i, []⟩ :: b.frames⟩) (i + 1)
        (by simp only [List.length_cons]; omega)
    exact ⟨_, _, _, _, run_block ho hc (hon.trans hcn.symm) (by omega) hmid⟩

/-- The scopes around the blocks: these have their values, and no key is a whole path. -/
structure Around (n : Nat) (s : Scope) : Prop where
  t : s.get? "t" = some (.bool true)
  x : s.get? "x" = some (.map (x n))
  y : s.get? "y" = some (.map (y n))
  ab : s.get? "a.b" = none
  cd : s.get? "c.d" = none

variable {n : Nat} {s : Scope}

lemma Around.root (n : Nat) : Around n (Scope.root (context n)) := ⟨rfl, rfl, rfl, rfl, rfl⟩

lemma Around.overlay_x (h : Around n s) : Around n (s.overlay (Hiding.x n)) :=
  ⟨rfl, h.x, h.y, h.ab, h.cd⟩

lemma Around.overlay_y (h : Around n s) : Around n (s.overlay (Hiding.y n)) :=
  ⟨rfl, h.x, h.y, h.ab, h.cd⟩

lemma resolve_of_get? {key : String} {v : Value} (h : s.get? key = some v) :
    s.resolve key = some v := by
  unfold Scope.resolve
  rw [h]

lemma resolve_ab_overlay_y (h : Around n s) :
    (s.overlay (y n)).resolve "a.b" = some (.inline (padded n "{{#x}}{{>c.d}}{{/x}}")) := by
  unfold Scope.resolve
  rw [h.overlay_y.ab]
  rfl

lemma resolve_cd_overlay_x (h : Around n s) :
    (s.overlay (x n)).resolve "c.d" = some (.inline (padded n "{{#y}}{{>a.b}}{{/y}}")) := by
  unfold Scope.resolve
  rw [h.overlay_x.cd]
  rfl

lemma resolve_ab_overlay_x (h : Around n s) : (s.overlay (x n)).resolve "a.b" = none := by
  unfold Scope.resolve
  rw [h.overlay_x.ab]
  rfl

lemma resolve_cd_overlay_y (h : Around n s) : (s.overlay (y n)).resolve "c.d" = none := by
  unfold Scope.resolve
  rw [h.overlay_y.cd]
  rfl

/-- A block whose body is rendered once ends as its body does. -/
lemma renderAnewWith_outcome {g : List Token → Scope → Run Unit} {o c : Tag}
    {mid : List Token} {nodes : List Node} (ho : o.role = .opens .plain)
    (hc : c.role = .closes) (hname : o.name = c.name)
    (hmid : (⟨[], [⟨.plain, o, 0, []⟩]⟩ : Builder).run 1 mid =
      .ok ⟨[], [⟨.plain, o, 0, nodes⟩]⟩)
    {ts : List Token}
    (hexpand : (setting.expand s ts).outcome = .done (.tag o :: (mid ++ [.tag c])))
    {v : Value} {s' : Scope} (hv : s.resolve o.name = some v) (hs' : v.scopes s .plain = [s']) :
    (setting.renderAnewWith g ts s).outcome = (g mid s').outcome := by
  have hrun := run_block (b := Builder.empty) (i := 0) ho hc hname (by decide) hmid
  have hnodes : Node.ofTokens (.tag o :: (mid ++ [.tag c])) =
      .ok [.block .plain o.name (o.span.cover c.span) ⟨1, 1 + mid.length⟩ nodes.reverse] := by
    rw [Node.ofTokens, hrun]
    simp [Except.map, Builder.empty, Builder.push, Builder.modifyNodes, Node.push,
      Builder.finish, Builder.giveUp]
  have hslice : (⟨1, 1 + mid.length⟩ : TokenRange).slice (.tag o :: (mid ++ [.tag c])) = mid := by
    simp [TokenRange.slice]
  have hone : ∀ r : Run Unit, (do r; pure () : Run Unit) = r := fun r => bind_pure r
  rw [Setting.renderAnewWith, Run.bind_of_done hexpand, hnodes, Run.ofExcept,
    Run.bind_of_done rfl, Run.forM_cons, Run.forM_nil, hone]
  simp only [Setting.renderNode, hv, hs', hslice]
  rw [Run.forM_cons, Run.forM_nil, hone]

/-- **How such tokens end.** They may have come out of an expansion. The bodies of the blocks of `t`
are granted first; then all ends as the partial in the midst of them does in the scope of its
block. -/
lemma Wrapped.outcome_eq {block name : String} {n : Nat} {ts : List Token}
    (h : Wrapped block name n ts) (hn : n < maxBlockDepth) {v : Value} {s' : Scope}
    (ht : s.get? "t" = some (.bool true)) (hblock : s.get? block = some v)
    (hs' : v.scopes s .plain = [s']) (hname : s.resolve name = none) :
    ∃ u : Tag, u.role = .includes ∧ u.name = name ∧
      ∀ (us : List Token) (depth : Nat), (setting.expand s us).outcome = .done ts →
        (setting.renderAnew depth us s).outcome =
          if depth ≤ n then .exhausted
          else (setting.renderAnew (depth - (n + 1)) [.tag u] s').outcome := by
  induction h with
  | @core o u c ho hu hc hon hun hcn =>
    have hmid : (⟨[], [⟨.plain, o, 0, []⟩]⟩ : Builder).run 1 [.tag u] =
        .ok ⟨[], [⟨.plain, o, 0, [.inclusion u.name u.span]⟩]⟩ := by
      simp [Builder.run, Builder.step, hu, Builder.push, Builder.modifyNodes, Node.push]
    have hv : s.resolve o.name = some v := hon ▸ resolve_of_get? hblock
    refine ⟨u, hu, hun, fun us depth hexpand => ?_⟩
    cases depth with
    | zero => exact renderAnewWith_outcome ho hc (hon.trans hcn.symm) hmid hexpand hv hs'
    | succ depth => exact renderAnewWith_outcome ho hc (hon.trans hcn.symm) hmid hexpand hv hs'
  | @wrap n o cl mid ho hc hon hcn hwrapped ih =>
    obtain ⟨name', span, inner, body, hmid⟩ :=
      hwrapped.run (b := ⟨[], [⟨.plain, o, 0, []⟩]⟩) 1
        (by simp only [List.length_singleton]; omega)
    have hv : s.resolve o.name = some (.bool true) := hon ▸ resolve_of_get? ht
    have hexpand' : (setting.expand s mid).outcome = .done mid := by
      have hunbound : ∀ m ∈ Token.partials mid, s.resolve m = none := by
        rw [hwrapped.partials]
        simpa using hname
      rw [Setting.expand, setting.expandTo_of_unbound _ hunbound]
      rfl
    obtain ⟨u, hu, hun, houtcome⟩ := ih (by omega)
    refine ⟨u, hu, hun, fun us depth hexpand => ?_⟩
    cases depth with
    | zero => exact renderAnewWith_outcome ho hc (hon.trans hcn.symm) hmid hexpand hv rfl
    | succ depth =>
      have hbody : (setting.renderAnew (depth + 1) us s).outcome =
          (setting.renderAnew depth mid s).outcome :=
        renderAnewWith_outcome ho hc (hon.trans hcn.symm) hmid hexpand hv rfl
      rw [hbody, houtcome mid depth hexpand']
      simp only [Nat.add_le_add_iff_right, Nat.add_sub_add_right]

/-- A text with a partial that has no value is put in as it is. -/
lemma expand_partial {text block name : String} {u : Tag}
    (hwrapped : Wrapped block name n (Token.ofText .standard (u.level + 1) text))
    (hu : u.role = .includes) (hvalue : s.resolve u.name = some (.inline text))
    (hname : s.resolve name = none) :
    (setting.expand s [.tag u]).outcome =
      .done (Token.ofText .standard (u.level + 1) text) := by
  have hunbound : ∀ m ∈ Token.partials (Token.ofText .standard (u.level + 1) text),
      s.resolve m = none := by
    rw [hwrapped.partials]
    simpa using hname
  have hincluded : (setting.included s 1 u text).outcome =
      .done (Token.ofText .standard (u.level + 1) text) := by
    change (setting.expandTo s 0 (Token.ofText .standard (u.level + 1) text)).outcome = _
    rw [setting.expandTo_of_unbound 0 hunbound]
    rfl
  change (setting.expandTo s 1 _).outcome = _
  rw [Setting.expandTo_cons, Setting.expandToken_of_bound setting hu hvalue,
    Run.bind_outcome_done_iff]
  refine ⟨Token.ofText .standard (u.level + 1) text, ?_, ?_⟩
  · exact Run.bind_outcome_done_iff.2 ⟨some text, rfl, hincluded⟩
  · rw [Setting.expandTo_nil]
    simp [Run.bind_eq, Run.bind, Run.pure_eq]

/-- **In the body of either block the other one is put in.** -/
lemma renderAnew_exhausted (hn : n < maxBlockDepth) (depth : Nat) (h : Around n s) :
    (∀ u : Tag, u.role = .includes → u.name = "a.b" →
      (setting.renderAnew depth [.tag u] (s.overlay (y n))).outcome = .exhausted) ∧
    ∀ u : Tag, u.role = .includes → u.name = "c.d" →
      (setting.renderAnew depth [.tag u] (s.overlay (x n))).outcome = .exhausted := by
  induction depth using Nat.strongRecOn generalizing s with
  | ind depth ih =>
    constructor
    · intro u hu hname
      have hexpand := expand_partial (wrapped_x n (u.level + 1)) hu
        (hname ▸ resolve_ab_overlay_y h) (resolve_cd_overlay_y h)
      obtain ⟨u', hu', hname', houtcome⟩ := (wrapped_x n (u.level + 1)).outcome_eq hn
        h.overlay_y.t h.overlay_y.x rfl (resolve_cd_overlay_y h)
      rw [houtcome _ _ hexpand]
      split
      · rfl
      · exact (ih _ (by omega) h.overlay_y).2 u' hu' hname'
    · intro u hu hname
      have hexpand := expand_partial (wrapped_y n (u.level + 1)) hu
        (hname ▸ resolve_cd_overlay_x h) (resolve_ab_overlay_x h)
      obtain ⟨u', hu', hname', houtcome⟩ := (wrapped_y n (u.level + 1)).outcome_eq hn
        h.overlay_x.t h.overlay_x.y rfl (resolve_ab_overlay_x h)
      rw [houtcome _ _ hexpand]
      split
      · rfl
      · exact (ih _ (by omega) h.overlay_x).1 u' hu' hname'

/-- The template has the block `y` in it, and outside the block its partial has no value. -/
lemma renderAnew_root_exhausted (hn : n < maxBlockDepth) (depth : Nat) :
    (setting.renderAnew depth (Token.ofText .standard 0 "{{#y}}{{>a.b}}{{/y}}")
      (Scope.root (context n))).outcome = .exhausted := by
  have hwrapped := wrapped_y 0 0
  have hexpand : (setting.expand (Scope.root (context n))
      (Token.ofText .standard 0 "{{#y}}{{>a.b}}{{/y}}")).outcome =
        .done (Token.ofText .standard 0 "{{#y}}{{>a.b}}{{/y}}") := by
    have hunbound : ∀ m ∈ Token.partials (Token.ofText .standard 0 "{{#y}}{{>a.b}}{{/y}}"),
        (Scope.root (context n)).resolve m = none := by
      intro m hm
      rw [show Token.ofText .standard 0 "{{#y}}{{>a.b}}{{/y}}" =
        Token.ofText .standard 0 (padded 0 "{{#y}}{{>a.b}}{{/y}}") from rfl,
        hwrapped.partials] at hm
      cases List.mem_singleton.1 hm
      rfl
    rw [Setting.expand, setting.expandTo_of_unbound _ hunbound]
    rfl
  obtain ⟨u, hu, hname, houtcome⟩ := hwrapped.outcome_eq (by decide) (Around.root n).t
    (Around.root n).y rfl rfl
  rw [houtcome _ _ hexpand]
  split
  · rfl
  · exact (renderAnew_exhausted hn _ (Around.root n)).1 u hu hname

end Hiding

/-- **A rendering that does not come to an end**, however much it is granted: `x` and `y` are put
into each other, and neither is ever put in while the other one is. -/
theorem Template.exhausted_of_hidden_partials :
    ∃ t, Template.compileWith .standard "{{#y}}{{>a.b}}{{/y}}" = .ok t ∧
      ¬ ∃ depth, (t.run (Hiding.context 50) Loader.empty ⟨false, 1⟩ depth).outcome ≠
        .exhausted := by
  obtain ⟨t, ht⟩ := Template.exists_of_isOk
    (show (Template.compileWith .standard "{{#y}}{{>a.b}}{{/y}}").isOk = true by decide +kernel)
  refine ⟨t, ht, ?_⟩
  rintro ⟨depth, hdepth⟩
  apply hdepth
  rw [Template.run_eq_renderAnew ht]
  exact Hiding.renderAnew_root_exhausted (by decide) depth

end Stencil
