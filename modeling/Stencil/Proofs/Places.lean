import Stencil.Proofs.Letters
import Stencil.Proofs.Rereading

set_option relaxedAutoImplicit false
set_option autoImplicit false

/-!
# Where tokens stand and scopes end

The places of tokens show in the warnings of a rendering and in its trail, and nowhere else. A scope
shows in the values that its keys have, however many contexts lie over each other in it. So tokens
with the same letters, rendered in scopes with the same values, leave trails that are equal apart
from places, and come to the same end.

## Main definitions

* `Stencil.Scope.Alike` — scopes in which each key has the same value.
* `Stencil.Event.placeless`, `Stencil.Run.Alike` — events without places, and runs that are equal
  apart from places.
* `Stencil.Token.SameLetters` — tokens with the same letters.

## Main results

* `Stencil.Run.Alike.bind`, `Stencil.Run.Alike.forM` — runs put together of such runs are such runs.
* `Stencil.Setting.expandTo_alike` — tokens with the same letters are expanded in the same way.
* `Stencil.Setting.renderAnew_alike` — and rendered in the same way.
-/

namespace Stencil

/-! ### Scopes -/

lemma Value.scopes_inverted (s : Scope) (v : Value) :
    v.scopes s .inverted = if v.isTruthy then [] else [s] := by
  cases v <;> rfl

/-- Each key has the same value in both scopes. -/
def Scope.Alike (s s' : Scope) : Prop := ∀ key, s.get? key = s'.get? key

namespace Scope.Alike

variable {s s' : Scope}

lemma refl (s : Scope) : s.Alike s := fun _ => rfl

/-- Names stand for the same values. -/
lemma resolve_eq (h : s.Alike s') (name : String) : s.resolve name = s'.resolve name := by
  unfold Scope.resolve
  rw [h name]
  split
  · rfl
  · split
    · rfl
    · next key keys _ => rw [h key]

lemma overlay (h : s.Alike s') (c : Context) : (s.overlay c).Alike (s'.overlay c) := by
  intro key
  unfold Scope.overlay Scope.get?
  rw [List.findSome?_cons, List.findSome?_cons]
  cases c.get? key with
  | some v => rfl
  | none => exact h key

/-- So are the scopes of bodies. -/
lemma scopes (h : s.Alike s') (kind : BlockKind) (v : Value) :
    List.Forall₂ Scope.Alike (v.scopes s kind) (v.scopes s' kind) := by
  have one : List.Forall₂ Scope.Alike [s] [s'] := .cons h .nil
  cases kind with
  | inverted =>
    rw [Value.scopes_inverted, Value.scopes_inverted]
    split
    · exact .nil
    · exact one
  | plain =>
    cases v with
    | list items =>
      refine List.forall₂_map_left_iff.2 (List.forall₂_map_right_iff.2 ?_)
      exact List.forall₂_same.2 fun c _ => h.overlay c
    | map c => exact .cons (h.overlay c) .nil
    | bool b =>
      cases b with
      | true => exact one
      | false => exact .nil
    | scalar text => exact one
    | inline text => exact one
    | resource id => exact one

end Scope.Alike

/-! ### Runs that are equal apart from places -/

/-- The event without places. -/
def Event.placeless : Event → Event
  | warning w _ => warning w ⟨0, 0⟩
  | enter tag content => enter { tag with span := ⟨0, 0⟩, level := 0 } content
  | e => e

lemma Event.enter_placeless {u u' : Tag} (h : u.Alike u') (text : String) :
    (enter u text).placeless = (enter u' text).placeless := by
  simp only [placeless, h.role, h.name, h.raw]

/-- Both ends are of the same sort, and results are related. -/
inductive Outcome.Matches {α β : Type} (P : α → β → Prop) : Outcome α → Outcome β → Prop where
  | done {a : α} {b : β} (h : P a b) : Matches P (.done a) (.done b)
  | failed (e : Error) : Matches P (.failed e) (.failed e)
  | exhausted : Matches P .exhausted .exhausted

lemma Outcome.Matches.eq {o o' : Outcome Unit} (h : Outcome.Matches Eq o o') : o = o' := by
  cases h <;> rfl

namespace Run

variable {α β γ δ : Type}

/-- The trails are equal apart from places, and so are the ends, up to a relation of the results. -/
structure Alike (P : α → β → Prop) (r : Run α) (s : Run β) : Prop where
  events : r.events.map Event.placeless = s.events.map Event.placeless
  outcome : Outcome.Matches P r.outcome s.outcome

namespace Alike

variable {P : α → β → Prop} {r : Run α} {s : Run β}

lemma pure {a : α} {b : β} (h : P a b) : Alike P (Pure.pure a) (Pure.pure b) := ⟨rfl, .done h⟩

lemma fail (e : Error) : Alike P (Run.fail e) (Run.fail e) := ⟨rfl, .failed e⟩

lemma exhausted : Alike P Run.exhausted Run.exhausted := ⟨rfl, .exhausted⟩

lemma emit {e e' : Event} (h : e.placeless = e'.placeless) :
    Alike Eq (Run.emit e) (Run.emit e') :=
  ⟨congrArg (fun e => [e]) h, .done rfl⟩

lemma refl (r : Run α) : Alike Eq r r := by
  refine ⟨rfl, ?_⟩
  cases r.outcome with
  | done a => exact .done rfl
  | failed e => exact .failed e
  | exhausted => exact .exhausted

/-- **Runs in sequence** are equal apart from places if each of them is. -/
lemma bind {Q : γ → δ → Prop} {f : α → Run γ} {g : β → Run δ} (hrs : Alike P r s)
    (hfg : ∀ a b, P a b → Alike Q (f a) (g b)) : Alike Q (r >>= f) (s >>= g) := by
  obtain ⟨events, outcome⟩ := r
  obtain ⟨events', outcome'⟩ := s
  obtain ⟨hevents, houtcome⟩ := hrs
  cases houtcome with
  | @done a b h =>
    obtain ⟨hnext, hend⟩ := hfg a b h
    rw [bind_of_done rfl, bind_of_done rfl]
    refine ⟨?_, hend⟩
    simp only [List.map_append, hnext] at hevents ⊢
    rw [hevents]
  | failed e => exact ⟨hevents, .failed e⟩
  | exhausted => exact ⟨hevents, .exhausted⟩

lemma between (h : Alike P r s) {u u' : Tag} (hu : u.Alike u') (text : String) :
    Alike P (r.between (.enter u text) .leave) (s.between (.enter u' text) .leave) := by
  refine ⟨?_, h.outcome⟩
  simp only [Run.between, List.map_cons, List.map_append, h.events,
    Event.enter_placeless hu text]

lemma forM {R : γ → δ → Prop} {f : γ → Run Unit} {g : δ → Run Unit} {as : List γ} {bs : List δ}
    (h : List.Forall₂ R as bs) (hfg : ∀ a b, R a b → Alike Eq (f a) (g b)) :
    Alike Eq (as.forM f) (bs.forM g) := by
  induction h with
  | nil => exact .refl _
  | cons hab _ ih =>
    rw [forM_cons, forM_cons]
    exact (hfg _ _ hab).bind fun _ _ _ => ih

end Alike

/-! ### What can be seen of them -/

lemma loads_placeless (r : Run α) :
    (⟨r.events.map Event.placeless, r.outcome⟩ : Run α).loads = r.loads := by
  unfold loads
  rw [List.filterMap_map]
  congr 1
  funext e
  cases e <;> rfl

lemma warnings_placeless (r : Run α) :
    (⟨r.events.map Event.placeless, r.outcome⟩ : Run α).warnings.map Prod.fst =
      r.warnings.map Prod.fst := by
  unfold warnings Event.warnings
  rw [List.filterMap_map, List.map_filterMap, List.map_filterMap]
  congr 1
  funext e
  cases e <;> rfl

/-- The diagnostics, apart from places, are those of the warnings. -/
lemma diagnostics_map_eq (r : Run α) :
    r.diagnostics.diagnostics.map (fun x => (x.code, x.message)) =
      (r.warnings.map Prod.fst).map fun w => (w.code, w.message) := by
  rw [r.diagnostics_eq, List.map_map, List.map_map]
  rfl

namespace Alike

variable {P : α → β → Prop} {r : Run α} {s : Run β}

lemma output_eq (h : Alike P r s) : r.output = s.output := by
  have hwritten : Event.written = Event.written ∘ Event.placeless := by
    funext e
    cases e <;> rfl
  unfold output
  rw [hwritten, ← List.map_map, ← List.map_map, h.events]

lemma loads_eq (h : Alike P r s) : r.loads = s.loads := by
  rw [← loads_placeless r, ← loads_placeless s]
  exact congrArg (fun events => (⟨events, .exhausted⟩ : Run Unit).loads) h.events

lemma warnings_eq (h : Alike P r s) : r.warnings.map Prod.fst = s.warnings.map Prod.fst := by
  rw [← warnings_placeless r, ← warnings_placeless s]
  exact congrArg (fun events => (⟨events, .exhausted⟩ : Run Unit).warnings.map Prod.fst) h.events

end Alike

end Run

/-! ### Expansion -/

namespace Token

/-- The tokens have the same letters. -/
def SameLetters (ts us : List Token) : Prop := letters ts = letters us

lemma SameLetters.append {ts us ts' us' : List Token} (h : SameLetters ts us)
    (h' : SameLetters ts' us') : SameLetters (ts ++ ts') (us ++ us') := by
  unfold SameLetters at *
  rw [letters_append, letters_append, h, h']

end Token

namespace Setting

variable (set : Setting) {scope scope' : Scope}

lemma warn_alike (w : Warning) (span span' : Span) :
    Run.Alike Eq (set.warn w span) (set.warn w span') := by
  unfold warn
  split
  · exact .fail _
  · exact .emit rfl

lemma partialText_alike {u u' : Tag} (hu : u.Alike u') (value : Value) :
    Run.Alike Eq (set.partialText u value) (set.partialText u' value) := by
  cases value with
  | resource id =>
    refine (Run.Alike.refl _).bind fun _ _ _ => ?_
    cases set.loader.load id with
    | ok text => exact .pure rfl
    | error cause =>
      simp only [hu.name]
      exact (set.warn_alike _ _ _).bind fun _ _ _ => .pure rfl
  | scalar text => exact .refl _
  | bool b => exact .refl _
  | list items => exact .refl _
  | map context => exact .refl _
  | inline text => exact .refl _

lemma expandToken_alike (hs : scope.Alike scope') {f g : Tag → String → Run (List Token)}
    {u u' : Tag} (hu : u.Alike u')
    (hfg : ∀ text, Run.Alike Token.SameLetters (f u text) (g u' text)) :
    Run.Alike Token.SameLetters (set.expandToken scope f (.tag u))
      (set.expandToken scope' g (.tag u')) := by
  have hletters : Token.SameLetters [.tag u] [.tag u'] := by
    simp only [Token.SameLetters, Token.letters, hu.role, hu.name, hu.raw]
  by_cases hr : u.role = .includes
  · have hr' : u'.role = .includes := hu.role ▸ hr
    have hvalue : scope'.resolve u'.name = scope.resolve u.name := by
      rw [← hu.name, hs.resolve_eq]
    cases hv : scope.resolve u.name with
    | none =>
      simp only [expandToken, if_pos hr, if_pos hr', hvalue, hv]
      exact .pure hletters
    | some value =>
      rw [set.expandToken_of_bound hr hv, set.expandToken_of_bound hr' (hvalue.trans hv)]
      refine (set.partialText_alike hu value).bind ?_
      rintro text _ rfl
      cases text with
      | none => exact .pure rfl
      | some text => exact hfg text
  · have hr' : u'.role ≠ .includes := hu.role ▸ hr
    simp only [expandToken, if_neg hr, if_neg hr']
    exact .pure hletters

lemma expandTo_ofTexts (scope : Scope) (depth : Nat) (texts : List (String × Span)) :
    set.expandTo scope depth (Token.ofTexts texts) = pure (Token.ofTexts texts) := by
  refine set.expandTo_of_unbound depth fun name hname => ?_
  obtain ⟨u, hu, -⟩ := Token.mem_partials.1 hname
  obtain ⟨p, -, hp⟩ := List.mem_map.1 hu
  cases hp

/-- **Tokens with the same letters are expanded in the same way**, in scopes with the same values.

**Proof sketch.** Induction on how deep partials may include partials. For each depth the tokens
are gone through tag by tag; the text in front of a tag stays. -/
theorem expandTo_alike (hs : scope.Alike scope') (depth : Nat) {ts us : List Token}
    (h : Token.SameLetters ts us) :
    Run.Alike Token.SameLetters (set.expandTo scope depth ts) (set.expandTo scope' depth us) := by
  have list : ∀ depth, (∀ (u u' : Tag) (text : String), u.Alike u' →
        Run.Alike Token.SameLetters (set.included scope depth u text)
          (set.included scope' depth u' text)) →
      ∀ {ts us : List Token}, Token.Alike ts us →
        Run.Alike Token.SameLetters (set.expandTo scope depth ts)
          (set.expandTo scope' depth us) := by
    intro depth hincluded ts us h
    have htexts : ∀ {xs ys : List (String × Span)}, Token.written xs = Token.written ys →
        Run.Alike Token.SameLetters (set.expandTo scope depth (Token.ofTexts xs))
          (set.expandTo scope' depth (Token.ofTexts ys)) := by
      intro xs ys h
      rw [expandTo_ofTexts, expandTo_ofTexts]
      exact .pure (Token.Alike.texts h).letters_eq
    induction h with
    | texts h => exact htexts h
    | @tag xs ys u u' ts us h hu _ ih =>
      rw [expandTo_append, expandTo_append, expandTo_cons, expandTo_cons]
      refine (htexts h).bind fun xs' ys' hxs => ?_
      refine Run.Alike.bind (P := Token.SameLetters) ?_ fun rest rest' hrest =>
        .pure (hxs.append hrest)
      refine (set.expandToken_alike hs hu fun text => hincluded u u' text hu).bind ?_
      exact fun vs vs' hvs => ih.bind fun ws ws' hws => .pure (hvs.append hws)
  induction depth generalizing ts us with
  | zero =>
    refine list 0 (fun u u' text hu => ?_) (Token.alike_of_letters_eq h)
    simp only [included, hu.name]
    exact .fail _
  | succ depth ih =>
    refine list (depth + 1) (fun u u' text hu => ?_) (Token.alike_of_letters_eq h)
    exact (ih (Token.letters_ofText _ _ _ _)).between hu text

/-! ### Rendering -/

/-- Renders tokens in which all partials have been put in: their blocks are paired. Bodies are
rendered by `renderBody`, which gets their tokens. -/
def renderExpandedWith (set : Setting) (renderBody : List Token → Scope → Run Unit)
    (scope : Scope) (expanded : List Token) : Run Unit := do
  let nodes ← Run.ofExcept (Node.ofTokens expanded)
  nodes.forM (set.renderNode (fun _ inner => renderBody (inner.slice expanded)) scope)

lemma renderAnewWith_eq (f : List Token → Scope → Run Unit) (ts : List Token) (scope : Scope) :
    set.renderAnewWith f ts scope = set.expand scope ts >>= set.renderExpandedWith f scope := rfl

lemma renderNode_alike (hs : scope.Alike scope') {ts us : List Token}
    {f g : TokenRange → Scope → Run Unit}
    (hfg : ∀ inner inner' (s s' : Scope), s.Alike s' →
      Token.SameLetters (inner.slice ts) (inner'.slice us) → Run.Alike Eq (f inner s) (g inner' s'))
    {n n' : Node} (h : Node.Lettered ts us n n') :
    Run.Alike Eq (set.renderNode (fun _ => f) scope n)
      (set.renderNode (fun _ => g) scope' n') := by
  cases h with
  | text content span span' => exact .refl _
  | value name raw span span' =>
    simp only [renderNode, hs.resolve_eq name]
    cases scope'.resolve name with
    | some value => exact .refl _
    | none => exact (set.warn_alike _ _ _).bind fun _ _ _ => .refl _
  | @block kind name span span' inner inner' body body' h =>
    simp only [renderNode, hs.resolve_eq name]
    cases scope'.resolve name with
    | none => exact .refl _
    | some value =>
      exact .forM (hs.scopes kind value) fun s s' hss => hfg inner inner' s s' hss h
  | inclusion name span span' => exact .refl _

/-- **What is read in the same way is rendered in the same way** if the bodies of blocks are. -/
lemma renderExpandedWith_alike (hs : scope.Alike scope') {f g : List Token → Scope → Run Unit}
    (hfg : ∀ ts us (s s' : Scope), s.Alike s' → Token.SameLetters ts us →
      Run.Alike Eq (f ts s) (g us s'))
    {ts us : List Token} (h : Token.SameLetters ts us) :
    Run.Alike Eq (set.renderExpandedWith f scope ts) (set.renderExpandedWith g scope' us) := by
  unfold renderExpandedWith
  rcases Node.ofTokens_lettered h with ⟨nodes, nodes', hn, hn', hnodes⟩ | ⟨e, he, he'⟩
  · rw [hn, hn']
    refine Run.Alike.bind (P := fun a b => a = nodes ∧ b = nodes') (.pure ⟨rfl, rfl⟩) ?_
    rintro _ _ ⟨rfl, rfl⟩
    refine .forM hnodes fun n n' hnn => ?_
    exact set.renderNode_alike hs (fun inner inner' s s' hss hinner => hfg _ _ s s' hss hinner) hnn
  · rw [he, he']
    exact .fail e

/-- **Tokens with the same letters are rendered in the same way**, in scopes with the same values
and with every grant.

**Proof sketch.** The nodes are equal apart from places, and the bodies of blocks have the same
letters. Since expansion respects letters, the induction goes on in the bodies. -/
theorem renderAnew_alike (hs : scope.Alike scope') (depth : Nat) {ts us : List Token}
    (h : Token.SameLetters ts us) :
    Run.Alike Eq (set.renderAnew depth ts scope) (set.renderAnew depth us scope') := by
  induction depth generalizing ts us scope scope' with
  | zero =>
    exact (set.expandTo_alike hs _ h).bind fun _ _ hexpanded =>
      set.renderExpandedWith_alike hs (fun _ _ _ _ _ _ => .exhausted) hexpanded
  | succ depth ih =>
    exact (set.expandTo_alike hs _ h).bind fun _ _ hexpanded =>
      set.renderExpandedWith_alike hs (fun _ _ s s' hss hbody => ih hss hbody) hexpanded

end Setting

end Stencil
