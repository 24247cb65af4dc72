import Mathlib.Data.List.ModifyLast
import Mathlib.Data.List.TakeWhile
import Stencil.Loader.Directory

set_option relaxedAutoImplicit false
set_option autoImplicit false

/-!
# Identifiers and the base directory

A path comes down to its components: the parts that count, after the root if it is absolute. With
them one sees where the path of an identifier lies: in the base directory, under the components of
the identifier, the last of which gets the default extension if one is called for.

An identifier without components is an exception. The extension is put to the path inside the base
directory, and there the last component is one of the base directory. So the extension of the base
directory is replaced, and the path lies beside the base directory.

## Main definitions

* `Stencil.Path.components` — the components of a path.
* `Stencil.Path.EndsIn` — a path ends in a name, up to slashes and points.
* `Stencil.Path.rename` — a component with another extension.
* `Stencil.DirectoryLoader.suffix` — what is put behind an identifier.

## Main results

* `Stencil.Path.components_join` — the components of a path inside another one.
* `Stencil.Path.splitLast?_cases` — which paths name something at their end.
* `Stencil.Path.components_withExtension` — another extension changes the last component alone.
* `Stencil.DirectoryLoader.resolve?_lies_inside` — where the path of an identifier lies.
* `Stencil.DirectoryLoader.resolve?_lies_beside` — an identifier whose path lies elsewhere.
-/

namespace Stencil

namespace Path

/-! ### Components -/

/-- The part counts: it is not empty and no single point. -/
def counts (part : List Char) : Bool := part != [] && part != ['.']

/-- The parts of a path that count. -/
def names (path : List Char) : List (List Char) := (parts path).filter counts

/-- The root, which an absolute path begins with. -/
def root : List Char → List (List Char)
  | '/' :: _ => [['/']]
  | _ => []

/-- The components of a path: the root of an absolute path, and the parts that count. -/
def components (path : List Char) : List (List Char) := root path ++ names path

/-- The path is empty or ends with a slash, so that what is put behind it starts a part. -/
def Open (path : List Char) : Prop := path = [] ∨ ∃ front, path = front ++ ['/']

lemma parts_ne_nil (s : List Char) : parts s ≠ [] := by
  cases s with
  | nil => simp [parts]
  | cons c cs =>
    rw [parts]
    split
    · simp
    · split <;> simp

lemma parts_append_slash (s t : List Char) : parts (s ++ '/' :: t) = parts s ++ parts t := by
  induction s with
  | nil => simp [parts]
  | cons c cs ih =>
    rw [List.cons_append, parts, parts, ih]
    split
    · rfl
    · cases hcs : parts cs with
      | nil => exact absurd hcs (parts_ne_nil cs)
      | cons part rest => rfl

lemma parts_of_slashless {s : List Char} (h : '/' ∉ s) : parts s = [s] := by
  induction s with
  | nil => rfl
  | cons c cs ih =>
    obtain ⟨hc, hcs⟩ := List.ne_and_not_mem_of_not_mem_cons h
    rw [parts, if_neg (Ne.symm hc), ih hcs]

lemma names_append_slash (s t : List Char) : names (s ++ '/' :: t) = names s ++ names t := by
  rw [names, parts_append_slash, List.filter_append]
  rfl

lemma names_slash_cons (s : List Char) : names ('/' :: s) = names s := names_append_slash [] s

lemma names_concat_slash (s : List Char) : names (s ++ ['/']) = names s := by
  rw [names_append_slash]
  exact List.append_nil _

lemma names_of_slashless {s : List Char} (h : '/' ∉ s) (hs : counts s = true) : names s = [s] := by
  rw [names, parts_of_slashless h, List.filter_cons_of_pos hs]
  rfl

lemma slashless_of_mem_parts {s part : List Char} (h : part ∈ parts s) : '/' ∉ part := by
  induction s generalizing part with
  | nil =>
    rw [parts, List.mem_singleton] at h
    exact h ▸ List.not_mem_nil
  | cons c cs ih =>
    rw [parts] at h
    split at h
    · rcases List.mem_cons.1 h with rfl | h
      · exact List.not_mem_nil
      · exact ih h
    · next hc =>
      split at h
      · next hnil => exact absurd hnil (parts_ne_nil cs)
      · next first rest hcs =>
        rw [hcs] at ih
        rcases List.mem_cons.1 h with rfl | h
        · exact fun hmem => (List.mem_cons.1 hmem).elim (hc ·.symm) (ih List.mem_cons_self)
        · exact ih (List.mem_cons_of_mem _ h)

lemma slashless_of_mem_names {s name : List Char} (h : name ∈ names s) : '/' ∉ name :=
  slashless_of_mem_parts (List.mem_filter.1 h).1

lemma root_of_relative {s : List Char} (h : s.head? ≠ some '/') : root s = [] := by
  unfold root
  split
  · exact absurd rfl h
  · rfl

lemma root_append {s : List Char} (h : s ≠ []) (t : List Char) : root (s ++ t) = root s := by
  obtain ⟨c, cs, rfl⟩ := List.exists_cons_of_ne_nil h
  by_cases hc : c = '/'
  · subst hc
    rfl
  · rw [root_of_relative (by simp [hc]), root_of_relative (by simp [hc])]

lemma components_of_relative {s : List Char} (h : s.head? ≠ some '/') : components s = names s := by
  rw [components, root_of_relative h, List.nil_append]

/-- What stands behind an open path adds its names. -/
lemma components_append {front : List Char} (hfront : Open front) {s : List Char}
    (hs : s.head? ≠ some '/') : components (front ++ s) = components front ++ names s := by
  obtain rfl | ⟨dir, rfl⟩ := hfront
  · exact components_of_relative hs
  · rw [components, components, root_append (by simp), names_concat_slash, List.append_assoc dir,
      List.singleton_append, names_append_slash, List.append_assoc]

lemma components_concat_slash {s : List Char} (hs : s ≠ []) :
    components (s ++ ['/']) = components s := by
  rw [components, components, root_append hs, names_concat_slash]

/-- **A path inside another one** has the components of both. -/
theorem components_join {base path : String} (h : path.toList.head? ≠ some '/') :
    components (join base path).toList = components base.toList ++ components path.toList := by
  rw [components_of_relative h, join, if_neg h]
  split
  · next hopen =>
    rw [String.toList_append]
    refine components_append ?_ h
    rcases hopen with rfl | hslash
    · exact .inl rfl
    · obtain ⟨front, hfront⟩ := List.getLast?_eq_some_iff.1 hslash
      exact .inr ⟨front, hfront⟩
  · next hclosed =>
    obtain ⟨hempty, -⟩ := not_or.1 hclosed
    have hne : base.toList ≠ [] := fun hnil => hempty (String.toList_eq_nil_iff.1 hnil)
    have hopen : Open (base ++ "/").toList := .inr ⟨base.toList, String.toList_append⟩
    rw [String.toList_append, components_append hopen h, String.toList_append]
    exact congrArg (· ++ names path.toList) (components_concat_slash hne)

/-! ### The last component -/

/-- The tail of a path does not count. -/
lemma names_dropTail (s : List Char) : names (dropTail s).reverse = names s.reverse := by
  fun_induction dropTail s with
  | case1 s ih => rw [ih, List.reverse_cons, names_concat_slash]
  | case2 => rfl
  | case3 s ih =>
    rw [ih, List.reverse_cons, List.reverse_cons, List.append_assoc, List.singleton_append,
      names_append_slash]
    exact (List.append_nil _).symm
  | case4 s => rfl

lemma dropTail_suffix (s : List Char) : dropTail s <:+ s := by
  fun_induction dropTail s with
  | case1 s ih => exact ih.trans (List.suffix_cons _ _)
  | case2 => exact List.nil_suffix
  | case3 s ih => exact ih.trans ((List.suffix_cons _ _).trans (List.suffix_cons _ _))
  | case4 s => exact List.suffix_rfl

lemma counts_reverse (part : List Char) : counts part.reverse = counts part := by
  have hpoint : part.reverse = ['.'] ↔ part = ['.'] := List.reverse_eq_iff
  rw [Bool.eq_iff_iff]
  simp [counts, hpoint]

/-- In front of the tail there is a part that counts. -/
lemma counts_of_dropTail {s : List Char} (h : dropTail s ≠ []) :
    counts ((dropTail s).takeWhile inPart) = true := by
  fun_induction dropTail s with
  | case1 s ih => exact ih h
  | case2 => exact absurd rfl h
  | case3 s ih => exact ih h
  | case4 s hslash hpoint hpointSlash =>
    obtain ⟨c, cs, rfl⟩ := List.exists_cons_of_ne_nil h
    have hc : c ≠ '/' := fun heq => hslash cs (by rw [heq])
    rw [List.takeWhile_cons_of_pos (by simp [inPart, hc])]
    -- a single point would be all of the text, or a slash would stand behind it
    have hne : c :: cs.takeWhile inPart ≠ ['.'] := by
      intro heq
      obtain ⟨rfl, hnil⟩ := List.cons_eq_cons.1 heq
      cases cs with
      | nil => exact hpoint rfl
      | cons c' cs' =>
        have hc' : c' ≠ '/' := fun heq => hpointSlash cs' (by rw [heq])
        rw [List.takeWhile_cons_of_pos (by simp [inPart, hc'])] at hnil
        cases hnil
    simp [counts, hne]

/-- **The start of a path**: the slash of an absolute path, a point that is followed by nothing or a
slash, or nothing. -/
lemma splitStart_cases {path start body : List Char} (h : splitStart path = (start, body)) :
    start = ['/'] ∧ path = '/' :: body ∨
    start = ['.'] ∧ path = '.' :: body ∧ (body = [] ∨ ∃ rest, body = '/' :: rest) ∨
    start = [] ∧ path = body ∧ body.head? ≠ some '/' := by
  unfold splitStart at h
  split at h <;> obtain ⟨rfl, rfl⟩ := Prod.mk.inj h
  · exact .inl ⟨rfl, rfl⟩
  · exact .inr (.inl ⟨rfl, rfl, .inl rfl⟩)
  · exact .inr (.inl ⟨rfl, rfl, .inr ⟨_, rfl⟩⟩)
  · next hslash _ _ =>
    refine .inr (.inr ⟨rfl, rfl, fun hhead => ?_⟩)
    obtain ⟨rest, hrest⟩ := List.head?_eq_some_iff.1 hhead
    exact hslash rest hrest

lemma eq_append_of_splitStart {path start body : List Char} (h : splitStart path = (start, body)) :
    path = start ++ body := by
  obtain ⟨rfl, rfl⟩ | ⟨rfl, rfl, -⟩ | ⟨rfl, rfl, -⟩ := splitStart_cases h
  · rfl
  · rfl
  · rfl

lemma components_start {path start body : List Char} (h : splitStart path = (start, body)) :
    components start = [] ∨ components start = [['/']] := by
  obtain ⟨rfl, -⟩ | ⟨rfl, -⟩ | ⟨rfl, -⟩ := splitStart_cases h
  · exact .inr rfl
  · exact .inl rfl
  · exact .inl rfl

/-- The start is no part of the names behind it. -/
lemma components_of_splitStart {path start body : List Char} (h : splitStart path = (start, body))
    {s : List Char} (hs : s <+: body) : components (start ++ s) = components start ++ names s := by
  obtain ⟨rfl, -⟩ | ⟨rfl, -, rfl | ⟨rest, rfl⟩⟩ | ⟨rfl, -, hrelative⟩ := splitStart_cases h
  · exact congrArg (['/'] :: ·) (names_slash_cons s)
  · rw [List.prefix_nil.1 hs]
    rfl
  · rcases List.prefix_cons_iff.1 hs with rfl | ⟨t, rfl, -⟩
    · rfl
    · rw [components_of_relative (by simp), names_append_slash, names_slash_cons]
      rfl
  · refine components_of_relative fun (hhead : s.head? = some '/') => hrelative ?_
    obtain ⟨rest, rfl⟩ := hs
    rw [List.head?_append, hhead]
    rfl

lemma slash_mem_or_dropWhile (s : List Char) :
    '/' ∉ s ∧ s.dropWhile inPart = [] ∨ ∃ t, s.dropWhile inPart = '/' :: t := by
  cases hdrop : s.dropWhile inPart with
  | nil =>
    refine .inl ⟨fun hmem => ?_, rfl⟩
    simpa [inPart] using List.dropWhile_eq_nil_iff.1 hdrop '/' hmem
  | cons c t =>
    have hc := List.head?_dropWhile_not inPart s
    rw [hdrop] at hc
    exact .inr ⟨t, by simpa [inPart] using hc⟩

/-- In front of the last part, the path is open. -/
lemma open_of_splitStart {path start body last : List Char} (h : splitStart path = (start, body))
    (hstarts : last.reverse <+: body) (hlast : last ≠ []) :
    Open (start ++ (last.dropWhile inPart).reverse) := by
  rcases slash_mem_or_dropWhile last with ⟨hslash, hnil⟩ | ⟨t, ht⟩
  · -- the last part is all there is, so that it does not begin with a slash
    obtain ⟨c, cs, hcs⟩ := List.exists_cons_of_ne_nil (mt List.reverse_eq_nil_iff.1 hlast)
    rw [hcs] at hstarts
    rw [hnil, List.reverse_nil, List.append_nil]
    obtain ⟨rfl, -⟩ | ⟨rfl, -, rfl | ⟨rest, rfl⟩⟩ | ⟨rfl, -⟩ := splitStart_cases h
    · exact .inr ⟨[], rfl⟩
    · cases List.prefix_nil.1 hstarts
    · refine absurd (List.mem_reverse.1 ?_) hslash
      rw [hcs, (List.cons_prefix_cons.1 hstarts).1]
      exact List.mem_cons_self
    · exact .inl rfl
  · exact .inr ⟨start ++ t.reverse, by rw [ht, List.reverse_cons, List.append_assoc]⟩

/-- The path is the front, the name behind it, and a tail. -/
structure EndsIn (path front name : List Char) : Prop where
  front_open : Open front
  slashless : '/' ∉ name
  counted : counts name = true
  components_eq : components path = components front ++ [name]

/-- **In front of its tail a path ends in a name.** -/
lemma endsIn_of_splitStart {path start body : List Char} (h : splitStart path = (start, body))
    (hlast : dropTail body.reverse ≠ []) :
    EndsIn path (start ++ ((dropTail body.reverse).dropWhile inPart).reverse)
      ((dropTail body.reverse).takeWhile inPart).reverse := by
  have hcounts := counts_of_dropTail hlast
  have hprefix : (dropTail body.reverse).reverse <+: body := by
    rw [← List.reverse_suffix, List.reverse_reverse]
    exact dropTail_suffix body.reverse
  have hnames : names (dropTail body.reverse).reverse = names body := by
    rw [names_dropTail, List.reverse_reverse]
  have hopen := open_of_splitStart h hprefix hlast
  generalize dropTail body.reverse = last at *
  have hname : '/' ∉ (last.takeWhile inPart).reverse := fun hmem => by
    simpa [inPart] using List.mem_takeWhile_imp (List.mem_reverse.1 hmem)
  have hsplit : (last.dropWhile inPart).reverse ++ (last.takeWhile inPart).reverse =
      last.reverse := by
    rw [← List.reverse_append, List.takeWhile_append_dropWhile]
  refine ⟨hopen, hname, (counts_reverse _).trans hcounts, ?_⟩
  calc components path
    _ = components start ++ names last.reverse := by
        rw [eq_append_of_splitStart h, components_of_splitStart h (List.prefix_refl body), hnames]
    _ = components (start ++ (last.dropWhile inPart).reverse ++
          (last.takeWhile inPart).reverse) := by
        rw [List.append_assoc, hsplit, components_of_splitStart h hprefix]
    _ = components (start ++ (last.dropWhile inPart).reverse) ++
          [(last.takeWhile inPart).reverse] := by
        rw [components_append hopen fun hhead => hname (List.mem_of_mem_head? hhead),
          names_of_slashless hname ((counts_reverse _).trans hcounts)]

/-- The path ends at its root or steps up, or it names something at its end. -/
theorem splitLast?_cases (path : List Char) :
    splitLast? path = none ∧ (∀ n ∈ (components path).getLast?, n = ['/'] ∨ n = ['.', '.']) ∨
    ∃ front name, splitLast? path = some (front, name) ∧ name ≠ ['.', '.'] ∧
      EndsIn path front name := by
  obtain ⟨start, body, hstart⟩ : ∃ start body, splitStart path = (start, body) := ⟨_, _, rfl⟩
  unfold splitLast?
  rw [hstart]
  dsimp only
  split
  · next hlast =>
    refine .inl ⟨rfl, fun n hn => .inl ?_⟩
    have hnames : names body = [] := by
      rw [← List.reverse_reverse body, ← names_dropTail, hlast]
      rfl
    rw [eq_append_of_splitStart hstart, components_of_splitStart hstart (List.prefix_refl body),
      hnames, List.append_nil] at hn
    rcases components_start hstart with hnil | hroot
    · simp [hnil] at hn
    · simpa [hroot] using hn.symm
  · next hlast =>
    have hends := endsIn_of_splitStart hstart hlast
    split
    · next hup =>
      refine .inl ⟨rfl, fun n hn => .inr ?_⟩
      rw [hends.components_eq, hup, List.getLast?_concat] at hn
      exact (Option.some.inj hn).symm
    · next hup => exact .inr ⟨_, _, rfl, hup, hends⟩

/-! ### Extensions -/

/-- The component with another extension. The root and the step up stay as they are. -/
def rename (suffix component : List Char) : List Char :=
  if component = ['/'] ∨ component = ['.', '.'] then component
  else (splitName component).1 ++ suffix

lemma rename_of_name {suffix name : List Char} (hslash : '/' ∉ name) (hup : name ≠ ['.', '.']) :
    rename suffix name = (splitName name).1 ++ suffix := by
  refine if_neg fun h => ?_
  rcases h with rfl | h
  · exact hslash List.mem_cons_self
  · exact hup h

lemma splitName_of_none {name : List Char} (h : (splitName name).2 = none) :
    (splitName name).1 = name := by
  unfold splitName at h ⊢
  dsimp only at h ⊢
  split at h
  · rfl
  · split at h
    · next hstem => exact congrArg Prod.fst (if_pos hstem)
    · cases h

lemma stem_isPrefix (name : List Char) : (splitName name).1 <+: name := by
  unfold splitName
  dsimp only
  split
  · exact List.prefix_refl name
  · next stem hdrop =>
    split
    · exact List.prefix_refl name
    · have hsuffix : stem <:+ name.reverse :=
        (List.suffix_cons _ stem).trans (hdrop ▸ List.dropWhile_suffix _)
      rw [← List.reverse_reverse name]
      exact List.reverse_prefix.2 hsuffix

lemma stem_ne_nil {name : List Char} (h : name ≠ []) : (splitName name).1 ≠ [] := by
  unfold splitName
  dsimp only
  split
  · exact h
  · split
    · exact h
    · next hstem => exact mt List.reverse_eq_nil_iff.1 hstem

lemma modifyLast_eq_self {α : Type} {f : α → α} {l : List α} (h : ∀ a ∈ l.getLast?, f a = a) :
    l.modifyLast f = l := by
  rcases List.eq_nil_or_concat l with rfl | ⟨front, a, rfl⟩
  · rfl
  · rw [List.concat_eq_append] at h ⊢
    rw [List.modifyLast_concat, h a (by simp)]

/-- **Another extension changes the last component alone.** -/
theorem components_withExtension {path ext : String} (hext : ext ≠ "") (hslash : '/' ∉ ext.toList) :
    components (withExtension path ext).toList =
      (components path.toList).modifyLast (rename ('.' :: ext.toList)) := by
  unfold withExtension
  rcases splitLast?_cases path.toList with ⟨hnone, hlast⟩ | ⟨front, name, hsome, hup, hends⟩
  · rw [hnone]
    exact (modifyLast_eq_self fun n hn => if_pos (hlast n hn)).symm
  · have hnil : name ≠ [] := by
      rintro rfl
      exact absurd hends.counted (by decide)
    have hname : '/' ∉ (splitName name).1 ++ '.' :: ext.toList := by
      have hstem : '/' ∉ (splitName name).1 :=
        fun h => hends.slashless ((stem_isPrefix name).subset h)
      simp [hstem, hslash]
    have hcounts : counts ((splitName name).1 ++ '.' :: ext.toList) = true := by
      obtain ⟨c, cs, hcs⟩ := List.exists_cons_of_ne_nil (stem_ne_nil hnil)
      simp [counts, hcs]
    rw [hsome, if_neg hext, hends.components_eq, List.modifyLast_concat,
      rename_of_name hends.slashless hup, ← names_of_slashless hname hcounts,
      ← components_append hends.front_open fun h => hname (List.mem_of_mem_head? h)]
    simp

end Path

namespace DirectoryLoader

open Stencil.Path

/-! ### The paths of identifiers -/

/-- What is put behind an identifier: a point and the default extension, if one is set and not empty
and the identifier has no extension of its own. -/
def suffix (d : DirectoryLoader) (id : String) : List Char :=
  match d.ext with
  | none => []
  | some ext => if ext = "" ∨ (extension? id).isSome then [] else '.' :: ext.toList

lemma extension?_of_suffix {d : DirectoryLoader} {id : String} (h : d.suffix id ≠ []) :
    extension? id = none := by
  unfold suffix at h
  split at h
  · exact absurd rfl h
  · split at h
    · exact absurd rfl h
    · next hcalled => exact Option.not_isSome_iff_eq_none.1 (not_or.1 hcalled).2

/-- There is a path, in which the last component got the suffix if there is one. -/
lemma resolve?_eq {d : DirectoryLoader} (hext : ∀ ext, d.ext = some ext → '/' ∉ ext.toList)
    (id : String) : ∃ path, d.resolve? id = some path ∧
      components path.toList = if d.suffix id = [] then components (join d.base id).toList
        else (components (join d.base id).toList).modifyLast (rename (d.suffix id)) := by
  obtain ⟨base, ext⟩ := d
  cases ext with
  | none => exact ⟨_, rfl, rfl⟩
  | some ext =>
    by_cases hcalled : ext = "" ∨ (extension? id).isSome
    · have hsuffix : suffix ⟨base, some ext⟩ id = [] := if_pos hcalled
      rw [hsuffix, if_pos rfl]
      exact ⟨_, if_pos hcalled, rfl⟩
    · have hsuffix : suffix ⟨base, some ext⟩ id = '.' :: ext.toList := if_neg hcalled
      rw [hsuffix, if_neg (List.cons_ne_nil '.' ext.toList)]
      refine ⟨_, (if_neg hcalled).trans (if_neg (hext ext rfl)), ?_⟩
      exact components_withExtension (not_or.1 hcalled).1 (hext ext rfl)

/-- If an identifier without extension has components, then the last one is a name, which gets the
suffix as it is. -/
lemma modifyLast_rename {id : String} (hrelative : id.toList.head? ≠ some '/')
    (hup : ['.', '.'] ∉ components id.toList) (hext : extension? id = none) (suffix : List Char) :
    (components id.toList).modifyLast (rename suffix) =
      (components id.toList).modifyLast (· ++ suffix) := by
  rcases splitLast?_cases id.toList with ⟨-, hlast⟩ | ⟨front, name, hsome, hname, hends⟩
  · cases hcomponents : (components id.toList).getLast? with
    | none => rw [List.getLast?_eq_none_iff.1 hcomponents]; rfl
    | some n =>
      have hmem := List.mem_of_getLast? hcomponents
      rcases hlast n hcomponents with rfl | rfl
      · rw [components_of_relative hrelative] at hmem
        exact absurd List.mem_cons_self (slashless_of_mem_names hmem)
      · exact absurd hmem hup
  · rw [extension?, hsome, Option.bind_some, Option.map_eq_none_iff] at hext
    rw [hends.components_eq, List.modifyLast_concat, List.modifyLast_concat,
      rename_of_name hends.slashless hname, splitName_of_none hext]

/-- **The path of an identifier lies inside the base directory**: its components are those of the
base directory and then those of the identifier, the last of which gets the default extension if one
is called for. An identifier without components has no last one. If an extension is called for, then
the last component of the base directory gets it instead, in place of the extension it has. -/
theorem resolve?_lies_inside {d : DirectoryLoader} {id : String}
    (hrelative : id.toList.head? ≠ some '/') (hup : ['.', '.'] ∉ components id.toList)
    (hext : ∀ ext, d.ext = some ext → '/' ∉ ext.toList) :
    ∃ path, d.resolve? id = some path ∧
      (components id.toList ≠ [] ∨ d.suffix id = [] →
        components path.toList = components d.base.toList ++
          (components id.toList).modifyLast (· ++ d.suffix id) ∧
        components d.base.toList <+: components path.toList) ∧
      (components id.toList = [] → d.suffix id ≠ [] →
        components path.toList = (components d.base.toList).modifyLast (rename (d.suffix id))) := by
  obtain ⟨path, hpath, hcomponents⟩ := resolve?_eq hext id
  rw [components_join hrelative] at hcomponents
  refine ⟨path, hpath, fun hinside => ?_, fun hnil hsuffix => ?_⟩
  · have heq : components path.toList = components d.base.toList ++
        (components id.toList).modifyLast (· ++ d.suffix id) := by
      by_cases hsuffix : d.suffix id = []
      · rw [hcomponents, if_pos hsuffix, hsuffix, modifyLast_eq_self fun n _ => List.append_nil n]
      · have hne := hinside.resolve_right hsuffix
        rw [hcomponents, if_neg hsuffix, List.modifyLast_append_of_right_ne_nil _ _ _ hne,
          modifyLast_rename hrelative hup (extension?_of_suffix hsuffix)]
    exact ⟨heq, _, heq.symm⟩
  · rw [hcomponents, if_neg hsuffix, hnil, List.append_nil]

/-- A case with a name that starts with a point, in a base directory whose path steps up. -/
theorem resolve?_lies_inside_of_header :
    let d : DirectoryLoader := ⟨"/templates.d/..", some "mustache"⟩
    ∃ path, d.resolve? "./inc/.header/" = some path ∧
      components path.toList =
        [['/'], "templates.d".toList, "..".toList, "inc".toList, ".header.mustache".toList] ∧
      components d.base.toList <+: components path.toList := by
  obtain ⟨path, hpath, hinside, -⟩ :=
    @resolve?_lies_inside ⟨"/templates.d/..", some "mustache"⟩ "./inc/.header/"
      (by decide +kernel) (by decide +kernel)
      (fun ext hext => Option.some.inj hext ▸ by decide +kernel)
  obtain ⟨heq, hprefix⟩ := hinside (.inl (by decide +kernel))
  exact ⟨path, hpath, heq.trans (by decide +kernel), hprefix⟩

/-- With an extension, the path of the empty identifier lies beside the base directory, and not
inside it. -/
theorem resolve?_lies_beside :
    let d : DirectoryLoader := ⟨"/templates", some "mustache"⟩
    "".toList.head? ≠ some '/' ∧ ['.', '.'] ∉ components "".toList ∧
      (∀ ext ∈ d.ext, '/' ∉ ext.toList) ∧ d.resolve? "" = some "/templates.mustache" ∧
      components "/templates.mustache".toList ≠
        components d.base.toList ++ (components "".toList).modifyLast (· ++ d.suffix "") ∧
      ¬ components d.base.toList <+: components "/templates.mustache".toList := by
  decide +kernel

end DirectoryLoader

end Stencil
