import Toolflow.Proofs.MovedFiles
import Toolflow.Proofs.TokenFreeTexts

/-! Pathnames that end in a file name.

Such a pathname is a front, which is empty or ends in a separator, the file name, and nothing that
counts behind it. Its directory has the components of the front, and with another extension it is
the front, the stem and the extension. So what is made of a pathname in one way or the other leads
to a file beside it, and holds no token if the pathname holds none. -/
namespace Toolflow

namespace Reference
variable {s t : List Char}

theorem TokenFree.left (h : TokenFree (s ++ t)) : TokenFree s := fun front body after inside heq =>
  h front body (after ++ t) inside (by simp [heq])

/-- A text behind that does not close a token makes none. -/
theorem TokenFree.append (h : TokenFree s) (ht : '}' ∉ t) : TokenFree (s ++ t) := by
  intro front body after inside heq
  have heq : s ++ t = (front ++ '$' :: '{' :: body ++ ['}']) ++ after := by simpa using heq
  rcases List.append_eq_append_iff.mp heq with ⟨more, hs, rfl⟩ | ⟨more, rfl, -⟩
  · rcases List.eq_nil_or_concat more with rfl | ⟨rest, last, rfl⟩
    · rw [List.append_nil] at hs
      exact h front body [] inside (by simp [← hs])
    · have hlast := congrArg List.getLast? hs
      rw [List.getLast?_concat, List.concat_eq_append, ← List.append_assoc,
        List.getLast?_concat] at hlast
      obtain rfl := Option.some.inj hlast
      exact ht (by simp)
  · exact h front body more inside (by simp)

end Reference

namespace Pathname
variable {path : String} {name part front : List Char}

/-! ### Fronts -/

/-- The text of a pathname up to its last component. -/
def frontOf (path : String) : List Char :=
  (splitHead path.toList).1 ++ slashedParts (bodyParts path.toList).tail.reverse

theorem head_cases (cs : List Char) :
    (splitHead cs).1 = [] ∨ (splitHead cs).1 = ['/'] ∨
      (splitHead cs).1 = ['.'] ∧ (cut (splitHead cs).2).head? = some [] := by
  unfold splitHead
  split
  · exact Or.inr (Or.inl rfl)
  · exact Or.inr (Or.inr ⟨rfl, rfl⟩)
  · exact Or.inr (Or.inr ⟨rfl, by simp [cut]⟩)
  · exact Or.inl rfl

theorem isComponent_of_trimParts {parts before : List (List Char)}
    (h : trimParts parts = part :: before) : isComponent part = true := by
  induction parts with
  | nil => cases h
  | cons first rest ih =>
    rw [trimParts] at h
    split at h
    · rename_i hfirst
      rwa [← (List.cons.inj h).1]
    · exact ih h

/-- What is trimmed is no component. -/
theorem exists_junk (parts : List (List Char)) :
    ∃ junk, parts = junk ++ trimParts parts ∧ ∀ p ∈ junk, isComponent p = false := by
  induction parts with
  | nil => exact ⟨[], rfl, List.forall_mem_nil _⟩
  | cons first rest ih =>
    rw [trimParts]
    split
    · exact ⟨[], rfl, List.forall_mem_nil _⟩
    · rename_i hfirst
      obtain ⟨junk, hrest, hjunk⟩ := ih
      exact ⟨first :: junk, by rw [List.cons_append, ← hrest],
        List.forall_mem_cons.mpr ⟨Bool.eq_false_iff.mpr hfirst, hjunk⟩⟩

theorem joinParts_append (parts : List (List Char)) {more : List (List Char)} (h : more ≠ []) :
    joinParts (parts ++ more) = slashedParts parts ++ joinParts more := by
  induction parts with
  | nil => rfl
  | cons first rest ih =>
    rw [List.cons_append, joinParts_cons (by simp [h]), ih, slashedParts_cons, List.append_assoc,
      List.cons_append]

/-- What is no component adds none. -/
theorem names_of_junk {junk : List (List Char)} (h : ∀ p ∈ junk, isComponent p = false)
    (text : String) : names (String.ofList (slashedParts junk) ++ text) = names text := by
  induction junk with
  | nil => exact congrArg names (String.empty_append ..)
  | cons first rest ih =>
    obtain ⟨hfirst, hrest⟩ := List.forall_mem_cons.mp h
    have hnone : names (String.ofList first) = [] := by
      simp only [isComponent, Bool.and_eq_false_iff, bne_eq_false_iff_eq] at hfirst
      rcases hfirst with rfl | rfl
      · rfl
      · rfl
    have htext : String.ofList (slashedParts (first :: rest)) ++ text =
        String.ofList first ++ "/" ++ (String.ofList (slashedParts rest) ++ text) := by
      refine String.toList_inj.mp ?_
      simp [slashedParts_cons]
    rw [htext, names_append_slash, hnone, ih hrest]
    rfl

theorem isAbsolute_eq (path : String) :
    isAbsolute path = ((splitHead path.toList).1 == ['/']) := by
  unfold isAbsolute splitHead
  split
  · rename_i h
    simp [h]
  · rename_i h
    simp [h]
  · rename_i h
    simp [h]
  · rename_i hslash _ _
    cases hchars : path.toList with
    | nil => rfl
    | cons c rest =>
      have hc : c ≠ '/' := fun heq => hslash rest (heq ▸ hchars)
      simp [hc]

/-- What begins with another character than a separator is as absolute as the front before it. -/
theorem isAbsolute_front_append {text : List Char} (h : text.head? ≠ some '/')
    (front : List Char) :
    isAbsolute (String.ofList (front ++ text)) = isAbsolute (String.ofList front) := by
  unfold isAbsolute
  rw [String.toList_ofList, String.toList_ofList]
  cases front with
  | nil => simpa using h
  | cons c rest => rfl

theorem Component.head? (h : Component part) (tail : List Char) :
    (part ++ tail).head? ≠ some '/' := by
  obtain ⟨c, rest, rfl⟩ := List.exists_cons_of_ne_nil h.ne_nil
  intro hslash
  refine h.whole ?_
  rw [← Option.some.inj hslash]
  exact List.mem_cons_self

theorem names_front_append (hfront : front = [] ∨ front.getLast? = some '/')
    (h : Component part) :
    names (String.ofList (front ++ part)) =
      names (String.ofList front) ++ [String.ofList part] := by
  rcases hfront with rfl | hslash
  · exact names_component h
  · obtain ⟨dir, rfl⟩ := List.getLast?_eq_some_iff.mp hslash
    have htext : String.ofList (dir ++ ['/'] ++ part) =
        String.ofList dir ++ "/" ++ String.ofList part := by
      refine String.toList_inj.mp ?_
      simp
    have hdir : String.ofList (dir ++ ['/']) = String.ofList dir ++ "/" := by
      refine String.toList_inj.mp ?_
      simp
    rw [htext, names_append_slash, names_component h, hdir, names_concat_slash]

theorem endsInName_eq (cs : List Char) : endsInName cs = (cut cs).getLast?.any isComponent := by
  have hrest : ∀ (first : List Char) (cs : List Char),
      (first :: cut cs).getLast? = (cut cs).getLast? := fun first cs =>
    List.getLast?_cons_of_ne_nil (cut_ne_nil cs)
  have hany : endsInName cs = (cut (splitHead cs).2).getLast?.any isComponent := by
    unfold endsInName
    cases (cut (splitHead cs).2).getLast? <;> rfl
  rw [hany]
  unfold splitHead
  split
  · rw [cut, if_pos rfl, hrest]
  · rfl
  · rename_i rest
    rw [cut, cut]
    simp [cut, hrest]
  · rfl

/-- A file name behind a front ends the pathname. -/
theorem named_front_append (hfront : front = [] ∨ front.getLast? = some '/')
    (h : Component part) : Disk.meansDirectory (String.ofList (front ++ part)) = false := by
  have hlast : (cut (front ++ part)).getLast? = some part := by
    rcases hfront with rfl | hslash
    · rw [List.nil_append, cut_of_not_mem h.whole]
      rfl
    · obtain ⟨dir, rfl⟩ := List.getLast?_eq_some_iff.mp hslash
      rw [List.append_assoc, List.singleton_append, cut_append, cut_of_not_mem h.whole,
        List.getLast?_concat]
  rw [Disk.meansDirectory, String.toList_ofList, endsInName_eq, hlast]
  simp [h.counts]

/-! ### The file name of a pathname -/

theorem fileName?_eq_some_iff {name : String} : fileName? path = some name ↔
    ∃ before, bodyParts path.toList = name.toList :: before ∧ name.toList ≠ ['.', '.'] := by
  unfold fileName?
  cases bodyParts path.toList with
  | nil => simp
  | cons part before =>
    dsimp only
    split
    · rename_i hparent
      simp only [List.cons.injEq, reduceCtorEq, false_iff, not_exists, not_and, not_not]
      rintro _ ⟨rfl, -⟩
      exact hparent
    · rename_i hname
      constructor
      · rintro ⟨⟩
        exact ⟨before, by simp, by simpa using hname⟩
      · rintro ⟨_, heq, -⟩
        rw [(List.cons.inj heq).1, String.ofList_toList]

/-- A pathname cut in front of its last component: what is before it and behind it. -/
structure Ends (path : String) (part : List Char) : Prop where
  front : frontOf path = [] ∨ (frontOf path).getLast? = some '/'
  component : Component part
  text : ∃ tail, path.toList = frontOf path ++ (part ++ tail)
  names : names path = names (String.ofList (frontOf path)) ++ [String.ofList part]
  absolute : isAbsolute path = isAbsolute (String.ofList (frontOf path))

/-- The body of a pathname around its last component. -/
theorem exists_of_bodyParts {before : List (List Char)}
    (h : bodyParts path.toList = part :: before) : ∃ junk,
      cut (splitHead path.toList).2 = before.reverse ++ part :: junk ∧
      ∀ p ∈ junk, isComponent p = false := by
  obtain ⟨junk, hcut, hjunk⟩ := exists_junk (cut (splitHead path.toList).2).reverse
  refine ⟨junk.reverse, ?_, fun p hp => hjunk p (List.mem_reverse.mp hp)⟩
  rw [← List.reverse_reverse (cut _), hcut, ← bodyParts, h]
  simp

theorem frontOf_eq {before : List (List Char)} (h : bodyParts path.toList = part :: before) :
    frontOf path = (splitHead path.toList).1 ++ slashedParts before.reverse := by
  rw [frontOf, h, List.tail_cons]

theorem ends_of_bodyParts {before : List (List Char)}
    (h : bodyParts path.toList = part :: before) : Ends path part := by
  obtain ⟨junk, hcut, hjunk⟩ := exists_of_bodyParts h
  have hmem : part ∈ cut (splitHead path.toList).2 := by
    rw [hcut]
    exact List.mem_append_right _ List.mem_cons_self
  have component : Component part := ⟨isComponent_of_trimParts h, not_mem_of_mem_cut hmem⟩
  have hfront := frontOf_eq h
  have front : frontOf path = [] ∨ (frontOf path).getLast? = some '/' := by
    rw [hfront]
    by_cases hnone : before.reverse = []
    · rw [hnone]
      rcases head_cases path.toList with hhead | hhead | ⟨-, hfirst⟩
      · exact Or.inl (by rw [hhead]; rfl)
      · exact Or.inr (by rw [hhead]; rfl)
      · rw [hcut, hnone] at hfirst
        exact absurd (Option.some.inj hfirst) component.ne_nil
    · right
      rw [slashedParts_eq hnone, ← List.append_assoc, List.getLast?_concat]
  have hslashed : path.toList ++ ['/'] =
      frontOf path ++ part ++ '/' :: slashedParts junk := by
    conv_lhs => rw [← splitHead_append path.toList, ← joinParts_cut (splitHead path.toList).2]
    rw [List.append_assoc, ← slashedParts_eq (cut_ne_nil _), hcut, slashedParts_append,
      slashedParts_cons, hfront]
    simp
  obtain ⟨tail, htail⟩ : ∃ tail, path.toList = frontOf path ++ (part ++ tail) := by
    refine ⟨('/' :: slashedParts junk).dropLast, ?_⟩
    rw [← List.append_assoc, ← List.dropLast_append_of_ne_nil (by simp), ← hslashed,
      List.dropLast_concat]
  refine ⟨front, component, ⟨tail, htail⟩, ?_, ?_⟩
  · have hpath : path ++ "/" = String.ofList (frontOf path ++ part) ++ "/" ++
        (String.ofList (slashedParts junk) ++ "") := by
      refine String.toList_inj.mp ?_
      rw [String.toList_append, show ("/" : String).toList = ['/'] from rfl, hslashed]
      simp
    rw [← names_concat_slash, hpath, names_append_slash,
      names_of_junk hjunk, names_empty, List.append_nil,
      names_front_append front component]
  · rw [← isAbsolute_front_append (component.head? tail), ← htail, String.ofList_toList]

/-- A front without components. -/
theorem names_front_of_junk {before : List (List Char)}
    (h : bodyParts path.toList = part :: before) (junk : ∀ p ∈ before, isComponent p = false) :
    names (String.ofList (frontOf path)) = [] := by
  have hslashed : ∀ parts : List (List Char), (∀ p ∈ parts, isComponent p = false) →
      names (String.ofList (slashedParts parts)) = [] := fun parts hparts => by
    have htext := names_of_junk hparts ""
    rwa [String.append_empty, names_empty] at htext
  have hjunk : ∀ p ∈ before.reverse, isComponent p = false := fun p hp =>
    junk p (List.mem_reverse.mp hp)
  have hfront := frontOf_eq h
  rcases head_cases path.toList with hhead | hhead | ⟨hhead, hfirst⟩
  · rw [hfront, hhead]
    exact hslashed _ hjunk
  · rw [hfront, hhead]
    exact hslashed ([] :: before.reverse) (List.forall_mem_cons.mpr ⟨rfl, hjunk⟩)
  · -- The part behind the leading dot is empty, so that the dot is a part of its own.
    obtain ⟨rest, hcut, -⟩ := exists_of_bodyParts h
    rw [hcut] at hfirst
    cases hparts : before.reverse with
    | nil =>
      rw [hparts] at hfirst
      exact absurd (Option.some.inj hfirst) (ends_of_bodyParts h).component.ne_nil
    | cons first parts =>
      rw [hparts] at hfirst hjunk hfront
      cases hfirst
      rw [hfront, hhead]
      exact hslashed (['.'] :: parts)
        (List.forall_mem_cons.mpr ⟨rfl, (List.forall_mem_cons.mp hjunk).2⟩)

/-- A pathname whose components end in a name has that file name. -/
theorem fileName?_of_getLast? {name : String} (h : (names path).getLast? = some name)
    (notParent : name ≠ "..") : fileName? path = some name := by
  cases hbody : bodyParts path.toList with
  | nil =>
    obtain ⟨junk, hcut, hjunk⟩ := exists_junk (cut (splitHead path.toList).2).reverse
    rw [← bodyParts, hbody, List.append_nil] at hcut
    have hnone : (cut (splitHead path.toList).2).filter isComponent = [] := by
      rw [List.filter_eq_nil_iff]
      intro part hpart
      rw [hjunk part (by simpa [hcut] using List.mem_reverse.mpr hpart)]
      exact Bool.false_ne_true
    rw [names, hnone] at h
    cases h
  | cons part before =>
    rw [(ends_of_bodyParts hbody).names, List.getLast?_concat] at h
    obtain rfl := Option.some.inj h
    refine fileName?_eq_some_iff.mpr ⟨before, by rw [String.toList_ofList, hbody], fun heq => ?_⟩
    exact notParent (String.toList_inj.mp heq)

/-- The directory of a file is what its front begins with, down to the last component. -/
theorem exists_of_directoryOf {before : List (List Char)}
    (h : bodyParts path.toList = part :: before) : ∃ dir more, frontOf path = dir ++ more ∧
      names (String.ofList dir) = names (String.ofList (frontOf path)) ∧
      directoryOf path = (if dir = [] then "." else String.ofList dir) ∧
      (dir = [] → isAbsolute path = false) := by
  obtain ⟨junk, hbefore, hjunk⟩ := exists_junk before
  have hjunk : ∀ p ∈ junk.reverse, isComponent p = false := fun p hp =>
    hjunk p (List.mem_reverse.mp hp)
  have hfront : frontOf path = (splitHead path.toList).1 ++
      (slashedParts (trimParts before).reverse ++ slashedParts junk.reverse) := by
    rw [frontOf, h, List.tail_cons, ← slashedParts_append, ← List.reverse_append, ← hbefore]
  have hdirectory : directoryOf path =
      if (splitHead path.toList).1 ++ joinParts (trimParts before).reverse = [] then "."
      else String.ofList ((splitHead path.toList).1 ++ joinParts (trimParts before).reverse) := by
    unfold directoryOf parent?
    simp [h]
  have hrelative : (splitHead path.toList).1 ++ joinParts (trimParts before).reverse = [] →
      isAbsolute path = false := fun hnil => by
    rw [isAbsolute_eq, (List.append_eq_nil_iff.mp hnil).1]
    rfl
  by_cases hnone : (trimParts before).reverse = []
  · refine ⟨_, slashedParts junk.reverse, ?_, ?_, hdirectory, hrelative⟩
    · rw [hfront, hnone]
      simp [slashedParts, joinParts]
    · have htrimmed : trimParts before = [] := List.reverse_eq_nil_iff.mp hnone
      rw [htrimmed, List.append_nil] at hbefore
      rw [names_front_of_junk h (fun p hp => hjunk p (by simpa [hbefore] using hp)), htrimmed]
      rcases head_cases path.toList with hhead | hhead | ⟨hhead, -⟩
      all_goals
        rw [hhead]
        rfl
  · refine ⟨_, '/' :: slashedParts junk.reverse, ?_, ?_, hdirectory, hrelative⟩
    · rw [hfront, slashedParts_eq hnone]
      simp
    · have htext : String.ofList (frontOf path) =
          String.ofList ((splitHead path.toList).1 ++ joinParts (trimParts before).reverse) ++
            "/" ++
            (String.ofList (slashedParts junk.reverse) ++ "") := by
        refine String.toList_inj.mp ?_
        rw [hfront, slashedParts_eq hnone]
        simp
      rw [htext, names_append_slash, names_of_junk hjunk, names_empty, List.append_nil]

theorem names_directoryOf {before : List (List Char)}
    (h : bodyParts path.toList = part :: before) :
    names (directoryOf path) = names (String.ofList (frontOf path)) := by
  obtain ⟨dir, -, -, hnames, hdirectory, -⟩ := exists_of_directoryOf h
  rw [hdirectory, ← hnames]
  split
  · rename_i hnone
    rw [hnone]
    rfl
  · rfl

theorem isAbsolute_directoryOf {before : List (List Char)}
    (h : bodyParts path.toList = part :: before) :
    isAbsolute (directoryOf path) = isAbsolute path := by
  obtain ⟨dir, more, hfront, -, hdirectory, hrelative⟩ := exists_of_directoryOf h
  rw [hdirectory]
  cases dir with
  | nil => exact (hrelative rfl).symm
  | cons c rest =>
    rw [(ends_of_bodyParts h).absolute, hfront, if_neg (List.cons_ne_nil c rest)]
    simp [isAbsolute]

theorem isEmpty_directoryOf (path : String) : (directoryOf path).isEmpty = false := by
  unfold directoryOf
  split
  · rename_i dir _
    cases hdir : dir.isEmpty with
    | true => rfl
    | false => simpa using hdir
  · rfl

/-- A file in a directory. -/
theorem isAbsolute_join_component {base : String} (hbase : base.isEmpty = false)
    (h : Component part) : isAbsolute (join base (String.ofList part)) = isAbsolute base := by
  obtain ⟨c, rest, hchars⟩ : ∃ c rest, base.toList = c :: rest := by
    refine List.exists_cons_of_ne_nil fun hnil => ?_
    rw [String.toList_eq_nil_iff] at hnil
    rw [hnil] at hbase
    cases hbase
  unfold join
  rw [if_neg (by simp [isAbsolute_component h])]
  split
  · simp [isAbsolute, String.toList_append, hchars]
  · simp [isAbsolute, String.toList_append, hchars]

/-! ### Files beside a file -/

/-- Two pathnames with the same components from the same start. -/
structure Alike (p q : String) : Prop where
  absolute : isAbsolute p = isAbsolute q
  names : names p = names q

theorem Alike.trans {p q r : String} (h : Alike p q) (h' : Alike q r) : Alike p r :=
  ⟨h.absolute.trans h'.absolute, h.names.trans h'.names⟩

theorem Alike.symm {p q : String} (h : Alike p q) : Alike q p := ⟨h.absolute.symm, h.names.symm⟩

theorem alike_of_same {p q : String} (h : same p q = true) : Alike p q := by
  simp only [same, Bool.and_eq_true, beq_iff_eq] at h
  exact ⟨by rw [isAbsolute_eq, isAbsolute_eq, h.1], h.2⟩

/-- A file name behind the front is the file in the directory. -/
theorem alike_join_directoryOf {before : List (List Char)} {other : List Char}
    (h : bodyParts path.toList = part :: before) (hother : Component other) :
    Alike (String.ofList (frontOf path ++ other))
      (join (directoryOf path) (String.ofList other)) := by
  have ends := ends_of_bodyParts h
  refine ⟨?_, ?_⟩
  · rw [isAbsolute_join_component (isEmpty_directoryOf path) hother, isAbsolute_directoryOf h,
      ends.absolute, ← List.append_nil other, isAbsolute_front_append (hother.head? [])]
  · rw [names_join _ (isAbsolute_component hother), names_component hother, names_directoryOf h,
      names_front_append ends.front hother]

/-- A pathname leads where the file of its name in its directory is. -/
theorem alike_fileName {name : String} (h : fileName? path = some name) :
    Alike path (join (directoryOf path) name) := by
  obtain ⟨before, hbody, -⟩ := fileName?_eq_some_iff.mp h
  have ends := ends_of_bodyParts hbody
  refine Alike.trans ⟨?_, ?_⟩ (String.ofList_toList ▸ alike_join_directoryOf hbody ends.component)
  · rw [ends.absolute, ← List.append_nil name.toList,
      isAbsolute_front_append (ends.component.head? [])]
  · rw [ends.names, names_front_append ends.front ends.component]

/-- The stem of a file name is its beginning. -/
theorem exists_of_fileStem? {stem : String} (h : fileStem? path = some stem) :
    ∃ name before, bodyParts path.toList = name :: before ∧ name ≠ ['.', '.'] ∧
      (stemAndExtension name).1 = stem.toList ∧ stem.toList ≠ [] ∧
      ∃ rest, name = stem.toList ++ rest := by
  obtain ⟨name, hname, rfl⟩ := Option.map_eq_some_iff.mp h
  obtain ⟨before, hbody, hparent⟩ := fileName?_eq_some_iff.mp hname
  have hne := (ends_of_bodyParts hbody).component.ne_nil
  refine ⟨name.toList, before, hbody, hparent, (String.toList_ofList ..).symm, ?_⟩
  rw [String.toList_ofList]
  unfold stemAndExtension
  dsimp only
  split
  · exact ⟨hne, [], (List.append_nil _).symm⟩
  · split
    · exact ⟨hne, [], (List.append_nil _).symm⟩
    · rename_i hbefore
      exact ⟨by simpa using hbefore, _, (List.take_append_drop ..).symm⟩

/-- With another extension a pathname is its front, its stem and the extension. -/
theorem toList_withExtension {stem : String} (h : fileStem? path = some stem) (hdot : stem ≠ ".")
    (extension : String) : (withExtension path extension).toList = frontOf path ++
      (if extension.isEmpty then stem.toList else stem.toList ++ '.' :: extension.toList) := by
  obtain ⟨name, before, hbody, hparent, hstem, -, -⟩ := exists_of_fileStem? h
  have hne : stem.toList ≠ ['.'] := fun heq => hdot (String.toList_inj.mp heq)
  unfold withExtension
  simp only [hbody, hparent, hstem, hne, false_and, if_false]
  rw [String.toList_ofList, List.reverse_cons, joinParts_append _ (List.cons_ne_nil _ _),
    frontOf_eq hbody, List.append_assoc]
  rfl

/-- A text that is made of a pathname by putting something else behind its stem. -/
structure Beside (path stem tail text : String) : Prop where
  stemmed : fileStem? path = some stem
  text : text.toList = frontOf path ++ (stem ++ tail).toList
  whole : '/' ∉ tail.toList
  counts : (stem ++ tail).toList ≠ ['.']

section
variable {stem tail text : String}

theorem Beside.component (h : Beside path stem tail text) : Component (stem ++ tail).toList := by
  obtain ⟨name, before, hbody, -, -, hne, rest, hname⟩ := exists_of_fileStem? h.stemmed
  have hwhole := (ends_of_bodyParts hbody).component.whole
  refine ⟨?_, ?_⟩
  · have hcounts := h.counts
    rw [String.toList_append] at hcounts ⊢
    simp [isComponent, hcounts, hne]
  · rw [String.toList_append, List.mem_append, not_or]
    exact ⟨fun hmem => hwhole (hname ▸ List.mem_append_left _ hmem), h.whole⟩

/-- It leads to a file in the same directory. -/
theorem Beside.alike (h : Beside path stem tail text) :
    Alike text (join (directoryOf path) (stem ++ tail)) := by
  obtain ⟨name, before, hbody, -⟩ := exists_of_fileStem? h.stemmed
  have halike := alike_join_directoryOf hbody h.component
  rwa [← h.text, String.ofList_toList, String.ofList_toList] at halike

theorem Beside.getLast? (h : Beside path stem tail text) :
    (names text).getLast? = some (stem ++ tail) := by
  have hrelative := isAbsolute_component h.component
  have hnames := names_component h.component
  rw [String.ofList_toList] at hrelative hnames
  rw [h.alike.names, names_join _ hrelative, hnames, List.getLast?_concat]

theorem Beside.named (h : Beside path stem tail text) : Disk.meansDirectory text = false := by
  obtain ⟨name, before, hbody, -⟩ := exists_of_fileStem? h.stemmed
  have hnamed := named_front_append (ends_of_bodyParts hbody).front h.component
  rwa [← h.text, String.ofList_toList] at hnamed

/-- It holds no token if the pathname holds none and nothing behind the stem closes one. -/
theorem Beside.tokenFree (h : Beside path stem tail text) (free : Reference.TokenFree path.toList)
    (unclosed : '}' ∉ tail.toList) : Reference.TokenFree text.toList := by
  obtain ⟨name, before, hbody, -, -, -, rest, hname⟩ := exists_of_fileStem? h.stemmed
  obtain ⟨behind, hpath⟩ := (ends_of_bodyParts hbody).text
  rw [h.text, String.toList_append, ← List.append_assoc]
  refine Reference.TokenFree.append (Reference.TokenFree.left (t := rest ++ behind) ?_) unclosed
  rw [hpath, hname] at free
  simpa using free

end

/-- So is a pathname with another extension. -/
theorem beside_withExtension {stem extension : String} (h : fileStem? path = some stem)
    (hdot : stem ≠ ".") (hext : extension.isEmpty = false) (whole : '/' ∉ extension.toList) :
    Beside path stem ("." ++ extension) (withExtension path extension) := by
  refine ⟨h, ?_, ?_, ?_⟩
  · rw [toList_withExtension h hdot, hext]
    simp
  · simpa using whole
  · intro heq
    obtain ⟨-, -, -, -, -, hne, -⟩ := exists_of_fileStem? h
    have hlength := congrArg List.length heq
    have hstem := List.length_pos_of_ne_nil hne
    simp at hlength hstem
    omega

/-- So is one without its extension and with another ending. -/
theorem beside_append {stem ending : String} (h : fileStem? path = some stem) (hdot : stem ≠ ".")
    (whole : '/' ∉ ending.toList) (counts : (stem ++ ending).toList ≠ ['.']) :
    Beside path stem ending (withExtension path "" ++ ending) := by
  refine ⟨h, ?_, whole, counts⟩
  rw [String.toList_append, toList_withExtension h hdot]
  simp

end Pathname

namespace Disk
open Pathname (Alike)
variable {disk after : Disk} {path other : String}

theorem leads_alike (h : Alike path other) : disk.leads path = disk.leads other := by
  unfold leads
  rw [h.absolute, h.names]

theorem Reaches.alike (hpath : disk.Reaches path) (h : Alike path other)
    (named : meansDirectory other = false) : disk.Reaches other := by
  refine ⟨?_, named⟩
  have hlocated := hpath.located
  have hempty : ∀ {text : String}, meansDirectory text = false → text.isEmpty = false := by
    intro text htext
    rw [Bool.eq_false_iff]
    intro hnil
    rw [String.isEmpty_iff] at hnil
    subst hnil
    exact absurd htext (by decide)
  unfold locate at hlocated ⊢
  rw [hempty hpath.named] at hlocated
  rw [hempty named, ← leads_alike h, ← h.absolute, ← h.names]
  exact hlocated

theorem read_alike {content : ByteArray} (hread : disk.read path = .ok content)
    (h : Alike path other) (named : meansDirectory other = false) :
    disk.read other = .ok content := by
  obtain ⟨hpath, hfile⟩ := read_iff.mp hread
  exact read_iff.mpr ⟨hpath.alike h named, leads_alike h ▸ hfile⟩

theorem destination_append (at_ : String) (l l' : List String) :
    destination at_ (l ++ l') = destination (destination at_ l) l' := List.foldl_append

theorem Normal.isAbsolute {place : String} (h : Normal place) :
    Pathname.isAbsolute place = true := by
  obtain ⟨parts, -, rfl⟩ := h
  exact Pathname.isAbsolute_iff.mpr ⟨_, toList_placeOf parts⟩

/-- A file in a directory is below the place of the directory. -/
theorem leads_join (disk : Disk) {dir : String} (hdir : dir.isEmpty = false) {file : String}
    (component : Pathname.Component file.toList) (notParent : file ≠ "..") :
    disk.leads (Pathname.join dir file) = child (disk.leads dir) file := by
  have hname : file = String.ofList file.toList := String.ofList_toList.symm
  have habsolute := Pathname.isAbsolute_join_component hdir component
  have hnames := Pathname.names_join dir (Pathname.isAbsolute_component component)
  rw [Pathname.names_component component] at hnames
  rw [← hname] at habsolute hnames
  unfold leads
  rw [habsolute, hnames, destination_append]
  simp [destination, notParent]

theorem child_injective (dir : String) : Function.Injective (child dir) := by
  intro a b h
  unfold child at h
  split at h
  · exact (String.append_right_inj _).mp h
  · exact (String.append_right_inj _).mp h

/-- A pathname leads to the same place when it is seen from a working directory that leads to
itself. -/
theorem leads_absoluteText (rooted : Pathname.isAbsolute disk.cwd = true)
    (home : disk.leads disk.cwd = disk.cwd) (path : String) :
    disk.leads (Pathname.absoluteText disk.cwd path) = disk.leads path := by
  unfold leads at home ⊢
  rw [Pathname.isAbsolute_absoluteText rooted, if_pos rfl, Pathname.names_absoluteText]
  cases Pathname.isAbsolute path with
  | true => rfl
  | false =>
    rw [rooted, if_pos rfl] at home
    simp only [Bool.false_eq_true, if_false]
    rw [destination_append, home]

end Disk
end Toolflow
