import Toolflow.Proofs.Places

/-! Pathnames seen from a directory.

What is seen from an absolute directory is absolute. It has the components of the directory and then
its own; a pathname that is absolute already has its own components alone. -/
namespace Toolflow.Pathname

theorem isAbsolute_iff {path : String} :
    isAbsolute path = true ↔ ∃ rest, path.toList = '/' :: rest := by
  unfold isAbsolute
  cases path.toList with
  | nil => simp
  | cons c rest => simp

theorem isAbsolute_append {base : String} (h : isAbsolute base = true) (path : String) :
    isAbsolute (base ++ path) = true := by
  obtain ⟨rest, hrest⟩ := isAbsolute_iff.mp h
  exact isAbsolute_iff.mpr ⟨rest ++ path.toList, by rw [String.toList_append, hrest]; rfl⟩

theorem isAbsolute_join {base : String} (h : isAbsolute base = true) (path : String) :
    isAbsolute (join base path) = true := by
  unfold join
  split
  · assumption
  · split
    · exact isAbsolute_append h path
    · exact isAbsolute_append (isAbsolute_append h "/") path

theorem isAbsolute_foldl_join {base : String} (h : isAbsolute base = true) (l : List String) :
    isAbsolute (l.foldl join base) = true := by
  induction l generalizing base with
  | nil => exact h
  | cons name rest ih => exact ih (isAbsolute_join h name)

/-- What is seen from an absolute directory is absolute. -/
theorem isAbsolute_absolute {cwd : String} (h : isAbsolute cwd = true) (path : String) :
    isAbsolute (absolute cwd path) = true := by
  have hwhole : isAbsolute ((names path).foldl join (if ¬ isAbsolute path then cwd
      else if (path.toList.take 2 = ['/', '/']) ∧ (path.toList.drop 2).head? ≠ some '/' then "//"
      else "/")) = true := by
    refine isAbsolute_foldl_join ?_ _
    split
    · exact h
    · split
      · decide
      · decide
  unfold absolute
  dsimp only
  split
  · exact isAbsolute_join hwhole ""
  · exact hwhole

theorem isAbsolute_absoluteText {cwd : String} (h : isAbsolute cwd = true) (path : String) :
    isAbsolute (absoluteText cwd path) = true :=
  isAbsolute_absolute h _

/-- The head of a pathname is no component. -/
theorem names_eq (path : String) :
    names path = ((cut path.toList).filter isComponent).map String.ofList := by
  unfold names
  congr 1
  generalize path.toList = cs
  unfold splitHead
  split
  · rfl
  · rfl
  · rfl
  · rfl

theorem names_empty : names "" = [] := by decide

theorem names_append_slash (s t : String) : names (s ++ "/" ++ t) = names s ++ names t := by
  have hchars : (s ++ "/" ++ t).toList = s.toList ++ '/' :: t.toList := by simp
  rw [names_eq, names_eq, names_eq, hchars, cut_append, List.filter_append, List.map_append]

/-- A separator at the end adds no component. -/
theorem names_concat_slash (s : String) : names (s ++ "/") = names s := by
  have hjoin := names_append_slash s ""
  rwa [String.append_empty, names_empty, List.append_nil] at hjoin

/-- Joining pathnames joins their components. -/
theorem names_join (base : String) {path : String} (h : isAbsolute path = false) :
    names (join base path) = names base ++ names path := by
  unfold join
  rw [if_neg (by simp [h])]
  split
  · rename_i hends
    rcases hends with hempty | hslash
    · have hnil : base = "" := by simpa using hempty
      rw [hnil, names_empty, String.empty_append, List.nil_append]
    · obtain ⟨front, hfront⟩ : ∃ front, base = String.ofList front ++ "/" := by
        refine ⟨base.toList.dropLast, String.toList_inj.mp ?_⟩
        rw [String.toList_append, String.toList_ofList]
        exact (List.dropLast_append_getLast? _ hslash).symm
      rw [hfront, names_append_slash, names_concat_slash]
  · exact names_append_slash base path

theorem names_component {part : List Char} (h : Component part) :
    names (String.ofList part) = [String.ofList part] := by
  rw [names_eq, String.toList_ofList, cut_of_not_mem h.whole]
  simp [h.counts]

theorem isAbsolute_component {part : List Char} (h : Component part) :
    isAbsolute (String.ofList part) = false := by
  rw [Bool.eq_false_iff]
  intro habsolute
  obtain ⟨rest, hrest⟩ := isAbsolute_iff.mp habsolute
  rw [String.toList_ofList] at hrest
  exact h.whole (hrest ▸ List.mem_cons_self)

theorem names_foldl_join {l : List String}
    (h : ∀ name ∈ l, ∃ part, Component part ∧ name = String.ofList part) (base : String) :
    names (l.foldl join base) = names base ++ l := by
  induction l generalizing base with
  | nil => simp
  | cons name rest ih =>
    obtain ⟨⟨part, hpart, rfl⟩, hrest⟩ := List.forall_mem_cons.mp h
    rw [List.foldl_cons, ih hrest, names_join _ (isAbsolute_component hpart),
      names_component hpart, List.append_assoc]
    rfl

/-- The components of a pathname seen from a directory. -/
theorem names_absolute (cwd path : String) :
    names (absolute cwd path) =
      (if isAbsolute path then [] else names cwd) ++ names path := by
  have hstart : names (if ¬ isAbsolute path then cwd
      else if (path.toList.take 2 = ['/', '/']) ∧ (path.toList.drop 2).head? ≠ some '/' then "//"
      else "/") = if isAbsolute path then [] else names cwd := by
    cases isAbsolute path with
    | false => rfl
    | true =>
      simp only [not_true_eq_false, if_false, if_true]
      split
      · decide
      · decide
  have hwhole := names_foldl_join (l := names path)
    (fun name hname => Disk.component_of_mem_names hname)
  unfold absolute
  dsimp only
  split
  · rw [names_join _ (by decide), hwhole, hstart, names_empty, List.append_nil]
  · rw [hwhole, hstart]

theorem names_absoluteText (cwd path : String) :
    names (absoluteText cwd path) =
      (if isAbsolute path then [] else names cwd) ++ names path := by
  unfold absoluteText
  split
  · rename_i hempty
    have hpath : path = "" := by simpa using hempty
    subst hpath
    exact names_absolute cwd "."
  · exact names_absolute cwd path

/-- Absolute pathnames are told apart by their components. -/
theorem same_iff {p q : String} (hp : isAbsolute p = true) (hq : isAbsolute q = true) :
    same p q = true ↔ names p = names q := by
  obtain ⟨pr, hpr⟩ := isAbsolute_iff.mp hp
  obtain ⟨qr, hqr⟩ := isAbsolute_iff.mp hq
  unfold same
  simp [hpr, hqr, splitHead]

/-! ### The text of what is seen from a directory -/

/-- Parts with a separator behind each. -/
def slashedParts (parts : List (List Char)) : List Char := parts.flatMap (· ++ ['/'])

theorem slashedParts_cons (part : List Char) (parts : List (List Char)) :
    slashedParts (part :: parts) = part ++ '/' :: slashedParts parts := by
  simp [slashedParts]

theorem slashedParts_append (parts more : List (List Char)) :
    slashedParts (parts ++ more) = slashedParts parts ++ slashedParts more :=
  List.flatMap_append

theorem slashedParts_eq {parts : List (List Char)} (h : parts ≠ []) :
    slashedParts parts = joinParts parts ++ ['/'] := by
  induction parts with
  | nil => exact absurd rfl h
  | cons part rest ih =>
    rw [slashedParts_cons]
    by_cases hrest : rest = []
    · subst hrest
      rfl
    · rw [ih hrest, joinParts_cons hrest, List.append_assoc, List.cons_append]

/-- A text with a separator at its end. -/
def slashed (path : String) : List Char :=
  if path.toList.getLast? = some '/' then path.toList else path.toList ++ ['/']

theorem eq_slashed_or_append (path : String) :
    path.toList = slashed path ∨ path.toList ++ ['/'] = slashed path := by
  unfold slashed
  split
  · exact Or.inl rfl
  · exact Or.inr rfl

theorem exists_slashed (path : String) :
    ∃ front, slashed path = front ++ ['/'] ∧ names (String.ofList front) = names path := by
  unfold slashed
  split
  · rename_i hlast
    refine ⟨path.toList.dropLast, (List.dropLast_append_getLast? _ hlast).symm, ?_⟩
    have hpath : path = String.ofList path.toList.dropLast ++ "/" := by
      refine String.toList_inj.mp ?_
      rw [String.toList_append, String.toList_ofList]
      exact (List.dropLast_append_getLast? _ hlast).symm
    conv_rhs => rw [hpath, names_concat_slash]
  · exact ⟨path.toList, rfl, by rw [String.ofList_toList]⟩

/-- A text behind a directory and a separator is below the directory. -/
theorem names_slashed_append (cwd path : String) :
    names (String.ofList (slashed cwd) ++ path) = names cwd ++ names path := by
  obtain ⟨front, hfront, hnames⟩ := exists_slashed cwd
  rw [hfront, String.ofList_append, ← hnames]
  exact names_append_slash (String.ofList front) path

theorem isAbsolute_slashed {path : String} (h : isAbsolute path = true) :
    isAbsolute (String.ofList (slashed path)) = true := by
  rcases eq_slashed_or_append path with hsame | hslash
  · rwa [← hsame, String.ofList_toList]
  · rw [← hslash, String.ofList_append, String.ofList_toList]
    exact isAbsolute_append h _

/-- A component is joined behind a separator. -/
theorem slashed_join {base : String} (hbase : base.isEmpty = false) {part : List Char}
    (h : Component part) :
    slashed (join base (String.ofList part)) = slashed base ++ (part ++ ['/']) := by
  have htext : (join base (String.ofList part)).toList = slashed base ++ part := by
    unfold join slashed
    rw [if_neg (by simp [isAbsolute_component h])]
    by_cases hlast : base.toList.getLast? = some '/'
    · rw [if_pos (Or.inr hlast), if_pos hlast, String.toList_append, String.toList_ofList]
    · rw [if_neg (by simp [hbase, hlast]), if_neg hlast]
      simp
  have hend : (slashed base ++ part).getLast? ≠ some '/' := by
    rw [List.getLast?_append_of_ne_nil _ h.ne_nil]
    exact fun hlast => h.whole (List.mem_of_getLast? hlast)
  rw [slashed, htext, if_neg hend, List.append_assoc]

theorem isEmpty_of_isAbsolute {path : String} (h : isAbsolute path = true) :
    path.isEmpty = false := by
  obtain ⟨rest, hrest⟩ := isAbsolute_iff.mp h
  rw [Bool.eq_false_iff]
  intro hempty
  rw [String.isEmpty_iff] at hempty
  rw [hempty] at hrest
  cases hrest

/-- So are several. -/
theorem slashed_foldl_join {base : String} (hbase : isAbsolute base = true)
    {parts : List (List Char)} (h : ∀ part ∈ parts, Component part) :
    slashed ((parts.map String.ofList).foldl join base) =
      slashed base ++ slashedParts parts := by
  induction parts generalizing base with
  | nil => simp [slashedParts]
  | cons part rest ih =>
    obtain ⟨hpart, hrest⟩ := List.forall_mem_cons.mp h
    rw [List.map_cons, List.foldl_cons, ih (isAbsolute_join hbase _) hrest,
      slashed_join (isEmpty_of_isAbsolute hbase) hpart, slashedParts_cons]
    simp

theorem slashed_join_empty {base : String} (hbase : base.isEmpty = false) :
    slashed (join base "") = slashed base := by
  have hrelative : isAbsolute "" = false := by decide
  have htext : (join base "").toList = slashed base := by
    unfold join slashed
    rw [if_neg (by simp [hrelative])]
    by_cases hlast : base.toList.getLast? = some '/'
    · rw [if_pos (Or.inr hlast), if_pos hlast, String.append_empty]
    · rw [if_neg (by simp [hbase, hlast]), if_neg hlast, String.append_empty,
        String.toList_append]
      rfl
  obtain ⟨front, hfront, -⟩ := exists_slashed base
  rw [slashed, htext, hfront, if_pos List.getLast?_concat]

/-- The components of a text. -/
def components (path : String) : List (List Char) := (cut path.toList).filter isComponent

theorem component_of_mem {path : String} {part : List Char} (h : part ∈ components path) :
    Component part :=
  ⟨List.of_mem_filter h, not_mem_of_mem_cut (List.mem_of_mem_filter h)⟩

/-- A relative pathname seen from an absolute directory: the directory, and the components. -/
theorem slashed_absoluteText {cwd path : String} (rooted : isAbsolute cwd = true)
    (relative : isAbsolute path = false) (nonempty : path.isEmpty = false) :
    slashed (absoluteText cwd path) = slashed cwd ++ slashedParts (components path) := by
  have hwhole : slashed ((names path).foldl join cwd) =
      slashed cwd ++ slashedParts (components path) := by
    rw [names_eq]
    exact slashed_foldl_join rooted fun part => component_of_mem
  unfold absoluteText
  rw [if_neg (by simp [nonempty])]
  unfold absolute
  dsimp only
  rw [if_pos (c := ¬ isAbsolute path = true) (by simp [relative])]
  split
  · rw [slashed_join_empty (isEmpty_of_isAbsolute (isAbsolute_foldl_join rooted _)), hwhole]
  · exact hwhole

theorem names_slashedParts {parts : List (List Char)} (h : ∀ part ∈ parts, Component part) :
    names (String.ofList (slashedParts parts)) = parts.map String.ofList := by
  induction parts with
  | nil => exact names_empty
  | cons part rest ih =>
    obtain ⟨hpart, hrest⟩ := List.forall_mem_cons.mp h
    have htext : String.ofList (slashedParts (part :: rest)) =
        String.ofList part ++ "/" ++ String.ofList (slashedParts rest) := by
      refine String.toList_inj.mp ?_
      simp [slashedParts_cons]
    rw [htext, names_append_slash, names_component hpart, ih hrest, List.map_cons]
    rfl

end Toolflow.Pathname
