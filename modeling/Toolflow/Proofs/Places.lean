import Toolflow.Proofs.Storage

/-! Places: the normal pathnames of a disk, and disks that are trees.

A normal pathname is the root or `/` with components joined by `/`. Components lead from normal
pathnames to normal ones, and what lies above one is made of fewer of its components. On a disk
that is a tree whatever lies above an entry is a directory, so nothing lies below a file; a file
that is moved then takes nothing with it, and every directory stays where it is. -/
namespace Toolflow

namespace Pathname

/-- A component: not empty, not `.`, and without a separator. -/
structure Component (part : List Char) : Prop where
  counts : isComponent part = true
  whole : '/' ∉ part

theorem Component.ne_nil {part : List Char} (h : Component part) : part ≠ [] := by
  rintro rfl
  exact absurd h.counts (by decide)

theorem not_mem_of_mem_cut {cs part : List Char} (h : part ∈ cut cs) : '/' ∉ part := by
  induction cs generalizing part with
  | nil =>
    rw [cut, List.mem_singleton] at h
    simp [h]
  | cons c rest ih =>
    obtain ⟨first, parts, hcut⟩ := List.exists_cons_of_ne_nil (cut_ne_nil rest)
    by_cases hc : c = '/'
    · rw [cut, if_pos hc] at h
      rcases List.mem_cons.mp h with rfl | h
      · simp
      · exact ih h
    · rw [cut, if_neg hc, hcut] at h
      rcases List.mem_cons.mp h with rfl | h
      · have hfirst : '/' ∉ first := ih (hcut ▸ List.mem_cons_self)
        simp [Ne.symm hc, hfirst]
      · exact ih (hcut ▸ List.mem_cons_of_mem _ h)

theorem cut_append (s t : List Char) : cut (s ++ '/' :: t) = cut s ++ cut t := by
  induction s with
  | nil => simp [cut]
  | cons c rest ih =>
    obtain ⟨first, parts, hcut⟩ := List.exists_cons_of_ne_nil (cut_ne_nil rest)
    rw [hcut] at ih
    by_cases hc : c = '/'
    · simp [cut, hc, ih, hcut]
    · simp [cut, hc, ih, hcut]

theorem cut_of_not_mem {part : List Char} (h : '/' ∉ part) : cut part = [part] := by
  induction part with
  | nil => rfl
  | cons c rest ih =>
    obtain ⟨hc, hrest⟩ := not_or.mp (List.mem_cons.not.mp h)
    rw [cut, if_neg (Ne.symm hc), ih hrest]

theorem joinParts_cons {part : List Char} {parts : List (List Char)} (h : parts ≠ []) :
    joinParts (part :: parts) = part ++ '/' :: joinParts parts := by
  obtain ⟨next, rest, rfl⟩ := List.exists_cons_of_ne_nil h
  rfl

theorem cut_joinParts {parts : List (List Char)} (hne : parts ≠ [])
    (h : ∀ part ∈ parts, '/' ∉ part) : cut (joinParts parts) = parts := by
  induction parts with
  | nil => exact absurd rfl hne
  | cons part rest ih =>
    obtain ⟨hpart, hrest⟩ := List.forall_mem_cons.mp h
    by_cases hlast : rest = []
    · subst hlast
      exact cut_of_not_mem hpart
    · rw [joinParts_cons hlast, cut_append, cut_of_not_mem hpart, ih hlast hrest]
      rfl

theorem joinParts_concat {parts : List (List Char)} (hne : parts ≠ []) (last : List Char) :
    joinParts (parts ++ [last]) = joinParts parts ++ '/' :: last := by
  induction parts with
  | nil => exact absurd rfl hne
  | cons part rest ih =>
    by_cases hlast : rest = []
    · subst hlast
      rfl
    · rw [List.cons_append, joinParts_cons (by simp), ih hlast, joinParts_cons hlast,
        List.append_assoc, List.cons_append]

end Pathname

namespace Disk
open Pathname

/-- The normal pathname of a list of components. -/
def placeOf (parts : List (List Char)) : String := String.ofList ('/' :: joinParts parts)

/-- A normal pathname. -/
def Normal (place : String) : Prop :=
  ∃ parts, (∀ part ∈ parts, Component part) ∧ place = placeOf parts

theorem toList_placeOf (parts : List (List Char)) :
    (placeOf parts).toList = '/' :: joinParts parts := String.toList_ofList

theorem placeOf_eq_root_iff {parts : List (List Char)} (h : ∀ part ∈ parts, Component part) :
    placeOf parts = "/" ↔ parts = [] := by
  constructor
  · intro hroot
    by_contra hne
    have hchars := congrArg String.toList hroot
    rw [toList_placeOf, show ("/" : String).toList = ['/'] from rfl] at hchars
    have hnil : joinParts parts = [] := by simpa using hchars
    have hcut := cut_joinParts hne fun part hpart => (h part hpart).whole
    rw [hnil] at hcut
    exact (h [] (hcut ▸ List.mem_singleton_self _)).ne_nil rfl
  · rintro rfl
    rfl

theorem trimParts_reverse {parts : List (List Char)} (h : ∀ part ∈ parts, Component part) :
    trimParts parts.reverse = parts.reverse := by
  cases hparts : parts.reverse with
  | nil => rfl
  | cons last before =>
    have hlast : Component last := h last (List.mem_reverse.mp (hparts ▸ List.mem_cons_self))
    rw [trimParts, if_pos hlast.counts]

theorem bodyParts_placeOf {parts : List (List Char)} (h : ∀ part ∈ parts, Component part) :
    bodyParts (placeOf parts).toList = parts.reverse := by
  rw [toList_placeOf]
  show trimParts (cut (joinParts parts)).reverse = parts.reverse
  by_cases hne : parts = []
  · subst hne
    rfl
  · rw [cut_joinParts hne fun part hpart => (h part hpart).whole, trimParts_reverse h]

/-- What lies above a normal pathname has all its components but the last. -/
theorem above_placeOf {parts : List (List Char)} (h : ∀ part ∈ parts, Component part) :
    above (placeOf parts) = placeOf parts.dropLast := by
  have hhead : (splitHead (placeOf parts).toList).1 = ['/'] := by rw [toList_placeOf]; rfl
  unfold above
  rcases List.eq_nil_or_concat parts with rfl | ⟨before, last, rfl⟩
  · rfl
  · have hbefore : ∀ part ∈ before, Component part := fun part hpart =>
      h part (by simp [hpart])
    have hreverse : (before.concat last).reverse = last :: before.reverse := by simp
    have hparent : parent? (placeOf (before.concat last)) = some (placeOf before) := by
      simp only [parent?, bodyParts_placeOf h, hhead, hreverse, trimParts_reverse hbefore,
        List.reverse_reverse]
      rfl
    rw [hparent, List.concat_eq_append, List.dropLast_concat]
    rfl

theorem child_placeOf {parts : List (List Char)} (h : ∀ part ∈ parts, Component part)
    (name : List Char) : child (placeOf parts) (String.ofList name) = placeOf (parts ++ [name]) := by
  unfold child
  by_cases hne : parts = []
  · rw [if_pos ((placeOf_eq_root_iff h).mpr hne), hne]
    apply String.toList_inj.mp
    simp [toList_placeOf, joinParts]
  · rw [if_neg ((placeOf_eq_root_iff h).not.mpr hne)]
    apply String.toList_inj.mp
    simp [toList_placeOf, joinParts_concat hne]

/-- What a normal pathname lies below is made of some of its first components. -/
theorem isBelow_placeOf {dir : String} {parts : List (List Char)}
    (h : ∀ part ∈ parts, Component part) (below : isBelow dir (placeOf parts) = true)
    (named : dir ≠ "") : ∃ k < parts.length, dir = placeOf (parts.take k) := by
  obtain ⟨hne, hprefix⟩ := Bool.and_eq_true_iff.mp below
  have hother : placeOf parts ≠ dir := by simpa using hne
  by_cases hroot : dir = "/"
  · refine ⟨0, List.length_pos_of_ne_nil fun hnil => hother ?_, hroot⟩
    rw [hroot, hnil]
    rfl
  · rw [if_neg hroot] at hprefix
    obtain ⟨tail, htail⟩ := List.isPrefixOf_iff_prefix.mp hprefix
    obtain ⟨c, chars, hdir⟩ := List.exists_cons_of_ne_nil (String.toList_eq_nil_iff.not.mpr named)
    rw [toList_placeOf, String.toList_append, hdir] at htail
    obtain ⟨rfl, hbody⟩ := List.cons.inj htail
    have hbody : chars ++ '/' :: tail = joinParts parts := by simpa using hbody
    have hparts : parts ≠ [] := by
      rintro rfl
      simp [joinParts] at hbody
    have hcut : cut chars ++ cut tail = parts := by
      rw [← cut_append, hbody, cut_joinParts hparts fun part hpart => (h part hpart).whole]
    refine ⟨(cut chars).length, ?_, ?_⟩
    · rw [← hcut, List.length_append]
      exact Nat.lt_add_of_pos_right (List.length_pos_of_ne_nil (cut_ne_nil tail))
    · apply String.toList_inj.mp
      rw [toList_placeOf, ← hcut, List.take_left', joinParts_cut, hdir]
      rfl

theorem normal_root : Normal "/" := ⟨[], by simp, rfl⟩

theorem Normal.ne_empty {place : String} (h : Normal place) : place ≠ "" := by
  obtain ⟨parts, -, rfl⟩ := h
  intro hempty
  have hchars := congrArg String.toList hempty
  rw [toList_placeOf] at hchars
  cases hchars

theorem Normal.above {place : String} (h : Normal place) : Normal (above place) := by
  obtain ⟨parts, hparts, rfl⟩ := h
  rw [above_placeOf hparts]
  exact ⟨parts.dropLast, fun part hpart => hparts part (List.mem_of_mem_dropLast hpart), rfl⟩

theorem Normal.child {place : String} (h : Normal place) {name : List Char}
    (hname : Component name) : Normal (child place (String.ofList name)) := by
  obtain ⟨parts, hparts, rfl⟩ := h
  rw [child_placeOf hparts]
  refine ⟨parts ++ [name], fun part hpart => ?_, rfl⟩
  rcases List.mem_append.mp hpart with hold | hnew
  · exact hparts part hold
  · exact List.mem_singleton.mp hnew ▸ hname

theorem component_of_mem_names {path name : String} (h : name ∈ names path) :
    ∃ part, Component part ∧ name = String.ofList part := by
  obtain ⟨part, hpart, rfl⟩ := List.mem_map.mp h
  obtain ⟨hcut, hcounts⟩ := List.mem_filter.mp hpart
  exact ⟨part, ⟨hcounts, not_mem_of_mem_cut hcut⟩, rfl⟩

/-- Components lead from a normal pathname to a normal one. -/
theorem Normal.follow {entries : Table Entry} {names : List String} {at_ place : String}
    (h : Normal at_) (hnames : ∀ name ∈ names, ∃ part, Component part ∧ name = String.ofList part)
    (hfollow : follow entries at_ names = .ok place) : Normal place := by
  induction names generalizing at_ with
  | nil =>
    cases hfollow
    exact h
  | cons name rest ih =>
    obtain ⟨hname, hrest⟩ := List.forall_mem_cons.mp hnames
    rw [Disk.follow] at hfollow
    split at hfollow
    · refine ih ?_ hrest hfollow
      split
      · exact h.above
      · obtain ⟨part, hpart, rfl⟩ := hname
        exact h.child hpart
    · cases hfollow
    · cases hfollow

/-! ### Trees -/

/-- A disk on which the entries form a tree: each has a normal pathname, the root is a directory,
and above each stands a directory. -/
structure IsTree (disk : Disk) : Prop where
  ascending : disk.entries.Ascending
  cwd : Normal disk.cwd
  root : disk.entries.get? "/" = some .directory
  normal : ∀ place, disk.entries.contains place = true → Normal place
  above : ∀ place, disk.entries.contains place = true → place ≠ "/" →
    disk.entries.get? (above place) = some .directory

variable {disk after : Disk} {path place : String}

theorem contains_of_get? {entries : Table Entry} {entry : Entry}
    (h : entries.get? place = some entry) : entries.contains place = true :=
  Table.contains_eq_true_iff.mpr ⟨entry, h⟩

theorem isTree_empty : Disk.empty.IsTree := by
  have hroot : ∀ place, Disk.empty.entries.contains place = true → place = "/" := by
    intro place hplace
    rcases (Table.contains_insert ..).mp hplace with rfl | hnone
    · rfl
    · cases hnone
  refine ⟨Table.ascending_empty.insert _ _, normal_root, rfl, fun place hplace => ?_,
    fun place hplace hne => absurd (hroot place hplace) hne⟩
  rw [hroot place hplace]
  exact normal_root

theorem IsTree.normal_locate (tree : disk.IsTree) (h : disk.locate path = .ok place) :
    Normal place := by
  unfold locate at h
  split at h
  · cases h
  · refine Normal.follow ?_ (fun name hname => component_of_mem_names hname) h
    split
    · exact normal_root
    · exact tree.cwd

theorem IsTree.get?_take (tree : disk.IsTree) {parts : List (List Char)}
    (hparts : ∀ part ∈ parts, Component part)
    (h : disk.entries.contains (placeOf parts) = true) {k : Nat} (hk : k < parts.length) :
    disk.entries.get? (placeOf (parts.take k)) = some .directory := by
  induction parts using List.reverseRecOn with
  | nil => cases hk
  | append_singleton before last ih =>
    have hbefore : ∀ part ∈ before, Component part := fun part hpart =>
      hparts part (List.mem_append_left _ hpart)
    have hne : placeOf (before ++ [last]) ≠ "/" :=
      (placeOf_eq_root_iff hparts).not.mpr (by simp)
    have habove := tree.above _ h hne
    rw [above_placeOf hparts, List.dropLast_concat] at habove
    rw [List.length_append, List.length_singleton] at hk
    rcases Nat.lt_succ_iff_lt_or_eq.mp hk with hlt | rfl
    · rw [List.take_append_of_le_length (Nat.le_of_lt hlt)]
      exact ih hbefore (contains_of_get? habove) hlt
    · rwa [List.take_left']
      rfl

/-- Whatever an entry lies below is a directory. -/
theorem IsTree.get?_of_isBelow (tree : disk.IsTree) {dir : String}
    (h : disk.entries.contains place = true) (below : isBelow dir place = true)
    (named : dir ≠ "") : disk.entries.get? dir = some .directory := by
  obtain ⟨parts, hparts, rfl⟩ := tree.normal place h
  obtain ⟨k, hk, rfl⟩ := isBelow_placeOf hparts below named
  exact tree.get?_take hparts h hk

/-- The disk without what stands at a place. -/
def without (disk : Disk) (place : String) : Disk :=
  { disk with entries := disk.entries.erase place }

theorem get?_put_of_directory {dir : String} (entry : Entry)
    (free : disk.entries.get? place ≠ some .directory)
    (h : disk.entries.get? dir = some .directory) :
    (disk.put place entry).entries.get? dir = some .directory := by
  rw [put, Table.get?_insert_of_ne, h]
  rintro rfl
  exact free h

theorem get?_without_of_directory {dir : String}
    (free : disk.entries.get? place ≠ some .directory)
    (h : disk.entries.get? dir = some .directory) :
    (disk.without place).entries.get? dir = some .directory := by
  rw [without, Table.get?_erase, if_neg, h]
  rintro rfl
  exact free h

theorem not_directory_without (place : String) {q : String}
    (free : disk.entries.get? q ≠ some .directory) :
    (disk.without place).entries.get? q ≠ some .directory := by
  rw [without, Table.get?_erase]
  split
  · simp
  · exact free

/-- An entry may be put where no directory stands, below one. -/
theorem IsTree.put (tree : disk.IsTree) (hplace : Normal place) (entry : Entry)
    (free : disk.entries.get? place ≠ some .directory)
    (below : disk.entries.get? (Disk.above place) = some .directory) :
    (disk.put place entry).IsTree := by
  refine ⟨tree.ascending.insert _ _, tree.cwd, get?_put_of_directory _ free tree.root,
    fun q hq => ?_, fun q hq hroot => ?_⟩
  · rcases (Table.contains_insert ..).mp hq with rfl | hold
    · exact hplace
    · exact tree.normal q hold
  · refine get?_put_of_directory _ free ?_
    rcases (Table.contains_insert ..).mp hq with rfl | hold
    · exact below
    · exact tree.above q hold hroot

/-- What is not a directory may be taken away. -/
theorem IsTree.without (tree : disk.IsTree) (free : disk.entries.get? place ≠ some .directory) :
    (disk.without place).IsTree := by
  have hold : ∀ q, (disk.without place).entries.contains q = true →
      disk.entries.contains q = true := by
    intro q hq
    rw [Disk.without, Table.contains, Table.get?_erase] at hq
    split at hq
    · cases hq
    · exact hq
  exact ⟨tree.ascending.erase _, tree.cwd, get?_without_of_directory free tree.root,
    fun q hq => tree.normal q (hold q hq),
    fun q hq hroot => get?_without_of_directory free (tree.above q (hold q hq) hroot)⟩

theorem IsTree.contains_of_mem (tree : disk.IsTree) {e : String × Entry}
    (h : e ∈ disk.entries.entries) : disk.entries.contains e.1 = true :=
  contains_of_get? (tree.ascending.get?_eq_some_iff.mpr h)

theorem IsTree.not_below (tree : disk.IsTree) {dir : String} {e : String × Entry}
    (h : e ∈ disk.entries.entries) (free : disk.entries.get? dir ≠ some .directory)
    (named : dir ≠ "") : isBelow dir e.1 = false := by
  by_contra hbelow
  exact free (tree.get?_of_isBelow (tree.contains_of_mem h) (by simpa using hbelow) named)

/-- Nothing goes with what is not a directory. -/
theorem IsTree.dropTree_eq (tree : disk.IsTree)
    (free : disk.entries.get? place ≠ some .directory) (named : place ≠ "") :
    disk.dropTree place = disk.without place := by
  have hkeep : ∀ e ∈ disk.entries.entries,
      (e.1 != place && !isBelow place e.1) = (e.1 != place) := by
    intro e he
    rw [tree.not_below he free named, Bool.not_false, Bool.and_true]
  simp only [dropTree, Disk.without, Table.filter, Table.erase, List.filter_congr hkeep]

theorem filterMap_eq_singleton {α β : Type} {f : α → Option β} {l : List α} {a : α} {b : β}
    (nodup : l.Nodup) (h : a ∈ l) (ha : f a = some b)
    (others : ∀ e ∈ l, e ≠ a → f e = none) : l.filterMap f = [b] := by
  induction l with
  | nil => cases h
  | cons e rest ih =>
    obtain ⟨hnot, hrest⟩ := List.nodup_cons.mp nodup
    have hothers : ∀ d ∈ rest, d ≠ a → f d = none := fun d hd =>
      others d (List.mem_cons_of_mem _ hd)
    rcases List.mem_cons.mp h with rfl | hmem
    · have hnone : rest.filterMap f = [] := List.filterMap_eq_nil_iff.mpr fun d hd =>
        hothers d hd fun heq => hnot (heq ▸ hd)
      rw [List.filterMap_cons_some ha, hnone]
    · have hne : e ≠ a := fun heq => hnot (heq ▸ hmem)
      rw [List.filterMap_cons_none (others e List.mem_cons_self hne), ih hrest hmem hothers]

/-- With a file, nothing else is moved. -/
theorem IsTree.filterMap_moved (tree : disk.IsTree) {origin goal : String} {content : ByteArray}
    {executable : Bool} (h : disk.entries.get? origin = some (.file content executable))
    (named : origin ≠ "") :
    (disk.entries.entries.filterMap fun (p, entry) =>
      if p = origin then some (goal, entry)
      else if isBelow origin p then
        some (goal ++ String.ofList (p.toList.drop origin.length), entry)
      else none) = [(goal, .file content executable)] := by
  have hfile : disk.entries.get? origin ≠ some .directory := by simp [h]
  have hnodup : disk.entries.entries.Nodup :=
    (List.pairwise_map.mp tree.ascending).imp fun hlt heq => absurd hlt (by simp [heq])
  refine filterMap_eq_singleton hnodup (tree.ascending.get?_eq_some_iff.mp h) (if_pos rfl) ?_
  rintro ⟨p, entry⟩ he hne
  have helse : p ≠ origin := by
    rintro rfl
    have hthere := tree.ascending.get?_eq_some_iff.mpr he
    rw [h] at hthere
    exact hne (by rw [Option.some.inj hthere])
  dsimp only
  rw [if_neg helse, if_neg (by simpa using tree.not_below he hfile named)]

/-- A file that is moved leaves its place and stands in the other, alone. -/
theorem IsTree.moveTree_file (tree : disk.IsTree) {origin goal : String} {content : ByteArray}
    {executable : Bool} (h : disk.entries.get? origin = some (.file content executable))
    (free : disk.entries.get? goal ≠ some .directory) (named : origin ≠ "")
    (named' : goal ≠ "") :
    disk.moveTree origin goal =
      ((disk.without origin).without goal).put goal (.file content executable) := by
  have hfile : disk.entries.get? origin ≠ some .directory := by simp [h]
  have hgoal := not_directory_without origin free
  unfold moveTree
  rw [tree.filterMap_moved h named, tree.dropTree_eq hfile named,
    (tree.without hfile).dropTree_eq hgoal named']
  rfl

/-- Where every directory stays, pathnames lead where they did. -/
theorem follow_mono {entries other : Table Entry} {names : List String} {at_ : String}
    (kept : ∀ dir, entries.get? dir = some .directory → other.get? dir = some .directory)
    (h : follow entries at_ names = .ok place) : follow other at_ names = .ok place := by
  induction names generalizing at_ with
  | nil => exact h
  | cons name rest ih =>
    rw [follow] at h ⊢
    split at h
    · rename_i hdir
      rw [kept _ hdir]
      exact ih h
    · cases h
    · cases h

theorem locate_mono (kept : ∀ dir, disk.entries.get? dir = some .directory →
      after.entries.get? dir = some .directory) (cwd : after.cwd = disk.cwd)
    (h : disk.locate path = .ok place) : after.locate path = .ok place := by
  unfold locate at h ⊢
  split at h
  · cases h
  · rename_i hsome
    rw [if_neg hsome, cwd]
    exact follow_mono kept h

theorem find_of_locate {content : ByteArray} {executable : Bool}
    (h : disk.locate path = .ok place)
    (there : disk.entries.get? place = some (.file content executable))
    (named : meansDirectory path = false) :
    disk.find path = .ok (place, .file content executable) := by
  unfold find
  rw [h]
  simp [there, named, Bind.bind, Except.bind]

/-- Writing a file keeps the tree. -/
theorem IsTree.write (tree : disk.IsTree) {content : ByteArray}
    (h : disk.write path content = .ok after) : after.IsTree := by
  obtain ⟨place, executable, hplace, hfree, -, habove, rfl⟩ := write_eq_ok h
  refine tree.put (tree.normal_locate hplace) _ hfree ?_
  cases hentry : disk.entries.get? place with
  | none => exact habove hentry
  | some entry =>
    refine tree.above place (contains_of_get? hentry) ?_
    rintro rfl
    exact hfree tree.root

/-- A file that was not there before and is removed again leaves the disk as it was. -/
theorem IsTree.removeFile_written (tree : disk.IsTree) {content : ByteArray} {written : Disk}
    (fresh : disk.exists? path = false) (h : disk.write path content = .ok written) :
    written.removeFile path = .ok disk := by
  obtain ⟨place, executable, hplace, hfree, hname, -, rfl⟩ := write_eq_ok h
  have hnone : disk.entries.get? place = none := by
    cases hentry : disk.entries.get? place with
    | none => rfl
    | some entry =>
      cases entry with
      | directory => exact absurd hentry hfree
      | file old mode =>
        rw [exists?, lookup?, find_of_locate hplace hentry hname] at fresh
        cases fresh
  have hlocate : (disk.put place (.file content executable)).locate path = .ok place :=
    locate_mono (fun _ => get?_put_of_directory _ hfree) rfl hplace
  have hentries : (disk.entries.insert place (.file content executable)).erase place =
      disk.entries := by
    refine ((tree.ascending.insert _ _).erase _).ext tree.ascending fun q => ?_
    rw [Table.get?_erase, Table.get?_insert]
    by_cases hq : q = place
    · rw [if_pos hq, hq, hnone]
    · rw [if_neg hq, if_neg hq]
  unfold removeFile
  rw [find_of_locate hlocate (Table.get?_insert_self ..) hname]
  show Except.ok { disk with entries := (disk.entries.insert place _).erase place } = .ok disk
  rw [hentries]

/-- A file that is renamed keeps the tree, and is read under its new name. -/
theorem IsTree.rename_file (tree : disk.IsTree) {source target origin : String}
    {content : ByteArray} {executable : Bool}
    (hfile : disk.entries.get? origin = some (.file content executable))
    (horigin : disk.locate source = .ok origin) (h : disk.rename source target = .ok after) :
    after.IsTree ∧ after.read target = .ok content := by
  obtain ⟨goal, hgoal, hname, habove, hfree, hafter⟩ := Disk.rename_file hfile horigin h
  have hmoved : after.IsTree ∧ after.locate target = .ok goal ∧
      after.entries.get? goal = some (.file content executable) := by
    rcases hafter with ⟨rfl, rfl⟩ | rfl
    · exact ⟨tree, hgoal, hfile⟩
    · have hout : disk.entries.get? origin ≠ some .directory := by simp [hfile]
      have horiginNormal := tree.normal_locate horigin
      have hgoalNormal := tree.normal_locate hgoal
      have hrest := not_directory_without origin hfree
      have hgone := not_directory_without goal hrest
      have hkept : ∀ dir, disk.entries.get? dir = some .directory →
          ((disk.without origin).without goal).entries.get? dir = some .directory :=
        fun dir hdir => get?_without_of_directory hrest (get?_without_of_directory hout hdir)
      have hlocate : (((disk.without origin).without goal).put goal
          (.file content executable)).locate target = .ok goal :=
        locate_mono (fun dir hdir => get?_put_of_directory _ hgone (hkept dir hdir)) rfl hgoal
      rw [tree.moveTree_file hfile hfree horiginNormal.ne_empty hgoalNormal.ne_empty]
      exact ⟨((tree.without hout).without hrest).put hgoalNormal _ hgone (hkept _ habove),
        hlocate, Table.get?_insert_self ..⟩
  obtain ⟨htree, hlocate, hthere⟩ := hmoved
  exact ⟨htree, read_eq_ok_iff.mpr ⟨goal, executable, find_of_locate hlocate hthere hname⟩⟩

end Disk
end Toolflow
