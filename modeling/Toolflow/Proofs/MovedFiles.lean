import Toolflow.Proofs.Places

/-! Files that are moved one after another.

Seen as contents of places, moving a file empties the place it came from and overwrites the one it
goes to. Several files that are moved in a row, each from a place of its own to a place of its own,
all arrive exactly if none of them goes where a later one still lies. Renaming does that on a disk
that is a tree, and making directories leaves all files where they are. -/
namespace Toolflow

/-! ### Contents of places -/

section
variable {α : Type} {files : String → Option α} {l : List (String × String)} {place : String}

/-- The contents once something has been moved from one place to another. -/
def handOn (files : String → Option α) (move : String × String) : String → Option α :=
  fun place => if place = move.2 then files move.1 else if place = move.1 then none else files place

theorem handOn_self (files : String → Option α) (place : String) :
    handOn files (place, place) = files := by
  funext other
  unfold handOn
  split
  · rename_i h
    rw [h]
  · rfl

/-- What is neither taken nor overwritten stays. -/
theorem foldl_handOn_of_untouched (hsource : place ∉ l.map (·.1)) (hgoal : place ∉ l.map (·.2)) :
    l.foldl handOn files place = files place := by
  induction l generalizing files with
  | nil => rfl
  | cons move rest ih =>
    obtain ⟨hs, hsource⟩ := not_or.mp (List.mem_cons.not.mp hsource)
    obtain ⟨hg, hgoal⟩ := not_or.mp (List.mem_cons.not.mp hgoal)
    rw [List.foldl_cons, ih hsource hgoal, handOn, if_neg hg, if_neg hs]

/-- What is empty and not overwritten stays empty. -/
theorem foldl_handOn_of_none (h : files place = none) (hgoal : place ∉ l.map (·.2)) :
    l.foldl handOn files place = none := by
  induction l generalizing files with
  | nil => exact h
  | cons move rest ih =>
    obtain ⟨hg, hgoal⟩ := not_or.mp (List.mem_cons.not.mp hgoal)
    refine ih ?_ hgoal
    rw [handOn, if_neg hg, h, ite_self]

/-- What is taken and not overwritten is gone. -/
theorem foldl_handOn_of_taken (hsource : place ∈ l.map (·.1)) (hgoal : place ∉ l.map (·.2)) :
    l.foldl handOn files place = none := by
  induction l generalizing files with
  | nil => cases hsource
  | cons move rest ih =>
    obtain ⟨hg, hgoal⟩ := not_or.mp (List.mem_cons.not.mp hgoal)
    by_cases hs : place = move.1
    · rw [List.foldl_cons]
      refine foldl_handOn_of_none ?_ hgoal
      rw [handOn, if_neg hg, if_pos hs]
    · exact ih ((List.mem_cons.mp hsource).resolve_left hs) hgoal

/-- Something arrives if what is before leaves it alone and what is behind leaves it there. -/
theorem foldl_handOn_arrives {source goal : String} {before behind : List (String × String)}
    (stays : source ∉ before.map (·.1)) (spared : source ∉ before.map (·.2))
    (kept : goal ∉ behind.map (·.1)) (last : goal ∉ behind.map (·.2)) :
    (before ++ (source, goal) :: behind).foldl handOn files goal = files source := by
  rw [List.foldl_append, List.foldl_cons, foldl_handOn_of_untouched kept last, handOn, if_pos rfl,
    foldl_handOn_of_untouched stays spared]

/-- The first move leaves the later ones what they take, unless it goes where one of them starts. -/
theorem handOn_of_later {move later : String × String} (hsource : later.1 ≠ move.1)
    (hgoal : move.2 ≠ later.1) : handOn files move later.1 = files later.1 := by
  rw [handOn, if_neg (Ne.symm hgoal), if_neg hsource]

/-- Everything arrives exactly if nothing goes where something lies that has still to be moved. -/
theorem foldl_handOn_iff (there : ∀ move ∈ l, (files move.1).isSome)
    (sources : (l.map (·.1)).Nodup) (goals : (l.map (·.2)).Nodup) :
    (∀ move ∈ l, l.foldl handOn files move.2 = files move.1) ↔
      l.Pairwise fun move later => move.2 ≠ later.1 := by
  induction l generalizing files with
  | nil => simp
  | cons move rest ih =>
    obtain ⟨hsource, sources⟩ := List.nodup_cons.mp sources
    obtain ⟨hgoal, goals⟩ := List.nodup_cons.mp goals
    obtain ⟨hthere, there⟩ := List.forall_mem_cons.mp there
    rw [List.forall_mem_cons, List.pairwise_cons, List.foldl_cons]
    by_cases hclear : ∀ later ∈ rest, move.2 ≠ later.1
    · have hlater : ∀ later ∈ rest, handOn files move later.1 = files later.1 := fun later h =>
        handOn_of_later (fun heq => hsource (List.mem_map.mpr ⟨later, h, heq⟩))
          (hclear later h)
      have hfirst : rest.foldl handOn (handOn files move) move.2 = files move.1 := by
        rw [foldl_handOn_of_untouched _ hgoal, handOn, if_pos rfl]
        rintro hmem
        obtain ⟨later, h, heq⟩ := List.mem_map.mp hmem
        exact hclear later h heq.symm
      rw [← ih (fun later h => (hlater later h).symm ▸ there later h) sources goals]
      constructor
      · rintro ⟨-, hrest⟩
        exact ⟨hclear, fun later h => (hrest later h).trans (hlater later h).symm⟩
      · rintro ⟨-, hrest⟩
        exact ⟨hfirst, fun later h => (hrest later h).trans (hlater later h)⟩
    · refine iff_of_false (fun h => ?_) fun h => hclear h.1
      obtain ⟨later, hmem, heq⟩ : ∃ later ∈ rest, move.2 = later.1 := by simpa using hclear
      have hgone : rest.foldl handOn (handOn files move) move.2 = none :=
        foldl_handOn_of_taken (List.mem_map.mpr ⟨later, hmem, heq.symm⟩) hgoal
      rw [← h.1, hgone] at hthere
      cases hthere

end

namespace Disk
variable {disk after last : Disk} {path place source target : String} {content : ByteArray}

/-- What the file at a place holds. -/
def fileAt (disk : Disk) (place : String) : Option ByteArray :=
  match disk.entries.get? place with
  | some (.file content _) => some content
  | _ => none

theorem fileAt_eq_some_iff : disk.fileAt place = some content ↔
    ∃ executable, disk.entries.get? place = some (.file content executable) := by
  unfold fileAt
  split
  · rename_i h
    simp [h]
  · rename_i h
    constructor
    · rintro ⟨⟩
    · rintro ⟨executable, hfile⟩
      exact absurd hfile (h content executable)

theorem fileAt_put_of_ne {other : String} (h : place ≠ other) (entry : Entry) :
    (disk.put other entry).fileAt place = disk.fileAt place := by
  unfold fileAt
  rw [put, Table.get?_insert_of_ne _ _ h]

/-- Where a pathname leads if all directories on the way are there. -/
def leads (disk : Disk) (path : String) : String :=
  destination (if Pathname.isAbsolute path then "/" else disk.cwd) (Pathname.names path)

theorem eq_leads (h : disk.locate path = .ok place) : place = disk.leads path := by
  unfold locate at h
  split at h
  · cases h
  · exact follow_eq_ok h

/-- A pathname that leads somewhere and does not mean a directory. -/
structure Reaches (disk : Disk) (path : String) : Prop where
  located : disk.locate path = .ok (disk.leads path)
  named : meansDirectory path = false

/-- A pathname that a file can be given: no directory stands where it leads. -/
structure Admits (disk : Disk) (path : String) : Prop extends disk.Reaches path where
  free : disk.entries.get? (disk.leads path) ≠ some .directory

/-- A file is read where its pathname leads. -/
theorem read_iff : disk.read path = .ok content ↔
    disk.Reaches path ∧ disk.fileAt (disk.leads path) = some content := by
  rw [read_eq_ok_iff]
  constructor
  · rintro ⟨place, executable, hfind⟩
    obtain ⟨hplace, hfile⟩ := find_eq_ok hfind
    obtain rfl := eq_leads hplace
    refine ⟨⟨hplace, ?_⟩, fileAt_eq_some_iff.mpr ⟨executable, hfile⟩⟩
    by_contra hname
    unfold find at hfind
    rw [hplace] at hfind
    simp [hfile, hname, Bind.bind, Except.bind] at hfind
  · rintro ⟨⟨hplace, hname⟩, hfile⟩
    obtain ⟨executable, hfile⟩ := fileAt_eq_some_iff.mp hfile
    exact ⟨_, executable, find_of_locate hplace hfile hname⟩

theorem canonical?_of_read (h : disk.read path = .ok content) :
    disk.canonical? path = some (disk.leads path) := by
  obtain ⟨place, executable, hfind⟩ := read_eq_ok_iff.mp h
  rw [← eq_leads (find_eq_ok hfind).1]
  unfold canonical?
  rw [hfind]

theorem reaches_of_canonical? (h : disk.canonical? path = some place)
    (hfile : disk.fileAt place = some content) :
    place = disk.leads path ∧ disk.Reaches path := by
  unfold canonical? at h
  split at h
  · rename_i found entry hfind
    cases h
    obtain ⟨hplace, hentry⟩ := find_eq_ok hfind
    obtain rfl := eq_leads hplace
    obtain ⟨executable, hthere⟩ := fileAt_eq_some_iff.mp hfile
    cases hentry.symm.trans hthere
    have hread : disk.read path = .ok content := read_eq_ok_iff.mpr ⟨_, executable, hfind⟩
    exact ⟨rfl, (read_iff.mp hread).1⟩
  · cases h

theorem exists?_of_read (h : disk.read path = .ok content) : disk.exists? path = true := by
  obtain ⟨place, executable, hfind⟩ := read_eq_ok_iff.mp h
  unfold exists? lookup?
  rw [hfind]
  rfl

/-- A tree that has all the directories of another disk. -/
structure Extends (disk after : Disk) : Prop where
  tree : after.IsTree
  cwd : after.cwd = disk.cwd
  directories : ∀ dir, disk.entries.get? dir = some .directory →
    after.entries.get? dir = some .directory

theorem IsTree.extends_self (tree : disk.IsTree) : disk.Extends disk := ⟨tree, rfl, fun _ h => h⟩

theorem Extends.trans (h : disk.Extends after) (h' : after.Extends last) : disk.Extends last :=
  ⟨h'.tree, h'.cwd.trans h.cwd, fun dir hdir => h'.directories dir (h.directories dir hdir)⟩

theorem Extends.leads (h : disk.Extends after) (path : String) :
    after.leads path = disk.leads path := by
  unfold Disk.leads
  rw [h.cwd]

theorem Extends.reaches (h : disk.Extends after) (hpath : disk.Reaches path) :
    after.Reaches path :=
  ⟨h.leads path ▸ locate_mono h.directories h.cwd hpath.located, hpath.named⟩

/-- What is read stays what it was, if the files stay. -/
theorem Extends.read (h : disk.Extends after) (files : after.fileAt = disk.fileAt)
    (hread : disk.read path = .ok content) : after.read path = .ok content := by
  obtain ⟨hpath, hfile⟩ := read_iff.mp hread
  exact read_iff.mpr ⟨h.reaches hpath, by rw [files, h.leads, hfile]⟩

/-- A file has been moved from where one pathname leads to where another does. -/
structure HandsOn (disk after : Disk) (source target : String) : Prop where
  grown : disk.Extends after
  reached : after.Reaches target
  files : after.fileAt = handOn disk.fileAt (disk.leads source, disk.leads target)

/-- A file that lies elsewhere than the one that is moved can still be read. -/
theorem HandsOn.read_later {later : String} (h : disk.HandsOn after source target)
    (hsource : disk.read source = .ok content) (hlater : ∃ c, disk.read later = .ok c)
    (hne : disk.leads later ≠ disk.leads source) : ∃ c, after.read later = .ok c := by
  obtain ⟨c, hlater⟩ := hlater
  obtain ⟨hpath, hfile⟩ := read_iff.mp hlater
  have hthere : after.fileAt (disk.leads later) =
      if disk.leads later = disk.leads target then some content else some c := by
    rw [h.files, handOn, if_neg hne, hfile, (read_iff.mp hsource).2]
  rw [← h.grown.leads] at hthere
  split at hthere
  · exact ⟨_, read_iff.mpr ⟨h.grown.reaches hpath, hthere⟩⟩
  · exact ⟨_, read_iff.mpr ⟨h.grown.reaches hpath, hthere⟩⟩

/-- What stands where once an entry has been taken from one place and put in another. -/
theorem get?_moved (disk : Disk) (origin goal place : String) (entry : Entry) :
    (((disk.without origin).without goal).put goal entry).entries.get? place =
      if place = goal then some entry
      else if place = origin then none else disk.entries.get? place := by
  rw [put, without, without, Table.get?_insert, Table.get?_erase, Table.get?_erase]
  split_ifs <;> rfl

/-- Renaming a file moves it to where its new name leads, makes no directory and removes none. -/
theorem IsTree.rename_moves (tree : disk.IsTree) (hread : disk.read source = .ok content)
    (h : disk.rename source target = .ok after) :
    disk.HandsOn after source target ∧
      ∀ dir, after.entries.get? dir = some .directory →
        disk.entries.get? dir = some .directory := by
  obtain ⟨⟨horigin, -⟩, hfile⟩ := read_iff.mp hread
  obtain ⟨executable, hfile⟩ := fileAt_eq_some_iff.mp hfile
  obtain ⟨goal, hgoal, hname, habove, hfree, hafter⟩ := Disk.rename_file hfile horigin h
  obtain rfl := eq_leads hgoal
  have hreaches : disk.Reaches target := ⟨hgoal, hname⟩
  rcases hafter with ⟨hsame, rfl⟩ | rfl
  · refine ⟨⟨tree.extends_self, hreaches, ?_⟩, fun _ h => h⟩
    rw [hsame, handOn_self]
  have hout : disk.entries.get? (disk.leads source) ≠ some .directory := by simp [hfile]
  have hrest := not_directory_without (disk.leads source) hfree
  have hgone := not_directory_without (disk.leads target) hrest
  have hkept : ∀ dir, disk.entries.get? dir = some .directory →
      ((disk.without (disk.leads source)).without (disk.leads target)).entries.get? dir =
        some .directory :=
    fun dir hdir => get?_without_of_directory hrest (get?_without_of_directory hout hdir)
  rw [tree.moveTree_file hfile hfree (tree.normal_locate horigin).ne_empty
    (tree.normal_locate hgoal).ne_empty]
  have hgrown : disk.Extends (((disk.without (disk.leads source)).without (disk.leads target)).put
      (disk.leads target) (.file content executable)) :=
    ⟨((tree.without hout).without hrest).put (tree.normal_locate hgoal) _ hgone (hkept _ habove),
      rfl, fun dir hdir => get?_put_of_directory _ hgone (hkept dir hdir)⟩
  refine ⟨⟨hgrown, hgrown.reaches hreaches, funext fun place => ?_⟩, fun dir hdir => ?_⟩
  · unfold fileAt handOn
    rw [get?_moved]
    split_ifs
    · simp [hfile]
    · rfl
    · rfl
  · rw [get?_moved] at hdir
    split_ifs at hdir
    · cases hdir
    · exact hdir

theorem Normal.above_child (h : Normal place) {part : List Char} (hpart : Pathname.Component part) :
    Disk.above (Disk.child place (String.ofList part)) = place := by
  obtain ⟨parts, hparts, rfl⟩ := h
  have hall : ∀ p ∈ parts ++ [part], Pathname.Component p := by
    simpa [or_imp, forall_and] using ⟨hparts, hpart⟩
  rw [child_placeOf hparts, above_placeOf hall, List.dropLast_concat]

/-- The last of several components is looked up in a directory. -/
theorem exists_last_of_follow {names : List String} {at_ : String} (normal : Normal at_)
    (hnames : ∀ name ∈ names, ∃ part, Pathname.Component part ∧ name = String.ofList part)
    (hne : names ≠ []) (h : follow disk.entries at_ names = .ok place) :
    ∃ dir name, Normal dir ∧ disk.entries.get? dir = some .directory ∧
      names.getLast? = some name ∧
      place = if name = ".." then Disk.above dir else child dir name := by
  induction names generalizing at_ with
  | nil => exact absurd rfl hne
  | cons name rest ih =>
    obtain ⟨hname, hrest⟩ := List.forall_mem_cons.mp hnames
    rw [follow] at h
    split at h
    · rename_i hdir
      by_cases hlast : rest = []
      · subst hlast
        cases h
        exact ⟨at_, name, normal, hdir, rfl, rfl⟩
      · have hnormal : Normal (if name = ".." then Disk.above at_ else child at_ name) := by
          split
          · exact normal.above
          · obtain ⟨part, hpart, rfl⟩ := hname
            exact normal.child hpart
        obtain ⟨dir, last, hdir, hthere, hend, hplace⟩ := ih hnormal hrest hlast h
        exact ⟨dir, last, hdir, hthere, (List.getLast?_cons_of_ne_nil hlast).trans hend, hplace⟩
    · cases h
    · cases h

theorem names_ne_nil_of_named (h : meansDirectory path = false) : Pathname.names path ≠ [] := by
  have hends : Pathname.endsInName path.toList = true := by simpa [meansDirectory] using h
  unfold Pathname.endsInName at hends
  intro hnil
  split at hends
  · rename_i part hpart
    have hmem := List.mem_of_getLast? hpart
    have hname := List.mem_map_of_mem (f := String.ofList) (List.mem_filter.mpr ⟨hmem, hends⟩)
    rw [Pathname.names] at hnil
    rw [hnil] at hname
    cases hname
  · cases hends

/-- Where a file can be, its pathname ends in a name, in a directory. -/
theorem IsTree.exists_of_admits (tree : disk.IsTree) (h : disk.Admits path) :
    ∃ dir name, Normal dir ∧ disk.entries.get? dir = some .directory ∧
      (Pathname.names path).getLast? = some name ∧ name ≠ ".." ∧
      disk.leads path = child dir name := by
  have hlocate := h.located
  unfold locate at hlocate
  split at hlocate
  · cases hlocate
  · have hnormal : Normal (if Pathname.isAbsolute path then "/" else disk.cwd) := by
      split
      · exact normal_root
      · exact tree.cwd
    obtain ⟨dir, name, hdir, hthere, hlast, hplace⟩ :=
      exists_last_of_follow hnormal (fun name hname => component_of_mem_names hname)
        (names_ne_nil_of_named h.named) hlocate
    by_cases hname : name = ".."
    · -- Above a directory there is a directory, not a file.
      rw [if_pos hname] at hplace
      refine absurd ?_ h.free
      rw [hplace]
      by_cases hroot : dir = "/"
      · rw [hroot]
        exact tree.root
      · exact tree.above dir (contains_of_get? hthere) hroot
    · rw [if_neg hname] at hplace
      exact ⟨dir, name, hdir, hthere, hlast, hname, hplace⟩

/-- Above where a file can be stands a directory. -/
theorem IsTree.above_of_admits (tree : disk.IsTree) (h : disk.Admits path) :
    disk.entries.get? (Disk.above (disk.leads path)) = some .directory := by
  obtain ⟨dir, name, hdir, hthere, hlast, -, hplace⟩ := tree.exists_of_admits h
  obtain ⟨part, hpart, rfl⟩ := component_of_mem_names (List.mem_of_getLast? hlast)
  rw [hplace, hdir.above_child hpart, hthere]

/-- A file can be renamed to any pathname that a file can be given. -/
theorem IsTree.rename_admitted (tree : disk.IsTree) (hread : disk.read source = .ok content)
    (h : disk.Admits target) : ∃ after, disk.rename source target = .ok after := by
  obtain ⟨⟨horigin, hname⟩, hfile⟩ := read_iff.mp hread
  obtain ⟨executable, hfile⟩ := fileAt_eq_some_iff.mp hfile
  have hfind := find_of_locate horigin hfile hname
  have habove := tree.above_of_admits h
  unfold rename
  simp only [horigin, h.located, hfind, habove, h.named, Bind.bind, Except.bind, Functor.map,
    Except.map, Bool.false_eq_true, if_false]
  split_ifs
  · exact ⟨disk, rfl⟩
  · split
    · rename_i hdir
      exact absurd hdir h.free
    · exact ⟨_, rfl⟩

/-- Making a directory leaves the files where they are. -/
theorem IsTree.createDirectory (tree : disk.IsTree)
    (h : disk.createDirectory path = .ok after) :
    disk.Extends after ∧ after.fileAt = disk.fileAt := by
  obtain ⟨place, hplace, h⟩ := bind_eq_ok.mp h
  cases hentry : disk.entries.get? place with
  | some entry =>
    rw [hentry] at h
    cases h
  | none =>
    rw [hentry] at h
    dsimp only at h
    split at h
    · rename_i habove
      cases h
      have hfree : disk.entries.get? place ≠ some .directory := by simp [hentry]
      refine ⟨⟨tree.put (tree.normal_locate hplace) _ hfree habove, rfl,
        fun dir hdir => get?_put_of_directory _ hfree hdir⟩, funext fun other => ?_⟩
      unfold fileAt
      rw [Disk.put, Table.get?_insert]
      split_ifs with hother
      · rw [hother, hentry]
      · rfl
    · cases h
    · cases h

theorem IsTree.ensureDirectory (tree : disk.IsTree)
    (h : disk.ensureDirectory path = .ok after) :
    disk.Extends after ∧ after.fileAt = disk.fileAt := by
  unfold Disk.ensureDirectory at h
  split at h
  · rename_i hmade
    cases h
    exact tree.createDirectory hmade
  · split at h
    · cases h
      exact ⟨tree.extends_self, rfl⟩
    · cases h

theorem IsTree.createDirectories (tree : disk.IsTree)
    (h : disk.createDirectories path = .ok after) :
    disk.Extends after ∧ after.fileAt = disk.fileAt := by
  have habove : ∀ fuel {disk after : Disk} {path : String}, disk.IsTree →
      createAbove fuel disk path = .ok after → disk.Extends after ∧ after.fileAt = disk.fileAt := by
    intro fuel
    induction fuel with
    | zero =>
      intro disk after path tree h
      cases h
      exact ⟨tree.extends_self, rfl⟩
    | succ fuel ih =>
      intro disk after path tree h
      rw [createAbove] at h
      split at h
      · cases h
        exact ⟨tree.extends_self, rfl⟩
      · split at h
        · rename_i hmade
          cases h
          exact tree.createDirectory hmade
        · split at h
          · obtain ⟨made, hmade, h⟩ := bind_eq_ok.mp h
            obtain ⟨hextends, hfiles⟩ := ih tree hmade
            obtain ⟨hlast, hsame⟩ := hextends.tree.ensureDirectory h
            exact ⟨hextends.trans hlast, hsame.trans hfiles⟩
          · cases h
        · split at h
          · cases h
            exact ⟨tree.extends_self, rfl⟩
          · cases h
  exact habove _ tree h

/-! ### Trees that can be checked -/

/-- Whether a pathname is normal. -/
def isNormal (place : String) : Bool :=
  place == placeOf ((Pathname.cut place.toList).filter Pathname.isComponent)

theorem normal_of_isNormal (h : isNormal place = true) : Normal place := by
  refine ⟨_, fun part hpart => ?_, beq_iff_eq.mp h⟩
  obtain ⟨hcut, hcounts⟩ := List.mem_filter.mp hpart
  exact ⟨hcounts, Pathname.not_mem_of_mem_cut hcut⟩

/-- Whether a directory stands at a place. -/
def hasDirectory (disk : Disk) (place : String) : Bool :=
  match disk.entries.get? place with
  | some .directory => true
  | _ => false

theorem hasDirectory_eq_true_iff :
    disk.hasDirectory place = true ↔ disk.entries.get? place = some .directory := by
  unfold hasDirectory
  split
  · rename_i h
    simp [h]
  · rename_i h
    exact ⟨nofun, fun hdir => absurd hdir h⟩

/-- Whether a pathname can be given a file. -/
def canHold (disk : Disk) (path : String) : Bool :=
  (disk.locate path).toOption == some (disk.leads path) && !meansDirectory path &&
    !disk.hasDirectory (disk.leads path)

theorem admits_of_canHold (h : disk.canHold path = true) : disk.Admits path := by
  simp only [canHold, Bool.and_eq_true, beq_iff_eq, Bool.not_eq_true'] at h
  obtain ⟨⟨hlocate, hname⟩, hfree⟩ := h
  refine ⟨⟨?_, hname⟩, fun hdir => ?_⟩
  · cases hplace : disk.locate path with
    | error fault =>
      rw [hplace] at hlocate
      cases hlocate
    | ok place =>
      rw [hplace] at hlocate
      rw [Option.some.inj hlocate]
  · rw [hasDirectory_eq_true_iff.mpr hdir] at hfree
    cases hfree

/-- Whether the entries form a tree. -/
def isTree (disk : Disk) : Bool :=
  decide (disk.entries.keys.Pairwise (· < ·)) && isNormal disk.cwd && disk.hasDirectory "/" &&
    disk.entries.keys.all fun place =>
      isNormal place && (place == "/" || disk.hasDirectory (above place))

theorem isTree_spec (h : disk.isTree = true) : disk.IsTree := by
  simp only [isTree, Bool.and_eq_true, decide_eq_true_eq, List.all_eq_true, Bool.or_eq_true,
    beq_iff_eq, hasDirectory_eq_true_iff] at h
  obtain ⟨⟨⟨ascending, cwd⟩, root⟩, places⟩ := h
  refine ⟨ascending, normal_of_isNormal cwd, root, fun place hplace => ?_,
    fun place hplace hroot => ?_⟩
  · exact normal_of_isNormal (places place (Table.contains_iff_mem_keys.mp hplace)).1
  · exact ((places place (Table.contains_iff_mem_keys.mp hplace)).2).resolve_left hroot

end Disk
end Toolflow
