import Toolflow.Proofs.Copying
import Toolflow.Proofs.FileNames

/-! Programs that move files.

Files can be moved one after another if each lies at a place of its own and goes where a file can
be. One move keeps that for the moves behind it: no directory is made or lost, and a file that a
move overwrites can still be read, as another file. So a program that is made of moves succeeds on
every disk on which its files can be moved, and what it leaves is the fold of its moves. -/
namespace Toolflow

namespace Disk
variable {disk between after : Disk} {move : String × String} {moves rest : List (String × String)}
  {path place source target : String} {content : ByteArray}

/-- Where files of the pathnames are to be moved, from place to place. -/
def places (disk : Disk) (moves : List (String × String)) : List (String × String) :=
  moves.map fun move => (disk.leads move.1, disk.leads move.2)

/-- Files have been moved one after another, and all directories are those that were there. -/
structure Moved (disk after : Disk) (moves : List (String × String)) : Prop where
  grown : disk.Extends after
  fixed : ∀ dir, after.entries.get? dir = some .directory → disk.entries.get? dir = some .directory
  files : after.fileAt = (disk.places moves).foldl handOn disk.fileAt

/-- Files that can be moved one after another: each lies at a place of its own, and where it is to
go a file can be. -/
structure Movable (disk : Disk) (moves : List (String × String)) : Prop where
  tree : disk.IsTree
  there : ∀ move ∈ moves, ∃ content, disk.read move.1 = .ok content
  room : ∀ move ∈ moves, disk.Admits move.2
  apart : (moves.map fun move => disk.leads move.1).Nodup

theorem Extends.admits (h : disk.Extends after)
    (fixed : ∀ dir, after.entries.get? dir = some .directory →
      disk.entries.get? dir = some .directory) (hpath : disk.Admits path) : after.Admits path := by
  refine ⟨h.reaches hpath.toReaches, fun hdir => hpath.free ?_⟩
  rw [h.leads] at hdir
  exact fixed _ hdir

theorem Moved.cons (hmove : disk.Moved between [move]) (hrest : between.Moved after rest) :
    disk.Moved after (move :: rest) := by
  refine ⟨hmove.grown.trans hrest.grown, fun dir h => hmove.fixed dir (hrest.fixed dir h), ?_⟩
  rw [hrest.files, hmove.files]
  simp only [places, hmove.grown.leads, List.map_cons, List.map_nil, List.foldl_cons,
    List.foldl_nil]

theorem Movable.head (h : disk.Movable (move :: rest)) : disk.Movable [move] where
  tree := h.tree
  there := by simpa using h.there move List.mem_cons_self
  room := by simpa using h.room move List.mem_cons_self
  apart := by simp

/-- Once the first file is moved, the others still can be. -/
theorem Movable.tail (h : disk.Movable (move :: rest)) (hmoved : disk.Moved between [move]) :
    between.Movable rest := by
  obtain ⟨hsource, hrest⟩ := List.nodup_cons.mp h.apart
  obtain ⟨content, hcontent⟩ := h.there move List.mem_cons_self
  have hroom : disk.Admits move.2 := h.room move List.mem_cons_self
  have hands : disk.HandsOn between move.1 move.2 :=
    ⟨hmoved.grown, hmoved.grown.reaches hroom.toReaches, hmoved.files⟩
  refine ⟨hmoved.grown.tree, fun later hlater => ?_, fun later hlater => ?_, ?_⟩
  · exact hands.read_later hcontent (h.there later (List.mem_cons_of_mem _ hlater)) fun heq =>
      hsource (List.mem_map.mpr ⟨later, hlater, heq⟩)
  · exact hmoved.grown.admits hmoved.fixed (h.room later (List.mem_cons_of_mem _ hlater))
  · simpa only [hmoved.grown.leads] using hrest

/-- A file arrives if the moves before leave it alone, and those behind the place it goes to. -/
theorem Moved.arrives {before behind : List (String × String)}
    (h : disk.Moved after (before ++ (source, target) :: behind)) (room : disk.Admits target)
    (hbefore : ∀ move ∈ before, disk.leads source ≠ disk.leads move.1 ∧
      disk.leads source ≠ disk.leads move.2)
    (hbehind : ∀ move ∈ behind, disk.leads target ≠ disk.leads move.1 ∧
      disk.leads target ≠ disk.leads move.2)
    (hread : disk.read source = .ok content) : after.read target = .ok content := by
  refine read_iff.mpr ⟨h.grown.reaches room.toReaches, ?_⟩
  rw [h.grown.leads, h.files, places, List.map_append, List.map_cons, foldl_handOn_arrives,
    (read_iff.mp hread).2]
  · simpa [Function.comp_def, eq_comm] using fun s t h => (hbefore (s, t) h).1
  · simpa [Function.comp_def, eq_comm] using fun s t h => (hbefore (s, t) h).2
  · simpa [Function.comp_def, eq_comm] using fun s t h => (hbehind (s, t) h).1
  · simpa [Function.comp_def, eq_comm] using fun s t h => (hbehind (s, t) h).2

theorem Moved.untouched (h : disk.Moved after moves)
    (hsource : ∀ move ∈ moves, place ≠ disk.leads move.1)
    (hgoal : ∀ move ∈ moves, place ≠ disk.leads move.2) :
    after.fileAt place = disk.fileAt place := by
  rw [h.files]
  refine foldl_handOn_of_untouched ?_ ?_
  · simpa [places, Function.comp_def, eq_comm] using hsource
  · simpa [places, Function.comp_def, eq_comm] using hgoal

/-- A file that is removed leaves everything else as it is. -/
theorem IsTree.removeFile (tree : disk.IsTree) (hread : disk.read path = .ok content) :
    ∃ after, disk.removeFile path = .ok after ∧ disk.Extends after ∧
      (∀ dir, after.entries.get? dir = some .directory →
        disk.entries.get? dir = some .directory) ∧
      ∀ place, place ≠ disk.leads path → after.fileAt place = disk.fileAt place := by
  obtain ⟨⟨hplace, hname⟩, hfile⟩ := read_iff.mp hread
  obtain ⟨executable, hfile⟩ := fileAt_eq_some_iff.mp hfile
  have hout : disk.entries.get? (disk.leads path) ≠ some .directory := by simp [hfile]
  refine ⟨disk.without (disk.leads path), ?_, ⟨tree.without hout, rfl, fun dir hdir =>
    get?_without_of_directory hout hdir⟩, fun dir hdir => ?_, fun place hne => ?_⟩
  · unfold Disk.removeFile
    rw [find_of_locate hplace hfile hname]
    rfl
  · rw [Disk.without, Table.get?_erase] at hdir
    split at hdir
    · cases hdir
    · exact hdir
  · unfold fileAt
    rw [Disk.without, Table.get?_erase, if_neg hne]

end Disk

namespace Exec
variable {cwd source target : String} {move : String × String} {moves rest : List (String × String)}
  {x y : Exec Unit}

/-- A program that moves files, whatever disk they lie on. -/
def Moves (x : Exec Unit) (cwd : String) (moves : List (String × String)) : Prop :=
  ∀ host bench, bench.disk.cwd = cwd → bench.disk.Movable moves →
    ∃ after, x host bench = .ok () after ∧ bench.disk.Moved after.disk moves

/-- What lies where it is wanted needs no moving. -/
theorem moves_stay (h : ∀ disk : Disk, disk.cwd = cwd → disk.leads source = disk.leads target) :
    Moves (pure ()) cwd [(source, target)] := by
  refine fun _ bench hcwd movable => ⟨bench, rfl, movable.tree.extends_self, fun _ h => h, ?_⟩
  simp [Disk.places, h bench.disk hcwd, handOn_self]

theorem moves_rename (activity : Activity) :
    Moves (change activity (·.rename source target)) cwd [(source, target)] := by
  intro host bench _ movable
  obtain ⟨content, hread⟩ := movable.there _ List.mem_cons_self
  obtain ⟨after, hrename⟩ :=
    movable.tree.rename_admitted hread (movable.room _ List.mem_cons_self)
  obtain ⟨hands, fixed⟩ := movable.tree.rename_moves hread hrename
  exact ⟨{ bench with disk := after }, (change_eq_ok_iff _).mpr ⟨after, hrename, rfl⟩, hands.grown,
    fixed, hands.files⟩

/-- One move after another. -/
theorem Moves.bind (hx : Moves x cwd [move]) (hy : Moves y cwd rest) :
    Moves (x >>= fun _ => y) cwd (move :: rest) := by
  intro host bench hcwd movable
  obtain ⟨between, hrun, hmoved⟩ := hx host bench hcwd movable.head
  obtain ⟨after, hrest, hlast⟩ := hy host between (hmoved.grown.cwd.trans hcwd)
    (movable.tail hmoved)
  exact ⟨after, (bind_ok hrun _).trans hrest, hmoved.cons hlast⟩

theorem Moves.phase (hx : Moves x cwd moves) (p : Progress) (message : String) :
    Moves (p.phase message >>= fun _ => x) cwd moves := by
  intro host bench hcwd movable
  obtain ⟨between, hrun, hdisk⟩ := phase_run host bench p message
  rw [bind_ok hrun, ← hdisk]
  exact hx host between (hdisk ▸ hcwd) (hdisk ▸ movable)

theorem Moves.ofExcept {α : Type} {e : Except Failure α} {a : α} {f : α → Exec Unit}
    (h : e = .ok a) (hf : Moves (f a) cwd moves) : Moves (ofExcept e >>= f) cwd moves := by
  intro host bench hcwd movable
  rw [bind_ok (ofExcept_ok host bench h)]
  exact hf host bench hcwd movable

/-- A file may be taken under another pathname. -/
theorem Moves.alike {other : String} (h : Moves x cwd [(source, target)])
    (alike : Pathname.Alike other source) (named : Disk.meansDirectory source = false) :
    Moves x cwd [(other, target)] := by
  intro host bench hcwd movable
  have hleads : bench.disk.places [(other, target)] = bench.disk.places [(source, target)] := by
    simp [Disk.places, Disk.leads_alike alike]
  obtain ⟨content, hread⟩ := movable.there _ List.mem_cons_self
  have hmovable : bench.disk.Movable [(source, target)] := ⟨movable.tree,
    by simpa using ⟨content, Disk.read_alike hread alike named⟩,
    by simpa using movable.room, by simp⟩
  obtain ⟨after, hrun, hmoved⟩ := h host bench hcwd hmovable
  exact ⟨after, hrun, hmoved.grown, hmoved.fixed, hleads ▸ hmoved.files⟩

end Exec
end Toolflow
