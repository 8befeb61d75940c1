import Toolflow.Proofs.Freshness
import Toolflow.Proofs.Rendering

/-! The records in their file.

Saving writes a cache that has changed to another file and moves that one into place, so what is
read there afterwards is the rendered records, and loading finds no consumer that was not saved. A
cache that has not changed is not written; whether its file holds its records then depends on where
the cache came from, and `InStep` says that it does. -/
namespace Toolflow

namespace Disk

/-- Where components lead from a normal pathname, if all the directories are there. -/
def destination (at_ : String) (names : List String) : String :=
  names.foldl (fun at_ name => if name = ".." then above at_ else child at_ name) at_

theorem follow_eq_ok {entries : Table Entry} {names : List String} {at_ place : String}
    (h : follow entries at_ names = .ok place) : place = destination at_ names := by
  induction names generalizing at_ with
  | nil =>
    cases h
    rfl
  | cons name rest ih =>
    rw [follow] at h
    split at h
    · exact ih h
    · cases h
    · cases h

/-- The place a pathname leads to is the same on every disk on which it leads anywhere. -/
theorem locate_unique {disk other : Disk} {path place there : String} (cwd : other.cwd = disk.cwd)
    (h : disk.locate path = .ok place) (h' : other.locate path = .ok there) : there = place := by
  unfold locate at h h'
  split at h
  · cases h
  · rename_i hsome
    rw [if_neg hsome, cwd] at h'
    rw [follow_eq_ok h, follow_eq_ok h']

theorem read_eq_ok_iff {disk : Disk} {path : String} {content : ByteArray} :
    disk.read path = .ok content ↔
      ∃ place executable, disk.find path = .ok (place, .file content executable) := by
  unfold read
  cases disk.find path with
  | error fault => simp [Bind.bind, Except.bind]
  | ok found =>
    obtain ⟨place, entry⟩ := found
    cases entry <;> simp [Bind.bind, Except.bind]

theorem find_eq_ok {disk : Disk} {path place : String} {entry : Entry}
    (h : disk.find path = .ok (place, entry)) :
    disk.locate path = .ok place ∧ disk.entries.get? place = some entry := by
  obtain ⟨found, hplace, h⟩ := bind_eq_ok.mp h
  cases hentry : disk.entries.get? found with
  | none =>
    rw [hentry] at h
    cases h
  | some there =>
    rw [hentry] at h
    cases there with
    | directory =>
      cases h
      exact ⟨hplace, hentry⟩
    | file content executable =>
      dsimp only at h
      split at h
      · cases h
      · cases h
        exact ⟨hplace, hentry⟩

/-- A write puts the content where the pathname leads, if no directory is meant or stands there; a
file that is new needs a directory above it. -/
theorem write_eq_ok {disk after : Disk} {path : String} {content : ByteArray}
    (h : disk.write path content = .ok after) :
    ∃ place executable, disk.locate path = .ok place ∧
      disk.entries.get? place ≠ some .directory ∧ meansDirectory path = false ∧
      (disk.entries.get? place = none → disk.entries.get? (above place) = some .directory) ∧
      after = disk.put place (.file content executable) := by
  obtain ⟨place, hplace, h⟩ := bind_eq_ok.mp h
  cases hentry : disk.entries.get? place with
  | none =>
    rw [hentry] at h
    dsimp only at h
    split at h
    · cases h
    · rename_i hname
      split at h
      · rename_i habove
        exact ⟨place, false, hplace, by simp [hentry], by simpa using hname, fun _ => habove,
          (Except.ok.inj h).symm⟩
      · cases h
      · cases h
  | some entry =>
    rw [hentry] at h
    cases entry with
    | directory => cases h
    | file old executable =>
      dsimp only at h
      split at h
      · cases h
      · rename_i hname
        exact ⟨place, executable, hplace, by simp [hentry], by simpa using hname,
          fun hnone => absurd hnone (by simp [hentry]), (Except.ok.inj h).symm⟩

/-- The last entry that is put at a place is the one that stands there. -/
theorem get?_foldl_put {entry : Entry} {place : String} (l : List (String × Entry)) (disk : Disk)
    (only : ∀ e ∈ l, e.1 = place → e.2 = entry)
    (there : disk.entries.get? place = some entry ∨ ∃ e ∈ l, e.1 = place) :
    (l.foldl (fun disk e => disk.put e.1 e.2) disk).entries.get? place = some entry := by
  induction l generalizing disk with
  | nil => simpa using there
  | cons e rest ih =>
    obtain ⟨honly, hrest⟩ := List.forall_mem_cons.mp only
    refine ih (disk.put e.1 e.2) hrest ?_
    by_cases he : e.1 = place
    · exact Or.inl (by rw [put, he, Table.get?_insert_self, honly he])
    · refine there.imp (fun h => ?_) fun h => ?_
      · rw [put, Table.get?_insert_of_ne _ _ (Ne.symm he), h]
      · obtain ⟨f, hf, hplace⟩ := h
        rcases List.mem_cons.mp hf with rfl | hf
        · exact absurd hplace he
        · exact ⟨f, hf, hplace⟩

/-- What lies below a directory has a longer name. -/
theorem drop_ne_nil_of_isBelow {dir place : String} (h : isBelow dir place = true) :
    place.toList.drop dir.length ≠ [] := by
  obtain ⟨hne, hbelow⟩ := Bool.and_eq_true_iff.mp h
  obtain ⟨tail, htail⟩ := List.isPrefixOf_iff_prefix.mp hbelow
  intro hnil
  have hlength : place.toList.length ≤ dir.toList.length := by
    rw [String.length_toList]
    exact List.drop_eq_nil_iff.mp hnil
  by_cases hroot : dir = "/"
  · subst hroot
    rw [if_pos rfl] at htail
    have hone : ("/" : String).toList.length = 1 := by decide
    have htails : tail = [] := by
      rw [← htail, List.length_append, hone] at hlength
      exact List.eq_nil_of_length_eq_zero (by omega)
    rw [htails, List.append_nil, String.toList_inj] at htail
    simp [htail] at hne
  · rw [if_neg hroot] at htail
    rw [← htail, String.toList_append, List.length_append, List.length_append] at hlength
    have hone : ("/" : String).toList.length = 1 := by decide
    omega

/-- A file that is moved stands in its new place. -/
theorem get?_moveTree {disk : Disk} (ascending : disk.entries.Ascending) {source target : String}
    {entry : Entry} (h : disk.entries.get? source = some entry) :
    (disk.moveTree source target).entries.get? target = some entry := by
  refine get?_foldl_put _ _ (fun e he hplace => ?_) (Or.inr ?_)
  · obtain ⟨⟨place, found⟩, hfound, hmoved⟩ := List.mem_filterMap.mp he
    dsimp only at hmoved
    split at hmoved
    · rename_i hsource
      cases hmoved
      rw [← ascending.get?_eq_some_iff, hsource, h] at hfound
      exact (Option.some.inj hfound).symm
    · split at hmoved
      · rename_i hbelow
        cases hmoved
        refine absurd ?_ (drop_ne_nil_of_isBelow hbelow)
        have hchars := congrArg String.toList hplace
        simpa using hchars
      · cases hmoved
  · exact ⟨(target, entry), List.mem_filterMap.mpr
      ⟨(source, entry), ascending.get?_eq_some_iff.mp h, by simp⟩, rfl⟩

theorem cwd_moveTree (disk : Disk) (source target : String) :
    (disk.moveTree source target).cwd = disk.cwd := by
  have hputs : ∀ (l : List (String × Entry)) (disk : Disk),
      (l.foldl (fun disk e => disk.put e.1 e.2) disk).cwd = disk.cwd := by
    intro l
    induction l with
    | nil => exact fun _ => rfl
    | cons e rest ih => exact fun disk => ih (disk.put e.1 e.2)
  exact hputs _ _

/-- A file that is renamed is moved to where its new name leads, unless it is there already. There
no directory stands or is meant, but one stands above. -/
theorem rename_file {disk after : Disk} {source target origin : String} {content : ByteArray}
    {executable : Bool} (hfile : disk.entries.get? origin = some (.file content executable))
    (horigin : disk.locate source = .ok origin) (h : disk.rename source target = .ok after) :
    ∃ goal, disk.locate target = .ok goal ∧ meansDirectory target = false ∧
      disk.entries.get? (above goal) = some .directory ∧
      disk.entries.get? goal ≠ some .directory ∧
      (origin = goal ∧ after = disk ∨ after = disk.moveTree origin goal) := by
  obtain ⟨_, hlocated, h⟩ := bind_eq_ok.mp h
  cases horigin.symm.trans hlocated
  obtain ⟨goal, hgoal, h⟩ := bind_eq_ok.mp h
  obtain ⟨entry, hentry, h⟩ := bind_eq_ok.mp h
  have hsame : entry = .file content executable := by
    cases hfind : disk.find source with
    | error fault =>
      rw [hfind] at hentry
      cases hentry
    | ok found =>
      obtain ⟨place, there⟩ := found
      rw [hfind] at hentry
      cases hentry
      obtain ⟨hplace, hthere⟩ := find_eq_ok hfind
      cases hplace.symm.trans horigin
      exact Option.some.inj (hthere.symm.trans hfile)
  subst hsame
  split at h
  · rename_i habove
    dsimp only at h
    split at h
    · cases h
    · rename_i hname
      refine ⟨goal, hgoal, by simpa using hname, habove, ?_⟩
      split at h
      · rename_i hstays
        exact ⟨by simp [← hstays, hfile], Or.inl ⟨hstays, (Except.ok.inj h).symm⟩⟩
      · split at h
        · cases h
        · rename_i hfree
          exact ⟨fun hdir => hfree hdir, Or.inr (Except.ok.inj h).symm⟩
  · cases h
  · cases h

/-- A file that has been written and can be renamed stands where its name leads. -/
theorem origin_of_renamed {disk written after : Disk} {source target : String}
    {content : ByteArray} (hwrite : disk.write source content = .ok written)
    (hrename : written.rename source target = .ok after) :
    ∃ origin executable, written.locate source = .ok origin ∧
      written.entries.get? origin = some (.file content executable) := by
  obtain ⟨origin, executable, horigin, -, -, -, rfl⟩ := write_eq_ok hwrite
  obtain ⟨place, hplace, -⟩ := bind_eq_ok.mp hrename
  have hcwd : (disk.put origin (.file content executable)).cwd = disk.cwd := rfl
  obtain rfl : place = origin := locate_unique hcwd horigin hplace
  exact ⟨place, executable, hplace, Table.get?_insert_self ..⟩

/-- A file that has been written and then renamed is read under its new name. -/
theorem read_renamed {disk written after : Disk} (ascending : disk.entries.Ascending)
    {source target : String} {content found : ByteArray}
    (hwrite : disk.write source content = .ok written)
    (hrename : written.rename source target = .ok after)
    (hread : after.read target = .ok found) : found = content := by
  have hsorted : written.entries.Ascending := by
    obtain ⟨place, executable, -, -, -, -, rfl⟩ := write_eq_ok hwrite
    exact ascending.insert _ _
  obtain ⟨origin, executable, hplace, hfile⟩ := origin_of_renamed hwrite hrename
  obtain ⟨goal, hgoal, -, -, -, hafter⟩ := rename_file hfile hplace hrename
  have hmoved : after.cwd = written.cwd ∧
      after.entries.get? goal = some (.file content executable) := by
    rcases hafter with ⟨rfl, rfl⟩ | rfl
    · exact ⟨rfl, hfile⟩
    · exact ⟨cwd_moveTree .., get?_moveTree hsorted hfile⟩
  obtain ⟨there, _, hfound⟩ := read_eq_ok_iff.mp hread
  obtain ⟨hlocated, hstands⟩ := find_eq_ok hfound
  obtain rfl : there = goal := locate_unique hmoved.1 hgoal hlocated
  cases hstands.symm.trans hmoved.2
  rfl

end Disk

namespace Fingerprints
variable {c saved : Fingerprints} {disk after : Disk} {path consumer : String}

theorem mapM_map_eq_some {α β γ : Type} {f : β → Option γ} {g : α → β} {h : α → γ}
    (each : ∀ a, f (g a) = some (h a)) (l : List α) : (l.map g).mapM f = some (l.map h) := by
  induction l with
  | nil => rfl
  | cons a rest ih =>
    rw [List.map_cons, List.mapM_cons, ih, each]
    rfl

theorem storedConsumers?_table (t : Table String) :
    storedConsumers? (.obj (t.entries.map fun e => (e.1, .str e.2))) =
      some (.ofList t.entries) := by
  have hread := mapM_map_eq_some
    (f := fun (field : String × Json) => return (field.1, ← storedHash? field.2))
    (g := fun e => (e.1, .str e.2)) (h := id) (fun _ => rfl) t.entries
  simp only [storedConsumers?, hread, List.map_id]
  rfl

/-- The records that a document of records stands for. -/
theorem storedRecords?_ofTables (t : Table (Table String)) :
    storedRecords? (.ofTables t) =
      some (.ofList (t.entries.map fun e => (e.1, .ofList e.2.entries))) := by
  have hread := mapM_map_eq_some
    (f := fun (field : String × Json) => return (field.1, ← storedConsumers? field.2))
    (g := fun e => (e.1, .obj (e.2.entries.map fun f => (f.1, .str f.2))))
    (h := fun e => (e.1, .ofList e.2.entries))
    (fun e => by rw [storedConsumers?_table]; rfl) t.entries
  simp only [storedRecords?, Json.ofTables, hread]
  rfl

theorem load_records {content : ByteArray} (h : disk.read path = .ok content) :
    (load disk path).records =
      ((Json.parseBytes? content >>= storedRecords?).getD .empty) := by
  simp only [load, h]

/-- Loading a file of rendered records finds no other consumers. -/
theorem hasConsumer_of_rendered {t : Table (Table String)}
    (hread : disk.read path = .ok (Json.render t).toUTF8)
    (h : (load disk path).hasConsumer consumer = true) :
    t.values.any (·.contains consumer) = true := by
  unfold hasConsumer at h
  rw [load_records hread, Json.parseBytes?_render, Option.bind_eq_bind, Option.bind_some,
    storedRecords?_ofTables, Option.getD_some] at h
  obtain ⟨inner, hinner, hcontains⟩ := List.any_eq_true.mp h
  obtain ⟨stored, hstored, rfl⟩ := List.mem_map.mp hinner
  obtain ⟨e, he, rfl⟩ := List.mem_map.mp (Table.mem_of_mem_ofList hstored)
  exact List.any_eq_true.mpr
    ⟨e.2, List.mem_map.mpr ⟨e, he, rfl⟩, Table.contains_of_ofList hcontains⟩

/-- Where nothing can be read there are no records. -/
theorem hasConsumer_of_unread {fault : FileFault} (h : disk.read path = .error fault) :
    (load disk path).hasConsumer consumer = false := by
  simp only [hasConsumer, load, h]
  rfl

theorem orderly_load (disk : Disk) (path : String) : (load disk path).Orderly := by
  have hstored : ∀ j t, storedRecords? j = some t → t.Ascending := by
    intro j t h
    unfold storedRecords? at h
    split at h
    · obtain ⟨l, -, h⟩ := Option.bind_eq_some_iff.mp h
      cases h
      exact Table.ascending_ofList l
    · cases h
  unfold Orderly
  cases hread : disk.read path with
  | error fault =>
    simp only [load, hread]
    exact Table.ascending_empty
  | ok content =>
    rw [load_records hread]
    cases hjson : Json.parseBytes? content >>= storedRecords? with
    | none => exact Table.ascending_empty
    | some t =>
      obtain ⟨j, -, hj⟩ := Option.bind_eq_some_iff.mp hjson
      exact hstored j t hj

/-- A cache that has not changed is not written. -/
theorem save_clean (clean : c.dirty = false) (disk : Disk) : c.save disk = .ok (c, disk) := by
  unfold save
  rw [if_pos (by simp [clean])]
  rfl

/-- A cache that has changed is written where it is kept. -/
theorem read_saved (ascending : disk.entries.Ascending) (dirty : c.dirty = true)
    (h : c.save disk = .ok (saved, after)) {content : ByteArray}
    (hread : after.read c.path = .ok content) : content = (Json.render c.records).toUTF8 := by
  unfold save at h
  rw [if_neg (not_not_intro dirty)] at h
  dsimp only at h
  split at h
  · rename_i hwrite
    simp only [Bind.bind, Except.bind] at h
    split at h
    · rename_i hrename
      cases h
      exact Disk.read_renamed ascending hwrite hrename hread
    · cases h
  · cases h

/-- What is loaded after a save has no consumer that the cache did not have. -/
theorem hasConsumer_of_saved (ascending : disk.entries.Ascending) (dirty : c.dirty = true)
    (h : c.save disk = .ok (saved, after))
    (hconsumer : (load after c.path).hasConsumer consumer = true) :
    c.hasConsumer consumer = true := by
  cases hread : after.read c.path with
  | error fault => cases hconsumer.symm.trans (hasConsumer_of_unread hread)
  | ok content =>
    cases read_saved ascending dirty h hread
    exact hasConsumer_of_rendered hread hconsumer

/-! ### Caches in step with their file -/

/-- What saving would write is what the file holds, unless the cache has changed. -/
def InStep (c : Fingerprints) (disk : Disk) : Prop :=
  c.dirty = true ∨ ∀ path consumer,
    (load disk c.path).record? path consumer = c.record? path consumer

theorem inStep_load (disk : Disk) (path : String) : (load disk path).InStep disk :=
  Or.inr fun _ _ => rfl

/-- A cache that comes from another is kept in the same place, and where it has not changed it has
the same records. -/
structure Follows (c after : Fingerprints) : Prop where
  path : after.path = c.path
  clean : after.dirty = false → c.dirty = false ∧
    ∀ path consumer, after.record? path consumer = c.record? path consumer

theorem Follows.refl (c : Fingerprints) : Follows c c := ⟨rfl, fun h => ⟨h, fun _ _ => rfl⟩⟩

/-- A cache that follows one in step with its file is in step with it too. -/
theorem InStep.follow {next : Fingerprints} (h : c.InStep disk) (follows : Follows c next) :
    next.InStep disk := by
  by_cases hclean : next.dirty = false
  · obtain ⟨hold, hrecords⟩ := follows.clean hclean
    have hfile := h.resolve_left (by simp [hold])
    refine Or.inr fun path consumer => ?_
    rw [follows.path, hfile, hrecords]
  · exact Or.inl (by simpa using hclean)

/-- An update that changes nothing leaves a cache as clean as it was. -/
theorem follows_revise (c : Fingerprints) (path consumer : String) (print? : Option String) :
    Follows c (c.revise path consumer print?) := by
  refine ⟨path_revise c path consumer print?, fun hclean => ?_⟩
  rw [dirty_revise, Bool.or_eq_false_iff, bne_eq_false_iff_eq] at hclean
  refine ⟨hclean.1, fun p s => ?_⟩
  rw [record?_revise]
  split
  · rename_i heq
    rw [heq.1, heq.2, hclean.2]
  · rfl

theorem follows_forget (orderly : c.Orderly) (consumer : String) :
    Follows c (c.forget consumer) := by
  refine ⟨rfl, fun hclean => ?_⟩
  obtain ⟨hdirty, hunknown⟩ := Bool.or_eq_false_iff.mp hclean
  refine ⟨hdirty, fun p s => ?_⟩
  rw [record?_forget orderly]
  split
  · rename_i heq
    rw [heq, (hasConsumer_eq_false_iff orderly consumer).mp hunknown p]
  · rfl

end Fingerprints
end Toolflow
