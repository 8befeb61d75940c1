import Toolflow.Proofs.Places
import Toolflow.Proofs.RecordStore

/-! Saving and loading.

A cache is loaded, called, and saved now and then, while the disk changes around its file. As long
as nobody else writes that file, it holds the records of the cache whenever the cache has not
changed since: a save writes all of them, and every call that alters a record notes that there is
something to save. The temporary file is taken away again when it cannot take the place of the old
one, so that a save that fails leaves the disk as it was. -/
namespace Toolflow

namespace Fingerprints
variable {c saved : Fingerprints} {disk after : Disk} {p path consumer name : String}

/-! ### Tables of tables -/

/-- A two-level table in order: its names ascend, and so do those of each table in it. -/
structure Nested {α : Type} (t : Table (Table α)) : Prop where
  outer : t.Ascending
  inner : ∀ name within, t.get? name = some within → within.Ascending

section Nested
variable {α : Type} {t : Table (Table α)}

theorem Nested.setEntry (h : Nested t) (path consumer : String) (a : α) :
    Nested (setEntry t path consumer a) := by
  refine ⟨h.outer.insert _ _, fun name within hwithin => ?_⟩
  rw [Fingerprints.setEntry, Table.get?_insert] at hwithin
  split at hwithin
  · cases hwithin
    refine Table.Ascending.insert ?_ _ _
    cases hold : t.get? path with
    | none => exact Table.ascending_empty
    | some old => exact h.inner path old hold
  · exact h.inner name within hwithin

theorem Nested.eraseEntry (h : Nested t) (path consumer : String) :
    Nested (eraseEntry t path consumer) := by
  refine ⟨ascending_eraseEntry h.outer path consumer, fun name within hwithin => ?_⟩
  unfold Fingerprints.eraseEntry at hwithin
  cases hold : t.get? path with
  | none =>
    rw [hold] at hwithin
    exact h.inner name within hwithin
  | some old =>
    rw [hold] at hwithin
    dsimp only at hwithin
    split at hwithin
    · rw [Table.get?_erase] at hwithin
      split at hwithin
      · cases hwithin
      · exact h.inner name within hwithin
    · rw [Table.get?_insert] at hwithin
      split at hwithin
      · cases hwithin
        exact (h.inner path old hold).erase consumer
      · exact h.inner name within hwithin

theorem Nested.eraseConsumer (h : Nested t) (consumer : String) :
    Nested (eraseConsumer t consumer) := by
  refine ⟨h.outer.filterMap _, fun name within hwithin => ?_⟩
  unfold Fingerprints.eraseConsumer at hwithin
  rw [h.outer.get?_filterMap, Option.bind_eq_some_iff] at hwithin
  obtain ⟨old, hold, hwithin⟩ := hwithin
  dsimp only at hwithin
  split at hwithin
  · cases hwithin
  · cases hwithin
    exact (h.inner name old hold).erase consumer

/-- A two-level table in order is built again from its entries. -/
theorem Nested.ofList_entries (h : Nested t) :
    Table.ofList (t.entries.map fun e => (e.1, Table.ofList e.2.entries)) = t := by
  have hsame : (t.entries.map fun e => (e.1, Table.ofList e.2.entries)) = t.entries := by
    conv_rhs => rw [← List.map_id t.entries]
    refine List.map_congr_left fun e he => ?_
    rw [(h.inner e.1 e.2 (h.outer.get?_eq_some_iff.mpr he)).ofList_entries]
    rfl
  rw [hsame, h.outer.ofList_entries]

end Nested

theorem mem_of_mapM_eq_some {α β : Type} {f : α → Option β} {l : List α} {m : List β}
    (h : l.mapM f = some m) {b : β} (hb : b ∈ m) : ∃ a ∈ l, f a = some b := by
  induction l generalizing m with
  | nil =>
    cases h
    cases hb
  | cons a rest ih =>
    rw [List.mapM_cons] at h
    obtain ⟨first, hfirst, h⟩ := Option.bind_eq_some_iff.mp h
    obtain ⟨others, hothers, h⟩ := Option.bind_eq_some_iff.mp h
    cases h
    rcases List.mem_cons.mp hb with rfl | hb
    · exact ⟨a, List.mem_cons_self, hfirst⟩
    · obtain ⟨d, hd, hdb⟩ := ih hothers hb
      exact ⟨d, List.mem_cons_of_mem _ hd, hdb⟩

/-- Whatever records are read are in order. -/
theorem nested_load (disk : Disk) (path : String) : Nested (load disk path).records := by
  refine ⟨orderly_load disk path, fun name within hwithin => ?_⟩
  cases hread : disk.read path with
  | error fault =>
    simp only [load, hread] at hwithin
    cases hwithin
  | ok content =>
    rw [load_records hread] at hwithin
    cases hjson : Json.parseBytes? content >>= storedRecords? with
    | none =>
      rw [hjson] at hwithin
      cases hwithin
    | some t =>
      rw [hjson] at hwithin
      obtain ⟨j, -, hj⟩ := Option.bind_eq_some_iff.mp hjson
      unfold storedRecords? at hj
      split at hj
      · obtain ⟨entries, hentries, hj⟩ := Option.bind_eq_some_iff.mp hj
        cases hj
        have hmem := Table.mem_of_mem_ofList (Table.mem_of_get? hwithin)
        obtain ⟨field, -, hfield⟩ := mem_of_mapM_eq_some hentries hmem
        obtain ⟨inner, hinner, hfield⟩ := Option.bind_eq_some_iff.mp hfield
        cases hfield
        unfold storedConsumers? at hinner
        split at hinner
        · obtain ⟨hashes, -, hinner⟩ := Option.bind_eq_some_iff.mp hinner
          cases hinner
          exact Table.ascending_ofList hashes
        · cases hinner
      · cases hj

/-! ### Calls and the note that something changed -/

theorem Nested.revise (h : Nested c.records) (path consumer : String) (print? : Option String) :
    Nested (c.revise path consumer print?).records := by
  cases print? with
  | none => exact h.eraseEntry path consumer
  | some hash =>
    rw [Fingerprints.revise]
    split
    · exact h
    · exact h.setEntry path consumer hash

theorem nested_after (h : Nested c.records) (call : Call) : Nested (call.after c).records :=
  after_keeps (P := fun after => Nested after.records) h h.revise h.eraseConsumer call

/-- A call that leaves nothing to save has changed no record. -/
theorem follows_after (orderly : c.Orderly) (call : Call) : Follows c (call.after c) :=
  after_keeps (.refl c) (follows_revise c) (follows_forget orderly) call

/-! ### Saving in place -/

/-- Where the records are written first: a file beside the one in which they are kept. -/
def temporary (c : Fingerprints) (name : String) : String :=
  Pathname.join (Pathname.directoryOf c.path) name

/-- Keeps the records if they changed, in place. They are written to a file of the given name, and
then that one takes the place of the old one; if it cannot, it is taken away. -/
def saveAs (name : String) : EStateM Failure (Fingerprints × Disk) Unit := do
  let (c, disk) ← get
  if ¬ c.dirty then return ()
  match disk.write (c.temporary name) (Json.render c.records).toUTF8 with
  | .error fault => throw (.during (.openingTemporary (Pathname.directoryOf c.path)) (.file fault))
  | .ok written =>
    set (c, written)
    match written.rename (c.temporary name) c.path with
    | .ok moved => set ({ c with dirty := false }, moved)
    | .error fault =>
      match written.removeFile (c.temporary name) with
      | .ok cleared => set (c, cleared)
      | .error _ => pure ()
      throw (.during (.writingRecords c.path) (.file fault))

/-- A save of a cache that has not changed does nothing. -/
theorem saveAs_clean (clean : c.dirty = false) (name : String) (disk : Disk) :
    (saveAs name).run (c, disk) = .ok () (c, disk) := by
  simp [saveAs, clean]

/-- How a save of a cache that has changed ends, and what it leaves. -/
theorem saveAs_dirty (dirty : c.dirty = true) (name : String) (disk : Disk) :
    (saveAs name).run (c, disk) =
      match disk.write (c.temporary name) (Json.render c.records).toUTF8 with
      | .error fault =>
        .error (.during (.openingTemporary (Pathname.directoryOf c.path)) (.file fault)) (c, disk)
      | .ok written =>
        match written.rename (c.temporary name) c.path with
        | .ok moved => .ok () ({ c with dirty := false }, moved)
        | .error fault =>
          match written.removeFile (c.temporary name) with
          | .ok cleared => .error (.during (.writingRecords c.path) (.file fault)) (c, cleared)
          | .error _ => .error (.during (.writingRecords c.path) (.file fault)) (c, written) := by
  cases hwrite : disk.write (c.temporary name) (Json.render c.records).toUTF8 with
  | error fault => simp [saveAs, dirty, hwrite, -String.toUTF8_eq_toByteArray]
  | ok written =>
    cases hrename : written.rename (c.temporary name) c.path with
    | ok moved => simp [saveAs, dirty, hwrite, hrename, -String.toUTF8_eq_toByteArray]
    | error fault =>
      cases hremove : written.removeFile (c.temporary name) <;>
        simp [saveAs, dirty, hwrite, hrename, hremove, -String.toUTF8_eq_toByteArray]

/-- The save of the library ends as the one in place does. -/
theorem save_eq_saveAs (c : Fingerprints) (disk : Disk) :
    c.save disk =
      match (saveAs temporaryName).run (c, disk) with
      | .ok _ left => .ok left
      | .error cause _ => .error cause := by
  by_cases hdirty : c.dirty = true
  · rw [saveAs_dirty hdirty]
    unfold save
    rw [if_neg (not_not_intro hdirty)]
    dsimp only
    split
    · rename_i written hwrite
      have hwrite : disk.write (c.temporary temporaryName) (Json.render c.records).toUTF8 =
        .ok written := hwrite
      rw [hwrite]
      simp only [Bind.bind, Except.bind]
      split
      · rename_i moved hrename
        have hrename : written.rename (c.temporary temporaryName) c.path = .ok moved := hrename
        rw [hrename]
        rfl
      · rename_i fault hrename
        have hrename : written.rename (c.temporary temporaryName) c.path = .error fault := hrename
        rw [hrename]
        cases written.removeFile (c.temporary temporaryName) <;> rfl
    · rename_i fault hwrite
      have hwrite : disk.write (c.temporary temporaryName) (Json.render c.records).toUTF8 =
        .error fault := hwrite
      rw [hwrite]
      rfl
  · have hclean : c.dirty = false := by simpa using hdirty
    rw [saveAs_clean hclean, save_clean hclean]

/-- A save that succeeds on a tree leaves a tree, and the records of the cache in its file. -/
theorem saveAs_ok (tree : disk.IsTree) (dirty : c.dirty = true)
    (h : (saveAs name).run (c, disk) = .ok () (saved, after)) :
    saved = { c with dirty := false } ∧ after.IsTree ∧
      after.read c.path = .ok (Json.render c.records).toUTF8 := by
  rw [saveAs_dirty dirty] at h
  cases hwrite : disk.write (c.temporary name) (Json.render c.records).toUTF8 with
  | error fault =>
    rw [hwrite] at h
    cases h
  | ok written =>
    rw [hwrite] at h
    dsimp only at h
    cases hrename : written.rename (c.temporary name) c.path with
    | error fault =>
      rw [hrename] at h
      dsimp only at h
      split at h <;> cases h
    | ok moved =>
      rw [hrename] at h
      cases h
      obtain ⟨origin, executable, horigin, hfile⟩ := Disk.origin_of_renamed hwrite hrename
      exact ⟨rfl, (tree.write hwrite).rename_file hfile horigin hrename⟩

/-- A save that fails leaves the cache and the disk as they were. -/
theorem saveAs_error (tree : disk.IsTree) (fresh : disk.exists? (c.temporary name) = false)
    {cause : Failure} {left : Fingerprints × Disk}
    (h : (saveAs name).run (c, disk) = .error cause left) : left = (c, disk) := by
  by_cases hdirty : c.dirty = true
  · rw [saveAs_dirty hdirty] at h
    cases hwrite : disk.write (c.temporary name) (Json.render c.records).toUTF8 with
    | error fault =>
      rw [hwrite] at h
      cases h
      rfl
    | ok written =>
      rw [hwrite] at h
      dsimp only at h
      cases hrename : written.rename (c.temporary name) c.path with
      | ok moved =>
        rw [hrename] at h
        cases h
      | error fault =>
        rw [hrename, tree.removeFile_written fresh hwrite] at h
        cases h
        rfl
  · rw [saveAs_clean (by simpa using hdirty)] at h
    cases h

/-- Rendered records are loaded as they were. -/
theorem records_load (nested : Nested c.records)
    (h : disk.read path = .ok (Json.render c.records).toUTF8) :
    (load disk path).records = c.records := by
  rw [load_records h, Json.parseBytes?_render, Option.bind_eq_bind, Option.bind_some,
    storedRecords?_ofTables, Option.getD_some, nested.ofList_entries]

theorem load_congr {other : Disk} (h : (other.read path).toOption = (disk.read path).toOption) :
    load other path = load disk path := by
  unfold load
  cases hother : other.read path <;> cases hdisk : disk.read path <;>
    simp_all [Except.toOption]

/-! ### Lifetimes -/

/-- The state that a computation leaves, however it ends. -/
def stateLeft {ε σ α : Type} : EStateM.Result ε σ α → σ
  | .ok _ s => s
  | .error _ s => s

/-- How a cache kept at `p` and the disk come about: the cache is loaded, called, and saved, while
the disk may become any tree with the same content at `p`. Each save finds a name for its temporary
file that is not in use. -/
inductive Lifetime (p : String) : Fingerprints → Disk → Prop
  | loaded {disk : Disk} (tree : disk.IsTree) : Lifetime p (load disk p) disk
  | called {c : Fingerprints} {disk : Disk} (before : Lifetime p c disk) (call : Call) :
    Lifetime p (call.after c) disk
  | edited {c : Fingerprints} {disk : Disk} (before : Lifetime p c disk) (other : Disk)
    (tree : other.IsTree) (same : (other.read p).toOption = (disk.read p).toOption) :
    Lifetime p c other
  | saved {c : Fingerprints} {disk : Disk} (before : Lifetime p c disk) (name : String)
    (fresh : disk.exists? (c.temporary name) = false) :
    Lifetime p (stateLeft ((saveAs name).run (c, disk))).1
      (stateLeft ((saveAs name).run (c, disk))).2

/-- A cache kept at `p` whose tables are in order, on a disk that is a tree. Unless it has changed,
its file holds its records. -/
structure Kept (p : String) (c : Fingerprints) (disk : Disk) : Prop where
  path : c.path = p
  nested : Nested c.records
  tree : disk.IsTree
  inStep : c.InStep disk

theorem Kept.call (h : Kept p c disk) (call : Call) : Kept p (call.after c) disk :=
  ⟨(follows_after h.nested.outer call).path.trans h.path, nested_after h.nested call, h.tree,
    h.inStep.follow (follows_after h.nested.outer call)⟩

theorem Kept.edit (h : Kept p c disk) {other : Disk} (tree : other.IsTree)
    (same : (other.read p).toOption = (disk.read p).toOption) : Kept p c other := by
  refine ⟨h.path, h.nested, tree, h.inStep.imp_right fun hfile path consumer => ?_⟩
  rw [h.path, load_congr same, ← h.path]
  exact hfile path consumer

/-- After a save that succeeds the file holds the records, and what is kept is kept. -/
theorem Kept.save (h : Kept p c disk)
    (save : (saveAs name).run (c, disk) = .ok () (saved, after)) :
    Kept p saved after ∧
      ∀ path consumer, saved.record? path consumer = c.record? path consumer ∧
        (load after p).record? path consumer = c.record? path consumer := by
  by_cases hdirty : c.dirty = true
  · obtain ⟨rfl, htree, hread⟩ := saveAs_ok h.tree hdirty save
    have hrecords := records_load h.nested hread
    have hfile : ∀ path consumer,
        (load after c.path).record? path consumer = c.record? path consumer := by
      intro path consumer
      rw [record?, hrecords]
      rfl
    refine ⟨⟨h.path, h.nested, htree, Or.inr hfile⟩, fun path consumer => ⟨rfl, ?_⟩⟩
    rw [← h.path]
    exact hfile path consumer
  · rw [saveAs_clean (by simpa using hdirty)] at save
    cases save
    refine ⟨h, fun path consumer => ⟨rfl, ?_⟩⟩
    rw [← h.path]
    exact h.inStep.resolve_left hdirty path consumer

theorem Lifetime.kept (h : Lifetime p c disk) : Kept p c disk := by
  induction h with
  | loaded tree => exact ⟨rfl, nested_load _ p, tree, inStep_load _ p⟩
  | called _ call ih => exact ih.call call
  | edited _ _ tree same ih => exact ih.edit tree same
  | @saved c disk _ name fresh ih =>
    cases hrun : (saveAs name).run (c, disk) with
    | ok _ left =>
      obtain ⟨saved, after⟩ := left
      exact (ih.save hrun).1
    | error cause left =>
      cases saveAs_error ih.tree fresh hrun
      exact ih

/-- A lifetime goes on through any calls. -/
theorem Lifetime.calls (h : Lifetime p c disk) {names : List String} {after : Fingerprints}
    (calls : Called names c after) : Lifetime p after disk := by
  obtain ⟨log, -, rfl⟩ := calls
  induction log using List.reverseRecOn with
  | nil => exact h
  | append_singleton log call ih =>
    rw [replay, List.foldl_concat]
    exact ih.called call

/-- A consumer that a cache does not have is not in its file either, unless the cache has changed,
on every disk with the same content there. -/
theorem Kept.unknown (h : Kept p c disk) {other : Disk}
    (same : (other.read p).toOption = (disk.read p).toOption)
    (unknown : c.hasConsumer consumer = false) :
    c.dirty = true ∨ (load other c.path).hasConsumer consumer = false := by
  refine h.inStep.imp_right fun hfile => ?_
  rw [hasConsumer_eq_false_iff h.nested.outer] at unknown
  rw [hasConsumer_eq_false_iff (orderly_load other c.path), h.path, load_congr same, ← h.path]
  exact fun path => (hfile path consumer).trans (unknown path)

end Fingerprints

open Fingerprints in
/-- Whatever happened since a cache was loaded, a save that succeeds leaves a file from which the
same record of each path and consumer is loaded, also when there was nothing to write; and one that
fails leaves the cache and all files as they were. The save of the library ends as this one does. -/
theorem save_loses_nothing {p : String} {c : Fingerprints} {disk : Disk}
    (lifetime : Lifetime p c disk) {name : String}
    (fresh : disk.exists? (c.temporary name) = false) :
    (∀ saved after, (saveAs name).run (c, disk) = .ok () (saved, after) →
      ∀ path consumer, saved.record? path consumer = c.record? path consumer ∧
        (load after p).record? path consumer = saved.record? path consumer) ∧
    (∀ cause left after, (saveAs name).run (c, disk) = .error cause (left, after) →
      left.records = c.records ∧ left.dirty = c.dirty ∧ after.read p = disk.read p ∧
        left = c ∧ after = disk) ∧
    c.save disk =
      match (saveAs temporaryName).run (c, disk) with
      | .ok _ left => .ok left
      | .error cause _ => .error cause := by
  refine ⟨fun saved after hsave path consumer => ?_, fun cause left after hsave => ?_,
    save_eq_saveAs c disk⟩
  · obtain ⟨hrecord, hload⟩ := (lifetime.kept.save hsave).2 path consumer
    exact ⟨hrecord, hload.trans hrecord.symm⟩
  · cases saveAs_error lifetime.kept.tree fresh hsave
    exact ⟨rfl, rfl, rfl, rfl, rfl⟩

open Fingerprints in
/-- Where no file of records was, the record of a netlist is saved and loaded again. -/
theorem netlist_record_saved :
    let c := (Call.update (.single "top.eblif" (some "7")) "top.eblif" "pack").after
      (load Disk.empty cacheFile)
    ∃ saved after, (saveAs ".tmpA1b2C3").run (c, Disk.empty) = .ok () (saved, after) ∧
      (load after cacheFile).record? "top.eblif" "pack" = some "7" := by
  intro c
  have lifetime : Lifetime cacheFile c Disk.empty := (Lifetime.loaded Disk.isTree_empty).called _
  have hpath : c.path = cacheFile := lifetime.kept.path
  have htemporary : c.temporary ".tmpA1b2C3" = "./.tmpA1b2C3" := by
    rw [temporary, hpath]
    rfl
  have hfresh : Disk.empty.exists? (c.temporary ".tmpA1b2C3") = false := by
    rw [htemporary]
    rfl
  have hsave : ∃ after, (saveAs ".tmpA1b2C3").run (c, Disk.empty) =
      .ok () ({ c with dirty := false }, after) := by
    rw [saveAs_dirty (by decide), htemporary, hpath]
    generalize (Json.render c.records).toUTF8 = content
    have hwrite : Disk.empty.write "./.tmpA1b2C3" content =
        .ok (Disk.empty.put "/.tmpA1b2C3" (.file content false)) := rfl
    rw [hwrite]
    generalize hwritten : Disk.empty.put "/.tmpA1b2C3" (.file content false) = written
    have horigin : written.locate "./.tmpA1b2C3" = .ok "/.tmpA1b2C3" := hwritten ▸ rfl
    have hfind : written.find "./.tmpA1b2C3" = .ok ("/.tmpA1b2C3", .file content false) :=
      hwritten ▸ rfl
    have hgoal : written.locate cacheFile = .ok "/.f4cache" := hwritten ▸ rfl
    have habove : written.entries.get? (Disk.above "/.f4cache") = some .directory := hwritten ▸ rfl
    have hfree : written.entries.get? "/.f4cache" = none := hwritten ▸ rfl
    have hname : Disk.meansDirectory cacheFile = false := rfl
    have hrename : written.rename "./.tmpA1b2C3" cacheFile =
        .ok (written.moveTree "/.tmpA1b2C3" "/.f4cache") := by
      simp [Disk.rename, horigin, hfind, hgoal, habove, hfree, hname, Bind.bind, Except.bind]
    dsimp only
    rw [hrename]
    exact ⟨_, rfl⟩
  obtain ⟨after, hsave⟩ := hsave
  obtain ⟨hok, -, -⟩ := save_loses_nothing lifetime hfresh
  obtain ⟨-, hload⟩ := hok _ after hsave "top.eblif" "pack"
  exact ⟨_, after, hsave, hload.trans (by decide)⟩

end Toolflow
