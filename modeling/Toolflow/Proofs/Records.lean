import Mathlib
import Toolflow.Fingerprints
import Toolflow.Proofs.Tables

/-! Fingerprints as a store of records, one for each pair of a path and a consumer.

What stands at a path is nothing, a directory or the bytes of a file, and its fingerprint depends on
that alone. Each operation is described by what it does to `record?`: an update sets one record to
the present fingerprint, or drops it when the path is gone, and forgetting drops the records of one
consumer. Updates never fail, since what exists can be read. -/
namespace Toolflow

/-- What stands at a path. -/
inductive Content where
  | missing
  | directory
  | file (bytes : ByteArray)
deriving DecidableEq

/-- The fingerprint of what stands at a path; where nothing stands there is none. -/
def Content.print? : Content → Option String
  | .missing => none
  | .directory => some "0"
  | .file bytes => some (toString (Checksum.adler32 bytes))

theorem Content.print?_eq_none_iff (c : Content) : c.print? = none ↔ c = .missing := by
  cases c <;> simp [Content.print?]

def Disk.contentAt (disk : Disk) (path : String) : Content :=
  match disk.lookup? path with
  | none => .missing
  | some .directory => .directory
  | some (.file bytes _) => .file bytes

theorem Disk.exists?_iff (disk : Disk) (path : String) :
    disk.exists? path = true ↔ disk.contentAt path ≠ .missing := by
  unfold Disk.exists? Disk.contentAt
  cases disk.lookup? path with
  | none => simp
  | some entry => cases entry <;> simp

theorem Disk.print?_isSome {disk : Disk} {path : String} (h : disk.exists? path = true) :
    (disk.contentAt path).print?.isSome = true := by
  rw [Option.isSome_iff_ne_none, ne_eq, Content.print?_eq_none_iff]
  exact (disk.exists?_iff path).mp h

theorem Disk.exists?_congr {d e : Disk} {path : String}
    (h : d.contentAt path = e.contentAt path) : d.exists? path = e.exists? path := by
  rw [Bool.eq_iff_iff, d.exists?_iff, e.exists?_iff, h]

namespace Fingerprints

theorem fingerprint_eq (disk : Disk) (path : String) (h : disk.exists? path = true) :
    ∃ hash, fingerprint disk path = .ok hash ∧ (disk.contentAt path).print? = some hash := by
  unfold Disk.exists? Disk.lookup? at h
  unfold fingerprint Disk.isDirectory Disk.contentAt Disk.lookup?
  cases hfind : disk.find path with
  | error fault => simp [hfind] at h
  | ok found =>
    obtain ⟨place, entry⟩ := found
    cases entry with
    | directory => exact ⟨"0", by simp, rfl⟩
    | file bytes executable =>
      refine ⟨toString (Checksum.adler32 bytes), ?_, rfl⟩
      simp [Disk.read, hfind, Bind.bind, Except.bind]

/-- Whether a path is gone or not as the record of a consumer has it. -/
def differs (c : Fingerprints) (disk : Disk) (consumer path : String) : Bool :=
  let print := (disk.contentAt path).print?
  print.isNone || c.record? path consumer != print

theorem differs_eq_false_iff {c : Fingerprints} {disk : Disk} {consumer path : String} :
    c.differs disk consumer path = false ↔
      disk.contentAt path ≠ .missing ∧
        c.record? path consumer = (disk.contentAt path).print? := by
  simp only [differs, Bool.or_eq_false_iff, bne_eq_false_iff_eq, Option.isNone_eq_false_iff,
    Option.isSome_iff_ne_none, ne_eq, Content.print?_eq_none_iff]

/-- The records after an update. -/
def note (c : Fingerprints) (disk : Disk) (consumer path : String) : Fingerprints :=
  match c.update disk path consumer with
  | .ok (_, c) => c
  | .error _ => c

/-- An update succeeds and answers whether the path differs from the record. -/
theorem update_eq (c : Fingerprints) (disk : Disk) (path consumer : String) :
    c.update disk path consumer =
      .ok (c.differs disk consumer path, c.note disk consumer path) := by
  have hok : ∃ after, c.update disk path consumer =
      .ok (c.differs disk consumer path, after) := by
    unfold update
    by_cases hex : disk.exists? path = true
    · obtain ⟨hash, hprint, hcontent⟩ := fingerprint_eq disk path hex
      by_cases hrec : c.record? path consumer = some hash
      · simp [hex, hprint, hrec, differs, hcontent, Bind.bind, Except.bind, pure, Except.pure]
      · simp [hex, hprint, hrec, differs, hcontent, Bind.bind, Except.bind, pure, Except.pure]
    · have hmissing : disk.contentAt path = .missing := by
        by_contra hne
        exact hex ((disk.exists?_iff path).mpr hne)
      simp [hex, differs, hmissing, Content.print?, pure, Except.pure]
  obtain ⟨after, hafter⟩ := hok
  simp only [note, hafter]

theorem lookup?_setEntry {α : Type} (t : Table (Table α)) (path consumer p s : String) (a : α) :
    lookup? (setEntry t path consumer a) p s =
      if p = path ∧ s = consumer then some a else lookup? t p s := by
  unfold lookup? setEntry
  by_cases hp : p = path
  · subst hp
    rw [Table.get?_insert_self]
    cases hinner : t.get? p with
    | none => by_cases hs : s = consumer <;> simp [Table.get?_insert, hs]
    | some inner => by_cases hs : s = consumer <;> simp [Table.get?_insert, hs]
  · simp [Table.get?_insert_of_ne _ _ hp, hp]

theorem get?_of_isEmpty {α : Type} {t : Table α} (h : t.isEmpty = true) (name : String) :
    t.get? name = none := by
  obtain ⟨l⟩ := t
  have hnil : l = [] := by simpa [Table.isEmpty] using h
  rw [hnil]
  rfl

theorem lookup?_eraseEntry {α : Type} (t : Table (Table α)) (path consumer p s : String) :
    lookup? (eraseEntry t path consumer) p s =
      if p = path ∧ s = consumer then none else lookup? t p s := by
  unfold eraseEntry
  cases hinner : t.get? path with
  | none =>
    by_cases hp : p = path
    · subst hp
      simp [lookup?, hinner]
    · simp [hp]
  | some inner =>
    have herase := inner.get?_erase consumer s
    by_cases hp : p = path
    · subst hp
      by_cases hempty : (inner.erase consumer).isEmpty = true
      · have hnone := get?_of_isEmpty hempty s
        by_cases hs : s = consumer <;>
          simp_all [lookup?, Table.get?_erase]
      · by_cases hs : s = consumer <;> simp_all [lookup?]
    · simp only [hp, false_and, if_false, lookup?]
      split
      · rw [Table.get?_erase, if_neg hp]
      · rw [Table.get?_insert_of_ne _ _ hp]

/-- Notes that a path is as its record has it. -/
def confirm (c : Fingerprints) (path consumer : String) : Fingerprints :=
  { c with statuses := setEntry c.statuses path consumer .same }

/-- Records a fingerprint that is new. -/
def renew (c : Fingerprints) (path consumer hash : String) : Fingerprints :=
  { c with
    records := setEntry c.records path consumer hash
    statuses := setEntry c.statuses path consumer .changed
    dirty := true }

/-- What an update does where a path has this fingerprint, or is gone. -/
def revise (c : Fingerprints) (path consumer : String) : Option String → Fingerprints
  | none => c.drop path consumer
  | some hash =>
    if c.record? path consumer = some hash then c.confirm path consumer
    else c.renew path consumer hash

theorem note_eq (c : Fingerprints) (disk : Disk) (consumer path : String) :
    c.note disk consumer path = c.revise path consumer (disk.contentAt path).print? := by
  unfold note update
  by_cases hex : disk.exists? path = true
  · obtain ⟨hash, hprint, hcontent⟩ := fingerprint_eq disk path hex
    by_cases hrec : c.record? path consumer = some hash <;>
      simp [hex, hprint, hcontent, hrec, revise, confirm, renew, Bind.bind, Except.bind, pure,
        Except.pure]
  · have hmissing : disk.contentAt path = .missing := by
      by_contra hne
      exact hex ((disk.exists?_iff path).mpr hne)
    simp [hex, hmissing, Content.print?, revise, pure, Except.pure]

theorem record?_revise (c : Fingerprints) (path consumer p s : String) (print? : Option String) :
    (c.revise path consumer print?).record? p s =
      if p = path ∧ s = consumer then print? else c.record? p s := by
  cases print? with
  | none => exact lookup?_eraseEntry c.records path consumer p s
  | some hash =>
    rw [revise]
    split
    · rename_i hrec
      show c.record? p s = _
      split
      · rename_i heq
        rw [heq.1, heq.2, hrec]
      · rfl
    · exact lookup?_setEntry c.records path consumer p s hash

theorem path_revise (c : Fingerprints) (path consumer : String) (print? : Option String) :
    (c.revise path consumer print?).path = c.path := by
  cases print? with
  | none => rfl
  | some hash =>
    rw [revise]
    split <;> rfl

/-- There is something to save afterwards exactly if there was before or the record is another. -/
theorem dirty_revise (c : Fingerprints) (path consumer : String) (print? : Option String) :
    (c.revise path consumer print?).dirty =
      (c.dirty || c.record? path consumer != print?) := by
  cases print? with
  | none =>
    show (c.dirty || (c.record? path consumer).isSome) = _
    cases c.record? path consumer <;> rfl
  | some hash =>
    rw [revise]
    split
    · rename_i hrec
      simp [confirm, hrec]
    · rename_i hrec
      simp [renew, hrec]

/-- An update sets the record of its path and consumer to the present fingerprint. -/
theorem record?_note (c : Fingerprints) (disk : Disk) (consumer path p s : String) :
    (c.note disk consumer path).record? p s =
      if p = path ∧ s = consumer then (disk.contentAt path).print? else c.record? p s := by
  rw [note_eq, record?_revise]

/-- The records are listed by path, each path once. -/
def Orderly (c : Fingerprints) : Prop := c.records.Ascending

instance (c : Fingerprints) : Decidable c.Orderly :=
  inferInstanceAs (Decidable (c.records.keys.Pairwise (· < ·)))

theorem orderly_empty (path : String) : (empty path).Orderly := Table.ascending_empty

theorem ascending_eraseEntry {α : Type} {t : Table (Table α)} (h : t.Ascending)
    (path consumer : String) : (eraseEntry t path consumer).Ascending := by
  unfold eraseEntry
  split
  · dsimp only
    split
    · exact h.erase _
    · exact h.insert _ _
  · exact h

theorem orderly_revise {c : Fingerprints} (h : c.Orderly) (path consumer : String)
    (print? : Option String) : (c.revise path consumer print?).Orderly := by
  cases print? with
  | none => exact ascending_eraseEntry h path consumer
  | some hash =>
    rw [revise]
    split
    · exact h
    · exact h.insert _ _

theorem orderly_note {c : Fingerprints} (h : c.Orderly) (disk : Disk) (consumer path : String) :
    (c.note disk consumer path).Orderly := by
  rw [note_eq]
  exact orderly_revise h path consumer _

theorem record?_empty (path p s : String) : (empty path).record? p s = none := rfl

theorem lookup?_eraseConsumer {α : Type} {t : Table (Table α)} (h : t.Ascending)
    (consumer p s : String) :
    lookup? (eraseConsumer t consumer) p s = if s = consumer then none else lookup? t p s := by
  unfold lookup? eraseConsumer
  rw [h.get?_filterMap]
  cases hinner : t.get? p with
  | none => simp
  | some inner =>
    have herase := inner.get?_erase consumer s
    by_cases hempty : (inner.erase consumer).isEmpty = true
    · have hnone := get?_of_isEmpty hempty s
      by_cases hs : s = consumer <;> simp_all
    · simpa [hempty] using herase

theorem record?_forget {c : Fingerprints} (h : c.Orderly) (consumer p s : String) :
    (c.forget consumer).record? p s = if s = consumer then none else c.record? p s :=
  lookup?_eraseConsumer h consumer p s

theorem orderly_forget {c : Fingerprints} (h : c.Orderly) (consumer : String) :
    (c.forget consumer).Orderly := h.filterMap _

/-- A consumer is known as long as some path has a record of it. -/
theorem hasConsumer_iff {c : Fingerprints} (h : c.Orderly) (consumer : String) :
    c.hasConsumer consumer = true ↔ ∃ path, (c.record? path consumer).isSome = true := by
  unfold hasConsumer Table.values
  rw [List.any_eq_true]
  constructor
  · rintro ⟨inner, hinner, hcontains⟩
    obtain ⟨⟨path, found⟩, hmem, rfl⟩ := List.mem_map.mp hinner
    refine ⟨path, ?_⟩
    simpa [record?, lookup?, h.get?_eq_some_iff.mpr hmem, Table.contains] using hcontains
  · rintro ⟨path, hrec⟩
    cases hinner : c.records.get? path with
    | none => simp [record?, lookup?, hinner] at hrec
    | some inner =>
      refine ⟨inner, List.mem_map.mpr ⟨(path, inner), Table.mem_of_get? hinner, rfl⟩, ?_⟩
      simpa [record?, lookup?, hinner, Table.contains] using hrec

/-- A consumer is known as long as the paths it is known by keep a record. -/
theorem hasConsumer_of_tracked {c after : Fingerprints} {consumer : String} (orderly : c.Orderly)
    (horderly : after.Orderly)
    (tracked : ∀ path, (c.record? path consumer).isSome = true →
      (after.record? path consumer).isSome = true)
    (h : c.hasConsumer consumer = true) : after.hasConsumer consumer = true := by
  obtain ⟨path, hpath⟩ := (hasConsumer_iff orderly consumer).mp h
  exact (hasConsumer_iff horderly consumer).mpr ⟨path, tracked path hpath⟩

theorem hasConsumer_eq_false_iff {c : Fingerprints} (h : c.Orderly) (consumer : String) :
    c.hasConsumer consumer = false ↔ ∀ path, c.record? path consumer = none := by
  rw [Bool.eq_false_iff, ne_eq, hasConsumer_iff h]
  simp

theorem probe_eq_untracked_iff (c : Fingerprints) (disk : Disk) (path consumer : String) :
    c.probe disk path consumer = .untracked ↔ c.record? path consumer = none := by
  unfold probe
  cases c.record? path consumer with
  | none => simp
  | some stored =>
    cases fingerprint disk path with
    | error cause => simp
    | ok hash => by_cases heq : hash = stored <;> simp [heq]

theorem fingerprint_error {disk : Disk} {path : String} (h : disk.exists? path = false) :
    ∃ cause, fingerprint disk path = .error cause := by
  unfold Disk.exists? Disk.lookup? at h
  unfold fingerprint Disk.isDirectory Disk.lookup?
  cases hfind : disk.find path with
  | error fault => simp [Disk.read, hfind, Bind.bind, Except.bind]
  | ok found => simp [hfind] at h

/-- Comparing a path finds it the same exactly if an update would. -/
theorem probe_eq_same_iff (c : Fingerprints) (disk : Disk) (path consumer : String) :
    c.probe disk path consumer = .same ↔ c.differs disk consumer path = false := by
  unfold probe
  rw [differs_eq_false_iff, ← disk.exists?_iff]
  by_cases hex : disk.exists? path = true
  · obtain ⟨hash, hprint, hcontent⟩ := fingerprint_eq disk path hex
    cases hrec : c.record? path consumer with
    | none => simp [hcontent]
    | some stored => by_cases heq : hash = stored <;> simp [hprint, hcontent, hex, heq, eq_comm]
  · obtain ⟨cause, hfails⟩ := fingerprint_error (by simpa using hex)
    cases c.record? path consumer <;> simp [hfails, hex]

end Fingerprints
end Toolflow
