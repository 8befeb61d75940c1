import Toolflow.Proofs.Records
import Toolflow.Proofs.Storage

/-! A cache of fingerprints as a store of records.

Between two calls files may come, go and change, and one that exists need not be readable. `Files`
is what a cache can find at one moment; a disk, on which all files can be read, is one case. Each
call has one effect on the record of a path and a consumer: it sets it, drops it, or leaves it. So
the record is what the latest call with an effect left, and every answer can be told from it.
`Called` says that one cache came from another by calls, and for which consumers. -/
namespace Toolflow

/-- The files as a cache finds them at one moment: the paths that exist, and the fingerprint of each
or the reason why it cannot be taken. Only what exists has one. -/
structure Files where
  exists? : String → Bool
  fingerprint : String → Except Failure String
  there : ∀ path hash, fingerprint path = .ok hash → exists? path = true

def Disk.files (disk : Disk) : Files where
  exists? := disk.exists?
  fingerprint := Fingerprints.fingerprint disk
  there path hash h := by
    by_contra hmissing
    obtain ⟨cause, hfails⟩ := Fingerprints.fingerprint_error (by simpa using hmissing)
    cases h.symm.trans hfails

@[simp] theorem Disk.exists?_files (disk : Disk) (path : String) :
    disk.files.exists? path = disk.exists? path := rfl

@[simp] theorem Disk.fingerprint_files (disk : Disk) (path : String) :
    disk.files.fingerprint path = Fingerprints.fingerprint disk path := rfl

/-- What an update finds at a path: its fingerprint, or that it is gone, unless it cannot be read. -/
def Files.look (files : Files) (path : String) : Except Failure (Option String) :=
  if files.exists? path then some <$> files.fingerprint path else .ok none

theorem Files.look_eq_some_iff {files : Files} {path hash : String} :
    files.look path = .ok (some hash) ↔
      files.exists? path = true ∧ files.fingerprint path = .ok hash := by
  unfold look
  split
  · cases hprint : files.fingerprint path <;> simp [*]
  · simp [*]

theorem Files.look_eq_error_iff {files : Files} {path : String} {cause : Failure} :
    files.look path = .error cause ↔
      files.exists? path = true ∧ files.fingerprint path = .error cause := by
  unfold look
  split
  · cases hprint : files.fingerprint path <;> simp [*]
  · simp [*]

namespace Fingerprints
variable {c : Fingerprints} {files : Files} {path consumer : String}

/-- Takes the fingerprint of a path and records it in place, however far it comes. -/
def updateIn (files : Files) (path consumer : String) : EStateM Failure Fingerprints Bool := do
  if ¬ files.exists? path then
    modify (·.drop path consumer)
    return true
  let hash ← MonadExcept.ofExcept (files.fingerprint path)
  let c ← get
  if c.record? path consumer = some hash then
    set (c.confirm path consumer)
    return false
  set (c.renew path consumer hash)
  return true

/-- Compares a path with its record and records nothing. -/
def probeIn (c : Fingerprints) (files : Files) (path consumer : String) : FileStatus :=
  match c.record? path consumer with
  | none => .untracked
  | some stored =>
    match files.fingerprint path with
    | .ok hash => if hash = stored then .same else .changed
    | .error _ => .changed

theorem run_ofExcept {ε σ α : Type} (x : Except ε α) (s : σ) :
    (MonadExcept.ofExcept x : EStateM ε σ α).run s =
      match x with
      | .ok a => .ok a s
      | .error cause => .error cause s := by
  cases x <;> rfl

/-- How an update ends and the cache it leaves. -/
theorem updateIn_run (c : Fingerprints) (files : Files) (path consumer : String) :
    (updateIn files path consumer).run c =
      match files.look path with
      | .error cause => .error cause c
      | .ok print? =>
        .ok (print?.isNone || c.record? path consumer != print?)
          (c.revise path consumer print?) := by
  unfold Files.look
  by_cases hthere : files.exists? path = true
  · cases hprint : files.fingerprint path with
    | error cause => simp [updateIn, hthere, hprint, run_ofExcept]
    | ok hash =>
      by_cases hrec : c.record? path consumer = some hash <;>
        simp [updateIn, hthere, hprint, run_ofExcept, hrec, revise]
  · simp [updateIn, hthere, revise]

theorem look_files (disk : Disk) (path : String) :
    disk.files.look path = .ok (disk.contentAt path).print? := by
  unfold Files.look
  rw [Disk.exists?_files, Disk.fingerprint_files]
  by_cases hthere : disk.exists? path = true
  · obtain ⟨hash, hprint, hcontent⟩ := fingerprint_eq disk path hthere
    rw [if_pos hthere, hprint, hcontent]
    rfl
  · have hmissing : disk.contentAt path = .missing := by
      by_contra hne
      exact hthere ((disk.exists?_iff path).mpr hne)
    rw [if_neg hthere, hmissing]
    rfl

/-- An update of the files of a disk, which are all readable, ends as the one in place does. -/
theorem update_eq_updateIn (c : Fingerprints) (disk : Disk) (path consumer : String) :
    c.update disk path consumer =
      match (updateIn disk.files path consumer).run c with
      | .ok differs after => .ok (differs, after)
      | .error cause _ => .error cause := by
  rw [updateIn_run, look_files, update_eq, note_eq]
  rfl

theorem probe_eq_probeIn (c : Fingerprints) (disk : Disk) (path consumer : String) :
    c.probe disk path consumer = c.probeIn disk.files path consumer := rfl

/-- An update finds its path unchanged exactly if the path exists with the fingerprint recorded. -/
theorem updateIn_ok_false_iff :
    (∃ after, (updateIn files path consumer).run c = .ok false after) ↔
      ∃ hash, files.look path = .ok (some hash) ∧ c.record? path consumer = some hash := by
  rw [updateIn_run]
  cases files.look path with
  | error cause => simp
  | ok print? => cases print? <;> simp

/-- Comparing a path finds it the same exactly if an update would. -/
theorem probeIn_eq_same_iff :
    c.probeIn files path consumer = .same ↔
      ∃ hash, files.look path = .ok (some hash) ∧ c.record? path consumer = some hash := by
  simp only [Files.look_eq_some_iff]
  unfold probeIn
  cases c.record? path consumer with
  | none => simp
  | some stored =>
    cases hprint : files.fingerprint path with
    | error cause => simp
    | ok hash =>
      have hthere := files.there path hash hprint
      by_cases hsame : stored = hash
      · simp [hthere, hsame]
      · simp [Ne.symm hsame]

/-- An update fails exactly if the path cannot be read, and leaves the cache alone. -/
theorem updateIn_error_iff {cause : Failure} {after : Fingerprints} :
    (updateIn files path consumer).run c = .error cause after ↔
      files.look path = .error cause ∧ after = c := by
  rw [updateIn_run]
  cases files.look path with
  | error found => simp [eq_comm]
  | ok print? => simp

/-! ### Calls -/

/-- A call on a cache. One that looks at files has them as they are at that time. -/
inductive Call where
  | update (files : Files) (path consumer : String)
  | probe (files : Files) (path consumer : String)
  | status (path consumer : String)
  | hasConsumer (consumer : String)
  | forget (consumer : String)

/-- The cache that a call leaves, however it ends. -/
def Call.after (c : Fingerprints) : Call → Fingerprints
  | update files path consumer =>
    match (updateIn files path consumer).run c with
    | .ok _ after => after
    | .error _ after => after
  | forget consumer => c.forget consumer
  | probe .. | status .. | hasConsumer .. => c

/-- The record that a call leaves for a path and a consumer, unless it leaves the one there was. -/
def Call.leaves (p s : String) : Call → Option (Option String)
  | update files path consumer =>
    if p = path ∧ s = consumer then (files.look path).toOption else none
  | forget consumer => if s = consumer then some none else none
  | probe .. | status .. | hasConsumer .. => none

/-- The cache after a sequence of calls. -/
def replay (start : Fingerprints) (log : List Call) : Fingerprints :=
  log.foldl Call.after start

/-- The record that the latest call with an effect left, or else the one at the start. -/
def recorded (start : Fingerprints) (log : List Call) (path consumer : String) : Option String :=
  (log.reverse.findSome? (Call.leaves path consumer)).getD (start.record? path consumer)

theorem recorded_concat (start : Fingerprints) (log : List Call) (call : Call)
    (path consumer : String) :
    recorded start (log ++ [call]) path consumer =
      (call.leaves path consumer).getD (recorded start log path consumer) := by
  unfold recorded
  rw [List.reverse_append, List.reverse_singleton, List.singleton_append, List.findSome?_cons]
  cases call.leaves path consumer <;> rfl

/-- The paths and the notes are listed in order, each once, and only what has a record is noted. -/
structure Coherent (c : Fingerprints) : Prop where
  orderly : c.Orderly
  ordered : c.statuses.Ascending
  tracked : ∀ path consumer, (lookup? c.statuses path consumer).isSome = true →
    (c.record? path consumer).isSome = true

theorem coherent_empty (path : String) : (empty path).Coherent :=
  ⟨Table.ascending_empty, Table.ascending_empty, by simp [empty, lookup?]⟩

theorem coherent_load (disk : Disk) (path : String) : (load disk path).Coherent :=
  ⟨orderly_load disk path, Table.ascending_empty, by simp [load, empty, lookup?]⟩

theorem Coherent.revise (h : c.Coherent) (path consumer : String) (print? : Option String) :
    (c.revise path consumer print?).Coherent := by
  have horderly := orderly_revise h.orderly path consumer print?
  -- a note for another path or consumer is as it was, and so is its record
  have htracked : ∀ p s, ¬ (p = path ∧ s = consumer) →
      (lookup? c.statuses p s).isSome = true →
        ((c.revise path consumer print?).record? p s).isSome = true := by
    intro p s hother hnoted
    rw [record?_revise, if_neg hother]
    exact h.tracked p s hnoted
  cases print? with
  | none =>
    refine ⟨horderly, ascending_eraseEntry h.ordered _ _, fun p s hnoted => ?_⟩
    rw [Fingerprints.revise, Fingerprints.drop, lookup?_eraseEntry] at hnoted
    split at hnoted
    · cases hnoted
    · exact htracked p s ‹_› hnoted
  | some hash =>
    have hstatuses : ∃ status, (c.revise path consumer (some hash)).statuses =
        setEntry c.statuses path consumer status := by
      rw [Fingerprints.revise]
      split
      · exact ⟨_, rfl⟩
      · exact ⟨_, rfl⟩
    obtain ⟨status, hstatuses⟩ := hstatuses
    refine ⟨horderly, hstatuses ▸ h.ordered.insert _ _, fun p s hnoted => ?_⟩
    rw [hstatuses, lookup?_setEntry] at hnoted
    split at hnoted
    · rename_i heq
      rw [record?_revise, if_pos heq]
      rfl
    · exact htracked p s ‹_› hnoted

theorem Coherent.forget (h : c.Coherent) (consumer : String) : (c.forget consumer).Coherent := by
  refine ⟨orderly_forget h.orderly consumer, h.ordered.filterMap _, fun p s hnoted => ?_⟩
  simp only [Fingerprints.forget, lookup?_eraseConsumer h.ordered] at hnoted
  rw [record?_forget h.orderly]
  by_cases heq : s = consumer
  · simp [heq] at hnoted
  · rw [if_neg heq] at hnoted ⊢
    exact h.tracked p s hnoted

/-- An update that can read its path revises the record, and one that cannot does nothing. -/
theorem after_update (c : Fingerprints) (files : Files) (path consumer : String) :
    (Call.update files path consumer).after c =
      match files.look path with
      | .error _ => c
      | .ok print? => c.revise path consumer print? := by
  rw [Call.after, updateIn_run]
  cases files.look path <;> rfl

/-- One call has its effect on the record of each path and consumer. -/
theorem record?_after (h : c.Orderly) (call : Call) (p s : String) :
    (call.after c).record? p s = (call.leaves p s).getD (c.record? p s) := by
  cases call with
  | probe | status | hasConsumer => rfl
  | forget consumer =>
    rw [Call.after, record?_forget h, Call.leaves]
    split <;> rfl
  | update files path consumer =>
    rw [after_update, Call.leaves]
    cases files.look path with
    | error cause =>
      dsimp only
      split <;> rfl
    | ok print? =>
      dsimp only
      rw [record?_revise]
      split <;> rfl

/-- Whatever holds of a cache and after each revision and each forgetting holds after any call. -/
theorem after_keeps {P : Fingerprints → Prop} (same : P c)
    (revised : ∀ path consumer print?, P (c.revise path consumer print?))
    (forgotten : ∀ consumer, P (c.forget consumer)) (call : Call) : P (call.after c) := by
  cases call with
  | probe | status | hasConsumer => exact same
  | forget consumer => exact forgotten consumer
  | update files path consumer =>
    rw [after_update]
    split
    · exact same
    · exact revised path consumer _

theorem orderly_after (h : c.Orderly) (call : Call) : (call.after c).Orderly :=
  after_keeps h (orderly_revise h) (orderly_forget h) call

theorem Coherent.after (h : c.Coherent) (call : Call) : (call.after c).Coherent :=
  after_keeps h h.revise h.forget call

theorem Coherent.replay (h : c.Coherent) (log : List Call) : (c.replay log).Coherent := by
  induction log using List.reverseRecOn with
  | nil => exact h
  | append_singleton log call ih =>
    rw [Fingerprints.replay, List.foldl_concat]
    exact ih.after call

/-- After any sequence of calls each record is the one the latest call with an effect left. -/
theorem record?_replay (h : c.Coherent) (log : List Call) (p s : String) :
    (c.replay log).record? p s = recorded c log p s := by
  induction log using List.reverseRecOn with
  | nil => rfl
  | append_singleton log call ih =>
    have hstep := record?_after (h.replay log).orderly call p s
    rw [recorded_concat, ← ih, ← hstep, replay, List.foldl_concat, replay]

theorem Coherent.record?_of_status (h : c.Coherent)
    (noted : c.status path consumer ≠ .untracked) : c.record? path consumer ≠ none := by
  rw [← Option.isSome_iff_ne_none]
  refine h.tracked path consumer ?_
  by_contra hnone
  rw [Option.not_isSome_iff_eq_none] at hnone
  exact noted (by rw [status, hnone]; rfl)

/-! ### Caches that come about by calls -/

/-- The consumer of which a call may alter a record. -/
def Call.alters? : Call → Option String
  | update _ _ consumer | forget consumer => some consumer
  | probe .. | status .. | hasConsumer .. => none

theorem Call.leaves_eq_none {call : Call} {s : String} (h : call.alters? ≠ some s) (p : String) :
    call.leaves p s = none := by
  cases call with
  | probe | status | hasConsumer => rfl
  | forget other =>
    rw [Call.leaves, if_neg fun heq => h (congrArg some (Eq.symm heq))]
  | update files path other =>
    rw [Call.leaves, if_neg fun heq => h (congrArg some heq.2.symm)]

/-- Calls lead from one cache to another, and they alter records of the given consumers only. -/
def Called (names : List String) (c after : Fingerprints) : Prop :=
  ∃ log : List Call, (∀ call ∈ log, ∀ s, call.alters? = some s → s ∈ names) ∧ after = c.replay log

variable {names : List String} {after : Fingerprints}

theorem Called.refl (names : List String) (c : Fingerprints) : Called names c c :=
  ⟨[], fun _ hcall => absurd hcall List.not_mem_nil, rfl⟩

theorem Called.single (call : Call) (h : ∀ s, call.alters? = some s → s ∈ names) :
    Called names c (call.after c) := by
  refine ⟨[call], fun other hother => ?_, rfl⟩
  rw [List.mem_singleton.mp hother]
  exact h

theorem Called.trans {between : Fingerprints} (h : Called names c between)
    (h' : Called names between after) : Called names c after := by
  obtain ⟨log, altered, rfl⟩ := h
  obtain ⟨more, altered', rfl⟩ := h'
  refine ⟨log ++ more, fun call hcall => ?_, List.foldl_append.symm⟩
  rcases List.mem_append.mp hcall with hlog | hmore
  · exact altered call hlog
  · exact altered' call hmore

theorem Called.mono {more : List String} (h : Called names c after) (sub : names ⊆ more) :
    Called more c after := by
  obtain ⟨log, altered, rfl⟩ := h
  exact ⟨log, fun call hcall s hs => sub (altered call hcall s hs), rfl⟩

/-- Records of other consumers are as they were. -/
theorem Called.kept (h : Called names c after) (orderly : c.Orderly) :
    after.Orderly ∧ ∀ p s, s ∉ names → after.record? p s = c.record? p s := by
  obtain ⟨log, altered, rfl⟩ := h
  induction log using List.reverseRecOn with
  | nil => exact ⟨orderly, fun _ _ _ => rfl⟩
  | append_singleton log call ih =>
    obtain ⟨horderly, hkept⟩ := ih fun call hcall => altered call (List.mem_append_left _ hcall)
    rw [replay, List.foldl_concat]
    refine ⟨orderly_after horderly call, fun p s hs => ?_⟩
    have hother : call.alters? ≠ some s := fun heq =>
      hs (altered call (List.mem_append_right _ (List.mem_singleton_self call)) s heq)
    exact (record?_after horderly call p s).trans (Call.leaves_eq_none hother p ▸ hkept p s hs)

theorem called_forget (c : Fingerprints) (h : consumer ∈ names) :
    Called names c (c.forget consumer) :=
  .single (.forget consumer) fun _ heq => Option.some.inj heq ▸ h

/-- Renewing the record of a path on a disk is one update. -/
theorem called_note (c : Fingerprints) (disk : Disk) (h : consumer ∈ names) (path : String) :
    Called names c (c.note disk consumer path) := by
  have hnote : c.note disk consumer path = (Call.update disk.files path consumer).after c := by
    rw [after_update, look_files, note_eq]
  rw [hnote]
  exact .single _ fun _ heq => Option.some.inj heq ▸ h

theorem called_sweep (c : Fingerprints) (disk : Disk) (h : consumer ∈ names)
    (looks : List (String × Bool)) : Called names c (sweep disk consumer c looks).2 := by
  induction looks generalizing c with
  | nil => exact .refl names c
  | cons look rest ih =>
    by_cases hvisit : c.visits consumer look = true
    · rw [sweep_cons_visited _ hvisit]
      exact (called_note c disk h look.1).trans (ih _)
    · rw [sweep_cons_passed _ hvisit]
      exact ih c

theorem called_noteThere (c : Fingerprints) (disk : Disk) (h : consumer ∈ names)
    (paths : List String) : Called names c (noteThere disk consumer c paths) := by
  unfold noteThere
  induction paths generalizing c with
  | nil => exact .refl names c
  | cons path rest ih =>
    rw [List.foldl_cons]
    split
    · exact (called_note c disk h path).trans (ih _)
    · exact ih c

/-- A cache as it is made: empty, or as loaded from a disk. -/
def Fresh (c : Fingerprints) : Prop :=
  (∃ path, c = empty path) ∨ ∃ disk path, c = load disk path

theorem Fresh.coherent (h : c.Fresh) : c.Coherent := by
  rcases h with ⟨path, rfl⟩ | ⟨disk, path, rfl⟩
  · exact coherent_empty path
  · exact coherent_load disk path

end Fingerprints

open Fingerprints in
/-- After any sequence of calls, with any changes of the files between them, the record of a path
and a consumer is what the latest call that had an effect on it left. The answers of the next call
can be told from the records: an update finds a path unchanged, and a comparison finds it the same,
exactly if the path exists with the fingerprint recorded; a consumer is known exactly if some path
has a record of it; only what has a record is noted. An update fails exactly if it cannot read a
path that exists, and then changes nothing. On a disk the two that look at files are those of the
library. -/
theorem records_of_calls {start : Fingerprints} (fresh : start.Fresh) (log : List Call) :
    let c := start.replay log
    (∀ path consumer, c.record? path consumer = recorded start log path consumer) ∧
    (∀ files path consumer,
      ((∃ after, (updateIn files path consumer).run c = .ok false after) ↔
        files.exists? path = true ∧ ∃ hash, files.fingerprint path = .ok hash ∧
          recorded start log path consumer = some hash) ∧
      (c.probeIn files path consumer = .same ↔
        files.exists? path = true ∧ ∃ hash, files.fingerprint path = .ok hash ∧
          recorded start log path consumer = some hash) ∧
      ∀ cause after, (updateIn files path consumer).run c = .error cause after ↔
        files.exists? path = true ∧ files.fingerprint path = .error cause ∧ after = c) ∧
    (∀ consumer, c.hasConsumer consumer = true ↔
      ∃ path, (recorded start log path consumer).isSome = true) ∧
    (∀ path consumer, c.status path consumer ≠ .untracked →
      recorded start log path consumer ≠ none) ∧
    ∀ disk path consumer,
      c.probe disk path consumer = c.probeIn disk.files path consumer ∧
      c.update disk path consumer =
        match (updateIn disk.files path consumer).run c with
        | .ok differs after => .ok (differs, after)
        | .error cause _ => .error cause := by
  intro c
  have hrecord : ∀ path consumer, c.record? path consumer = recorded start log path consumer :=
    record?_replay fresh.coherent log
  have hcoherent : c.Coherent := fresh.coherent.replay log
  refine ⟨hrecord, fun files path consumer => ⟨?_, ?_, fun cause after => ?_⟩,
    fun consumer => ?_, fun path consumer => ?_, fun disk path consumer => ?_⟩
  · rw [← hrecord, updateIn_ok_false_iff]
    simp only [Files.look_eq_some_iff, exists_and_left, and_assoc]
  · rw [← hrecord, probeIn_eq_same_iff]
    simp only [Files.look_eq_some_iff, exists_and_left, and_assoc]
  · rw [updateIn_error_iff, Files.look_eq_error_iff, and_assoc]
  · rw [hasConsumer_iff hcoherent.orderly]
    simp only [hrecord]
  · rw [← hrecord]
    exact hcoherent.record?_of_status
  · exact ⟨probe_eq_probeIn c disk path consumer, update_eq_updateIn c disk path consumer⟩

/-- Files of which one exists, which may not be readable. -/
def Files.single (name : String) (print? : Option String) : Files where
  exists? path := path == name
  fingerprint path :=
    match print? with
    | some hash =>
      if path = name then .ok hash else .error (.during (.reading path) (.file .notFound))
    | none => .error (.during (.reading path) (.file .permissionDenied))
  there path hash h := by
    cases print? with
    | none => cases h
    | some print =>
      dsimp only at h
      split at h
      · simpa using ‹path = name›
      · cases h

open Fingerprints in
/-- A netlist is recorded for two stages, cannot be read for a while, and then one stage forgets
it. The other still knows the first version of it, and finds the same one when it comes back. -/
theorem netlist_remembered :
    let c := (empty cacheFile).replay
      [.update (.single "top.eblif" (some "7")) "top.eblif" "pack",
        .update (.single "top.eblif" (some "7")) "top.eblif" "place",
        .update (.single "top.eblif" none) "top.eblif" "pack",
        .forget "place",
        .probe (.single "top.eblif" (some "8")) "top.eblif" "pack"]
    c.record? "top.eblif" "pack" = some "7" ∧ c.record? "top.eblif" "place" = none ∧
      c.hasConsumer "place" = false ∧
      ∃ after, (updateIn (.single "top.eblif" (some "7")) "top.eblif" "pack").run c =
        .ok false after := by
  intro c
  obtain ⟨hrecord, hanswers, -, -, -⟩ := records_of_calls (Or.inl ⟨cacheFile, rfl⟩)
    [.update (.single "top.eblif" (some "7")) "top.eblif" "pack",
      .update (.single "top.eblif" (some "7")) "top.eblif" "place",
      .update (.single "top.eblif" none) "top.eblif" "pack",
      .forget "place",
      .probe (.single "top.eblif" (some "8")) "top.eblif" "pack"]
  obtain ⟨hupdate, -, -⟩ := hanswers (.single "top.eblif" (some "7")) "top.eblif" "pack"
  refine ⟨(hrecord _ _).trans (by decide), (hrecord _ _).trans (by decide), by decide,
    hupdate.mpr ⟨by decide, "7", rfl, by decide⟩⟩

end Toolflow
