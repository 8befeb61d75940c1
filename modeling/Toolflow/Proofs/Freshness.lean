import Toolflow.Flow.Build
import Toolflow.Proofs.Contexts

/-! What the check before a run looks at, and what it leaves in the records.

The check visits the paths of a step's takes, flagged by whether the take is bound, and then the
paths of its mandatory outputs. A visit compares a path with its record and renews the record; a
path of an unbound take is visited only while it has one. No visit ends in a failure. -/
namespace Toolflow

namespace PlanStep

/-- The paths of a step's takes, each with whether its take is bound. -/
def looks (step : PlanStep) (ctx : Context) : List (String × Bool) :=
  step.inputs.takes.entries.flatMap fun e =>
    match ctx.takes.get? e.1 with
    | some v => v.strings.map (·, true)
    | none => e.2.strings.map (·, false)

/-- The paths a step may write, as planned. -/
def outputPaths (step : PlanStep) : List String := step.outputs.values.flatMap (·.strings)

/-- The paths that have to be there once the step has run. -/
def mandatoryPaths (step : PlanStep) (produces : List Declared) : List String :=
  (mandatoryOutputs produces step.outputs).flatMap (·.strings)

theorem mem_looks_bound {step : PlanStep} {ctx : Context} {path : String} :
    (path, true) ∈ step.looks ctx ↔
      ∃ take planned v, (take, planned) ∈ step.inputs.takes.entries ∧
        ctx.takes.get? take = some v ∧ path ∈ v.strings := by
  unfold looks
  rw [List.mem_flatMap]
  constructor
  · rintro ⟨⟨take, planned⟩, hentry, hpath⟩
    cases hv : ctx.takes.get? take with
    | none => simp [hv] at hpath
    | some v => exact ⟨take, planned, v, hentry, hv, by simpa [hv] using hpath⟩
  · rintro ⟨take, planned, v, hentry, hv, hpath⟩
    exact ⟨(take, planned), hentry, by simpa [hv] using hpath⟩

theorem mem_looks_absent {step : PlanStep} {ctx : Context} {path : String} :
    (path, false) ∈ step.looks ctx ↔
      ∃ take planned, (take, planned) ∈ step.inputs.takes.entries ∧
        ctx.takes.get? take = none ∧ path ∈ planned.strings := by
  unfold looks
  rw [List.mem_flatMap]
  constructor
  · rintro ⟨⟨take, planned⟩, hentry, hpath⟩
    cases hv : ctx.takes.get? take with
    | none => exact ⟨take, planned, hentry, hv, by simpa [hv] using hpath⟩
    | some v => simp [hv] at hpath
  · rintro ⟨take, planned, hentry, hv, hpath⟩
    exact ⟨(take, planned), hentry, by simpa [hv] using hpath⟩

theorem mem_outputPaths {step : PlanStep} {path : String} :
    path ∈ step.outputPaths ↔ ∃ v ∈ step.outputs.values, path ∈ v.strings := List.mem_flatMap

theorem mem_mandatoryPaths {step : PlanStep} {produces : List Declared} {path : String} :
    path ∈ step.mandatoryPaths produces ↔
      ∃ d ∈ produces, d.strictness ≠ .optional ∧
        ∃ v, step.outputs.get? d.name = some v ∧ path ∈ v.strings := by
  unfold mandatoryPaths mandatoryOutputs
  simp only [List.mem_flatMap, List.mem_filterMap, List.mem_filter, decide_eq_true_eq]
  constructor
  · rintro ⟨v, ⟨d, ⟨hd, hstrict⟩, hv⟩, hpath⟩
    exact ⟨d, hd, hstrict, v, hv, hpath⟩
  · rintro ⟨d, hd, hstrict, v, hv, hpath⟩
    exact ⟨v, ⟨d, ⟨hd, hstrict⟩, hv⟩, hpath⟩

end PlanStep

namespace Fingerprints
variable (disk : Disk) (consumer : String)

/-- Whether a look at a path is a visit. -/
def visits (c : Fingerprints) (look : String × Bool) : Bool :=
  look.2 || (c.record? look.1 consumer).isSome

/-- Looks at paths in turn. Answers whether one that was visited differed. -/
def sweep : Fingerprints → List (String × Bool) → Bool × Fingerprints
  | c, [] => (false, c)
  | c, look :: rest =>
    if c.visits consumer look then
      let after := sweep (c.note disk consumer look.1) rest
      (c.differs disk consumer look.1 || after.1, after.2)
    else sweep c rest

/-- Renews the records of the paths that are there. -/
def noteThere (c : Fingerprints) (paths : List String) : Fingerprints :=
  paths.foldl (fun c path => if disk.exists? path then c.note disk consumer path else c) c

variable {disk consumer}

theorem sweep_cons_visited {c : Fingerprints} {look : String × Bool} (rest : List (String × Bool))
    (h : c.visits consumer look = true) :
    sweep disk consumer c (look :: rest) =
      let after := sweep disk consumer (c.note disk consumer look.1) rest
      (c.differs disk consumer look.1 || after.1, after.2) := by
  rw [sweep, if_pos h]

theorem sweep_cons_passed {c : Fingerprints} {look : String × Bool} (rest : List (String × Bool))
    (h : ¬ c.visits consumer look = true) :
    sweep disk consumer c (look :: rest) = sweep disk consumer c rest := by
  rw [sweep, if_neg h]

theorem sweep_append (c : Fingerprints) (l m : List (String × Bool)) :
    sweep disk consumer c (l ++ m) =
      let first := sweep disk consumer c l
      let second := sweep disk consumer first.2 m
      (first.1 || second.1, second.2) := by
  induction l generalizing c with
  | nil => simp [sweep]
  | cons look rest ih =>
    rw [List.cons_append]
    by_cases hvisit : c.visits consumer look = true
    · simp only [sweep_cons_visited _ hvisit, ih, Bool.or_assoc]
    · simp only [sweep_cons_passed _ hvisit, ih]

/-- A sweep renews the records of the paths it visits. A path that is looked at while it is bound
is visited, and so is one that has a record from the start. -/
theorem record?_sweep (c : Fingerprints) (l : List (String × Bool)) (p s : String) :
    (sweep disk consumer c l).2.record? p s =
      if s = consumer ∧ ((p, true) ∈ l ∨ (p, false) ∈ l ∧ (c.record? p s).isSome) then
        (disk.contentAt p).print?
      else c.record? p s := by
  induction l generalizing c with
  | nil => simp [sweep]
  | cons look rest ih =>
    obtain ⟨path, isBound⟩ := look
    by_cases hs : s = consumer
    · subst hs
      by_cases hp : p = path
      · subst hp
        unfold sweep
        cases isBound <;> cases hrec : c.record? p s <;>
          simp [visits, ih, record?_note, hrec]
      · unfold sweep
        cases isBound <;> cases hrec : c.record? path s <;>
          simp [visits, ih, record?_note, hrec, hp]
    · unfold sweep
      split <;> simp [ih, record?_note, hs]

/-- Renewing a record that did not differ changes no record. -/
theorem record?_note_of_same {c : Fingerprints} {path : String}
    (h : c.differs disk consumer path = false) (p s : String) :
    (c.note disk consumer path).record? p s = c.record? p s := by
  rw [record?_note]
  split
  · rename_i heq
    obtain ⟨rfl, rfl⟩ := heq
    exact (differs_eq_false_iff.mp h).2.symm
  · rfl

/-- A sweep finds no difference exactly if each path it visits is as its record has it. -/
theorem sweep_eq_false_iff (c : Fingerprints) (l : List (String × Bool)) :
    (sweep disk consumer c l).1 = false ↔
      ∀ look ∈ l, c.visits consumer look = true → c.differs disk consumer look.1 = false := by
  induction l generalizing c with
  | nil => simp [sweep]
  | cons look rest ih =>
    rw [List.forall_mem_cons]
    by_cases hvisit : c.visits consumer look = true
    · rw [sweep_cons_visited _ hvisit, Bool.or_eq_false_iff, ih]
      have hkept : c.differs disk consumer look.1 = false →
          ((∀ l ∈ rest, (c.note disk consumer look.1).visits consumer l = true →
            (c.note disk consumer look.1).differs disk consumer l.1 = false) ↔
          ∀ l ∈ rest, c.visits consumer l = true → c.differs disk consumer l.1 = false) := by
        intro hsame
        simp only [visits, differs, record?_note_of_same hsame]
      constructor
      · rintro ⟨hsame, hrest⟩
        exact ⟨fun _ => hsame, (hkept hsame).mp hrest⟩
      · rintro ⟨hfirst, hrest⟩
        exact ⟨hfirst hvisit, (hkept (hfirst hvisit)).mpr hrest⟩
    · rw [sweep_cons_passed _ hvisit, ih]
      exact ⟨fun h => ⟨fun hcontra => absurd hcontra hvisit, h⟩, fun h => h.2⟩

/-- A sweep that finds no difference leaves the records as they are. -/
theorem record?_sweep_of_same {c : Fingerprints} {l : List (String × Bool)}
    (h : (sweep disk consumer c l).1 = false) (p s : String) :
    (sweep disk consumer c l).2.record? p s = c.record? p s := by
  rw [record?_sweep]
  split
  · rename_i hlooked
    obtain ⟨rfl, hlooked⟩ := hlooked
    have hall := (sweep_eq_false_iff c l).mp h
    have hsame : c.differs disk s p = false := by
      rcases hlooked with hbound | ⟨habsent, htracked⟩
      · exact hall (p, true) hbound rfl
      · exact hall (p, false) habsent htracked
    exact (differs_eq_false_iff.mp hsame).2.symm
  · rfl

theorem orderly_sweep {c : Fingerprints} (h : c.Orderly) (l : List (String × Bool)) :
    (sweep disk consumer c l).2.Orderly := by
  induction l generalizing c with
  | nil => exact h
  | cons look rest ih =>
    by_cases hvisit : c.visits consumer look = true
    · rw [sweep_cons_visited _ hvisit]
      exact ih (orderly_note h disk consumer look.1)
    · rw [sweep_cons_passed _ hvisit]
      exact ih h

theorem record?_noteThere (c : Fingerprints) (paths : List String) (p s : String) :
    (noteThere disk consumer c paths).record? p s =
      if s = consumer ∧ p ∈ paths ∧ disk.exists? p = true then (disk.contentAt p).print?
      else c.record? p s := by
  unfold noteThere
  induction paths generalizing c with
  | nil => simp
  | cons path rest ih =>
    rw [List.foldl_cons, ih]
    by_cases hs : s = consumer
    · by_cases hp : p = path
      · subst hp
        by_cases hex : disk.exists? p = true <;> simp [hex, hs, record?_note]
      · by_cases hex : disk.exists? path = true <;> simp [hex, hp, record?_note]
    · by_cases hex : disk.exists? path = true <;> simp [hex, hs, record?_note]

theorem orderly_noteThere {c : Fingerprints} (h : c.Orderly) (disk : Disk) (consumer : String)
    (paths : List String) :
    (noteThere disk consumer c paths).Orderly := by
  unfold noteThere
  induction paths generalizing c with
  | nil => exact h
  | cons path rest ih =>
    rw [List.foldl_cons]
    split
    · exact ih (orderly_note h disk consumer path)
    · exact ih h

end Fingerprints

/-- What the check before a run answers, and the records it leaves. Without records a stage always
runs. -/
def PlanStep.examine (step : PlanStep) (ctx : Context) (produces : List Declared) (disk : Disk) :
    Option Fingerprints → Bool × Option Fingerprints
  | none => (true, none)
  | some c =>
    let swept := Fingerprints.sweep disk step.stage c (step.looks ctx)
    let paths := step.mandatoryPaths produces
    (!c.hasConsumer step.stage || swept.1 || paths.any (!disk.exists? ·),
      some (Fingerprints.noteThere disk Fingerprints.targetConsumer swept.2 paths))

namespace PlanStep
open Fingerprints
variable {step : PlanStep} {ctx : Context} {produces : List Declared} {disk : Disk}
  {c : Fingerprints}

/-- The check lets a step pass exactly if its stage is known, every visited path is there as it was
recorded, and so is every mandatory output. -/
theorem examine_eq_false_iff :
    (step.examine ctx produces disk (some c)).1 = false ↔
      c.hasConsumer step.stage = true ∧
      (∀ look ∈ step.looks ctx, c.visits step.stage look = true →
        c.differs disk step.stage look.1 = false) ∧
      ∀ path ∈ step.mandatoryPaths produces, disk.exists? path = true := by
  have hthere : (step.mandatoryPaths produces).any (!disk.exists? ·) = false ↔
      ∀ path ∈ step.mandatoryPaths produces, disk.exists? path = true := by
    simp
  simp only [examine, Bool.or_eq_false_iff, sweep_eq_false_iff, hthere, Bool.not_eq_eq_eq_not,
    Bool.not_false, and_assoc]

/-- The check renews the records of the visited paths, and then those of the products that are
there. -/
theorem record?_examine (step : PlanStep) (ctx : Context) (produces : List Declared) (disk : Disk)
    (c : Fingerprints) :
    ∃ after, (step.examine ctx produces disk (some c)).2 = some after ∧
      (c.Orderly → after.Orderly) ∧
      ∀ p s, after.record? p s =
        if s = targetConsumer ∧ p ∈ step.mandatoryPaths produces ∧ disk.exists? p = true then
          (disk.contentAt p).print?
        else if s = step.stage ∧ ((p, true) ∈ step.looks ctx ∨
            (p, false) ∈ step.looks ctx ∧ (c.record? p s).isSome) then
          (disk.contentAt p).print?
        else c.record? p s := by
  refine ⟨_, rfl, fun h => orderly_noteThere (orderly_sweep h _) _ _ _, fun p s => ?_⟩
  rw [record?_noteThere, record?_sweep]

/-- Of the records of stages it renews those of the visited paths and no others. -/
theorem examine_some (step : PlanStep) (ctx : Context) (produces : List Declared) (disk : Disk)
    (c : Fingerprints) :
    ∃ after, (step.examine ctx produces disk (some c)).2 = some after ∧
      (c.Orderly → after.Orderly) ∧
      ∀ p s, s ≠ targetConsumer → after.record? p s =
        if s = step.stage ∧ ((p, true) ∈ step.looks ctx ∨
            (p, false) ∈ step.looks ctx ∧ (c.record? p s).isSome) then
          (disk.contentAt p).print?
        else c.record? p s := by
  obtain ⟨after, hafter, horderly, hrecords⟩ := record?_examine step ctx produces disk c
  refine ⟨after, hafter, horderly, fun p s hs => ?_⟩
  rw [hrecords, if_neg fun h => hs h.1]

/-- A check that lets a step pass only repeats what the records say, but for those of products. -/
theorem record?_examine_fresh (h : (step.examine ctx produces disk (some c)).1 = false) :
    ∃ after, (step.examine ctx produces disk (some c)).2 = some after ∧
      (c.Orderly → after.Orderly) ∧
      ∀ p s, after.record? p s =
        if s = targetConsumer ∧ p ∈ step.mandatoryPaths produces ∧ disk.exists? p = true then
          (disk.contentAt p).print?
        else c.record? p s := by
  refine ⟨_, rfl, fun hc => orderly_noteThere (orderly_sweep hc _) _ _ _, fun p s => ?_⟩
  have hswept := (sweep_eq_false_iff c _).mpr (examine_eq_false_iff.mp h).2.1
  rw [record?_noteThere, record?_sweep_of_same hswept]

/-- It leaves the records of stages as they are. -/
theorem examine_fresh (h : (step.examine ctx produces disk (some c)).1 = false) :
    ∃ after, (step.examine ctx produces disk (some c)).2 = some after ∧
      (c.Orderly → after.Orderly) ∧
      ∀ p s, s ≠ targetConsumer → after.record? p s = c.record? p s := by
  obtain ⟨after, hafter, horderly, hrecords⟩ := record?_examine_fresh h
  refine ⟨after, hafter, horderly, fun p s hs => ?_⟩
  rw [hrecords, if_neg fun h => hs h.1]

end PlanStep

namespace Build
open Fingerprints
variable {α β : Type} {host : Host} {bench : Bench} {c : Fingerprints}

theorem bind_run (x : Build α) (f : α → Build β) (host : Host) (session : Session) :
    (x >>= f) host session =
      match x host session with
      | .ok a after => f a host after
      | .error cause after => .error cause after := by
  show EStateM.bind (x host) (fun a => f a host) session = _
  unfold EStateM.bind
  cases x host session <;> rfl

theorem pure_run (a : α) (host : Host) (session : Session) :
    (pure a : Build α) host session = .ok a session := rfl

theorem get_run (host : Host) (session : Session) :
    (get : Build Session) host session = .ok session session := rfl

theorem disk_run (host : Host) (session : Session) :
    disk host session = .ok session.bench.disk session := rfl

theorem record_run (path consumer : String) :
    record path consumer host ⟨bench, some c⟩ =
      .ok (c.differs bench.disk consumer path)
        ⟨bench, some (c.note bench.disk consumer path)⟩ := by
  unfold record
  simp only [bind_run, get_run, disk_run, update_eq]
  rfl

/-- A run through a list whose members each sweep some paths sweeps all of them. -/
theorem foldlM_sweep {f : Bool → α → Build Bool} {looks : α → List (String × Bool)}
    {consumer : String}
    (each : ∀ b a c, f b a host ⟨bench, some c⟩ =
      .ok (b || (sweep bench.disk consumer c (looks a)).1)
        ⟨bench, some (sweep bench.disk consumer c (looks a)).2⟩)
    (l : List α) (b : Bool) (c : Fingerprints) :
    l.foldlM f b host ⟨bench, some c⟩ =
      .ok (b || (sweep bench.disk consumer c (l.flatMap looks)).1)
        ⟨bench, some (sweep bench.disk consumer c (l.flatMap looks)).2⟩ := by
  induction l generalizing b c with
  | nil => simp [sweep]; rfl
  | cons a rest ih =>
    rw [List.foldlM_cons, bind_run, each, List.flatMap_cons]
    simp only [ih, sweep_append, Bool.or_assoc]

theorem takeChanged_run (step : PlanStep) (ctx : Context) (take : String) (planned : Value) :
    takeChanged step ctx take planned host ⟨bench, some c⟩ =
      let swept := sweep bench.disk step.stage c
        (match ctx.takes.get? take with
          | some v => v.strings.map (·, true)
          | none => planned.strings.map (·, false))
      .ok swept.1 ⟨bench, some swept.2⟩ := by
  unfold takeChanged
  cases ctx.takes.get? take with
  | some v =>
    have heach : ∀ b path c, (do
        let differs ← record path step.stage
        return b || differs : Build Bool) host ⟨bench, some c⟩ =
          .ok (b || (sweep bench.disk step.stage c [(path, true)]).1)
            ⟨bench, some (sweep bench.disk step.stage c [(path, true)]).2⟩ := by
      intro b path c
      rw [bind_run, record_run, sweep_cons_visited _ rfl]
      simp [sweep]
      rfl
    have hrun := foldlM_sweep heach v.strings false c
    rw [Bool.false_or, ← List.map_eq_flatMap] at hrun
    dsimp only
    exact hrun
  | none =>
    have heach : ∀ b path c, (do
        match (← get).cache with
        | none => return b
        | some cache =>
          if cache.probe (← disk) path step.stage = .untracked then return b
          let differs ← record path step.stage
          return b || differs : Build Bool) host ⟨bench, some c⟩ =
          .ok (b || (sweep bench.disk step.stage c [(path, false)]).1)
            ⟨bench, some (sweep bench.disk step.stage c [(path, false)]).2⟩ := by
      intro b path c
      simp only [bind_run, get_run, disk_run]
      by_cases huntracked : c.probe bench.disk path step.stage = .untracked
      · have hpassed : ¬ c.visits step.stage (path, false) = true := by
          simp [visits, (probe_eq_untracked_iff ..).mp huntracked]
        rw [if_pos huntracked, sweep_cons_passed _ hpassed]
        simp [sweep]
        rfl
      · have hvisit : c.visits step.stage (path, false) = true := by
          simpa [visits, Option.isSome_iff_ne_none] using
            mt (probe_eq_untracked_iff ..).mpr huntracked
        rw [if_neg huntracked, bind_run, record_run, sweep_cons_visited _ hvisit]
        simp [sweep]
        rfl
    have hrun := foldlM_sweep heach planned.strings false c
    rw [Bool.false_or, ← List.map_eq_flatMap] at hrun
    dsimp only
    exact hrun

theorem recordProduct_run (path : String) :
    recordProduct path host ⟨bench, some c⟩ =
      .ok (bench.disk.exists? path)
        ⟨bench, some (noteThere bench.disk targetConsumer c [path])⟩ := by
  unfold recordProduct
  simp only [bind_run, disk_run]
  by_cases hex : bench.disk.exists? path = true
  · simp only [hex, if_true, bind_run, record_run, noteThere, List.foldl_cons, List.foldl_nil]
    rfl
  · simp only [hex, noteThere, List.foldl_cons, List.foldl_nil]
    rfl

theorem recordProduct_run_none (path : String) :
    recordProduct path host ⟨bench, none⟩ = .ok (bench.disk.exists? path) ⟨bench, none⟩ := by
  unfold recordProduct
  simp only [bind_run, disk_run]
  by_cases hex : bench.disk.exists? path = true
  · simp only [hex, if_true]
    rfl
  · simp only [hex]
    rfl

theorem takes_run (step : PlanStep) (ctx : Context) (b : Bool) :
    (step.inputs.takes.entries.foldlM (fun changed (take, planned) => do
      let differs ← takeChanged step ctx take planned
      return changed || differs) b : Build Bool) host ⟨bench, some c⟩ =
      let swept := sweep bench.disk step.stage c (step.looks ctx)
      .ok (b || swept.1) ⟨bench, some swept.2⟩ := by
  refine foldlM_sweep ?_ step.inputs.takes.entries b c
  rintro b ⟨take, planned⟩ c
  dsimp only
  rw [bind_run, takeChanged_run]
  rfl

theorem products_run (paths : List String) (b : Bool) :
    (paths.foldlM (fun missing path => do
      let there ← recordProduct path
      return missing || !there) b : Build Bool) host ⟨bench, some c⟩ =
      .ok (b || paths.any (!bench.disk.exists? ·))
        ⟨bench, some (noteThere bench.disk targetConsumer c paths)⟩ := by
  induction paths generalizing b c with
  | nil => simp [noteThere]; rfl
  | cons path rest ih =>
    rw [List.foldlM_cons, bind_run, bind_run, recordProduct_run]
    simp only [pure_run, ih, List.any_cons, Bool.or_assoc]
    rfl

/-- The check before a run never fails and leaves the bench alone. -/
theorem isStale_run (step : PlanStep) (ctx : Context) (produces : List Declared) (host : Host)
    (session : Session) :
    isStale step ctx produces host session =
      let examined := step.examine ctx produces session.bench.disk session.cache
      .ok examined.1 { session with cache := examined.2 } := by
  obtain ⟨bench, cache⟩ := session
  unfold isStale
  rw [bind_run, get_run]
  cases cache with
  | none => rfl
  | some c =>
    dsimp only
    rw [bind_run, takes_run]
    dsimp only
    rw [Bool.false_or, bind_run]
    erw [products_run]
    rw [Bool.false_or]
    rfl

end Build
end Toolflow
