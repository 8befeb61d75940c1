import Mathlib.Data.List.Induction
import Toolflow.Proofs.Copying
import Toolflow.Proofs.Journal

/-! A build that follows a build.

A step is warm if the check before a run finds nothing to do for it. It is warm once it has come to
its end, whether it ran or was passed over, and the steps behind it keep it so: they touch none of
its takes, and what they do to the records of its stage only repeats what stands at its paths. A
build of warm steps runs none of them. -/
namespace Toolflow

open Fingerprints Build

/-- None of a step's takes is an output of the other. -/
def PlanStep.Ignores (step other : PlanStep) : Prop :=
  ∀ path ∈ step.takePaths, path ∉ other.outputPaths

instance (step other : PlanStep) : Decidable (step.Ignores other) :=
  inferInstanceAs (Decidable (∀ path ∈ step.takePaths, path ∉ other.outputPaths))

/-- No step writes what it takes or what a step in front of it takes. -/
structure Plan.FlowsOn (plan : Plan) : Prop where
  apart : ∀ step ∈ plan.steps, step.Ignores step
  onward : plan.steps.Pairwise PlanStep.Ignores

namespace Attempt

/-- Of the given paths an attempt has changed only outputs of its step, and it has deleted none. -/
structure Adds (paths : List String) (a : Attempt) : Prop where
  cwd : a.after.cwd = a.before.cwd
  kept : ∀ path ∈ paths, path ∉ a.step.outputPaths →
    a.after.contentAt path = a.before.contentAt path
  there : ∀ path ∈ paths, a.before.exists? path = true → a.after.exists? path = true

/-- Every path of a required take that was bound was there. -/
def Fed (flow : Flow) (a : Attempt) : Prop :=
  ∀ stage, flow.stages.get? a.step.stage = some stage → ∀ d ∈ stage.io.takes,
    d.isRequired = true → ∀ v, a.ctx.takes.get? d.name = some v →
      ∀ path ∈ v.strings, a.before.exists? path = true

/-- A successful run leaves a trace: some path it took was there, or some product was afterwards. -/
def LeavesTrace (flow : Flow) (a : Attempt) : Prop :=
  a.fate = .succeeded → ∀ stage, flow.stages.get? a.step.stage = some stage →
    (∃ take v path, a.ctx.takes.get? take = some v ∧ path ∈ v.strings ∧
      a.before.exists? path = true) ∨
    ∃ path ∈ a.step.productPaths stage.io.produces, a.after.exists? path = true

/-- An attempt as a build that is to be warm afterwards needs it. -/
structure Tidy (flow : Flow) (paths : List String) (a : Attempt) : Prop where
  adds : a.Adds paths
  fed : a.Fed flow
  leavesTrace : a.LeavesTrace flow

end Attempt

/-- The check before a run finds nothing to do for a step. -/
def Warm (flow : Flow) (disk : Disk) (c : Fingerprints) (step : PlanStep) : Prop :=
  ∃ stage ctx, Reached flow step disk stage ctx ∧
    (step.examine ctx stage.io.produces disk (some c)).1 = false

section
variable {flow : Flow} {step : PlanStep} {disk other : Disk} {stage : Stage} {ctx : Context}

/-- A disk that holds the same at the takes gives a step the same context. -/
theorem Reached.congr (h : Reached flow step disk stage ctx) (cwd : other.cwd = disk.cwd)
    (kept : ∀ path ∈ step.takePaths, other.contentAt path = disk.contentAt path) :
    Reached flow step other stage ctx := by
  refine ⟨h.known, Context.build_congr h.built cwd fun name =>
    Context.takeOn_congr fun d planned _ hplanned _ => ?_⟩
  rw [Disk.holds_congr fun path hpath => Disk.exists?_congr (kept path ?_)]
  exact PlanStep.mem_takePaths.mpr ⟨name, planned, Table.mem_of_get? hplanned, Or.inr hpath⟩

end

/-- A look calls for no run: the path is there as it was recorded, or it is passed by. -/
def Fingerprints.Passes (c : Fingerprints) (disk : Disk) (consumer : String)
    (look : String × Bool) : Prop :=
  c.visits consumer look = true → c.differs disk consumer look.1 = false

/-- What a step that has come to its end leaves in the records: its stage is known, no other stage
has been lost, and the paths it looked at are recorded as they were found, outputs apart. -/
structure Renews (step : PlanStep) (ctx : Context) (disk : Disk) (c after : Fingerprints) :
    Prop where
  orderly : after.Orderly
  known : after.hasConsumer step.stage = true
  spared : ∀ consumer, c.hasConsumer consumer = true → after.hasConsumer consumer = true
  records : ∀ path consumer, path ∉ step.outputPaths →
    after.record? path consumer =
      if consumer = step.stage ∧ ((path, true) ∈ step.looks ctx ∨
          (path, false) ∈ step.looks ctx ∧ (c.record? path consumer).isSome) then
        (disk.contentAt path).print?
      else c.record? path consumer

section
variable {flow : Flow} {step : PlanStep} {r : Reporter} {host : Host} {report next : BuildReport}
  {bench : Bench} {after : Session} {c : Fingerprints} {paths : List String} {a : Attempt}

/-- The check of a step renews the records, and so do notes of its outputs that follow it. -/
theorem Renews.of_examine {ctx : Context} {produces : List Declared} {disk : Disk}
    (orderly : c.Orderly) {swept : Fingerprints}
    (hswept : (step.examine ctx produces disk (some c)).2 = some swept) (ran : Disk)
    (noted : List String) (outputs : ∀ path ∈ noted, path ∈ step.outputPaths)
    (known : (noteThere ran step.stage swept noted).hasConsumer step.stage = true) :
    Renews step ctx disk c (noteThere ran step.stage swept noted) := by
  obtain ⟨found, hfound, horderly, hrecords⟩ := PlanStep.record?_examine step ctx produces disk c
  cases hswept.symm.trans hfound
  have hnoted := orderly_noteThere (horderly orderly) ran step.stage noted
  refine ⟨hnoted, known, fun consumer hconsumer => ?_, fun path consumer hout => ?_⟩
  · by_cases hstage : consumer = step.stage
    · exact hstage ▸ known
    · refine hasConsumer_of_tracked orderly hnoted (fun path hpath => ?_) hconsumer
      rw [record?_noteThere, if_neg fun hown => hstage hown.1, hrecords]
      split
      · rename_i hmade
        exact Disk.print?_isSome hmade.2.2
      · rwa [if_neg fun hown => hstage hown.1]
  · rw [record?_noteThere, if_neg fun hown => hout (outputs path hown.2.1), hrecords,
      if_neg fun hmade => hout (mandatoryPaths_subset hmade.2.1)]

/-- A stage is known after a check that finds nothing to do. -/
theorem known_of_fresh {ctx : Context} {produces : List Declared} {disk : Disk}
    (orderly : c.Orderly) (fresh : (step.examine ctx produces disk (some c)).1 = false)
    {swept : Fingerprints} (hswept : (step.examine ctx produces disk (some c)).2 = some swept) :
    swept.hasConsumer step.stage = true := by
  obtain ⟨known, -⟩ := PlanStep.examine_eq_false_iff.mp fresh
  obtain ⟨found, hfound, horderly, hsame⟩ := PlanStep.record?_examine_fresh fresh
  cases hswept.symm.trans hfound
  refine hasConsumer_of_tracked orderly (horderly orderly) (fun path hpath => ?_) known
  rw [hsame]
  split
  · rename_i hnoted
    exact Disk.print?_isSome hnoted.2.2
  · exact hpath

/-- A stage is known after a run that leaves a trace. -/
theorem known_of_trace {ctx : Context} {produces : List Declared} {disk : Disk}
    (orderly : c.Orderly) {swept : Fingerprints}
    (hswept : (step.examine ctx produces disk (some c)).2 = some swept) {ran : Disk}
    {noted : List String}
    (trace : (∃ path, (path, true) ∈ step.looks ctx ∧ disk.exists? path = true) ∨
      ∃ path ∈ noted, ran.exists? path = true) :
    (noteThere ran step.stage swept noted).hasConsumer step.stage = true := by
  obtain ⟨found, hfound, horderly, hrecords⟩ := PlanStep.record?_examine step ctx produces disk c
  cases hswept.symm.trans hfound
  refine (hasConsumer_iff (orderly_noteThere (horderly orderly) ran step.stage noted) _).mpr ?_
  rcases trace with ⟨path, hlook, hthere⟩ | ⟨path, hpath, hthere⟩
  · refine ⟨path, ?_⟩
    rw [record?_noteThere]
    split
    · rename_i hproduct
      exact Disk.print?_isSome hproduct.2.2
    · rw [hrecords]
      split
      · exact Disk.print?_isSome hthere
      · rw [if_pos ⟨rfl, Or.inl hlook⟩]
        exact Disk.print?_isSome hthere
  · refine ⟨path, ?_⟩
    rw [record?_noteThere, if_pos ⟨rfl, hpath, hthere⟩]
    exact Disk.print?_isSome hthere

/-- A step that comes to its end renews the records, and what it has to write is there. -/
theorem runStep_renews (orderly : c.Orderly)
    (run : runStep flow r report step host ⟨bench, some c⟩ = .ok next after)
    (tidy : ∀ a, attempt? flow step report ⟨bench, some c⟩
      (runStep flow r report step host ⟨bench, some c⟩) = some a → a.Tidy flow paths) :
    ∃ stage ctx records fate, Reached flow step bench.disk stage ctx ∧
      after.cache = some records ∧ Renews step ctx bench.disk c records ∧
      (∀ path ∈ step.mandatoryPaths stage.io.produces, after.bench.disk.exists? path = true) ∧
      Attempt.Tidy flow paths ⟨step, ctx, bench.disk, after.bench.disk, fate⟩ := by
  have hcases := runStep_cases flow r report step host ⟨bench, some c⟩
  rw [run] at hcases tidy
  cases hcases with
  | skipped stage ctx ended reached fresh kept =>
    obtain ⟨-, -, mandatory⟩ := PlanStep.examine_eq_false_iff.mp fresh
    obtain ⟨swept, hswept, -⟩ := PlanStep.record?_examine_fresh fresh
    refine ⟨stage, ctx, swept, _, reached, hswept, ?_, fun path hpath => ?_,
      tidy _ (attempt?_of_reached reached report _)⟩
    · exact Renews.of_examine orderly hswept bench.disk [] (by simp)
        (known_of_fresh orderly fresh hswept)
    · rw [show ended.disk = bench.disk from kept]
      exact mandatory path hpath
  | succeeded stage ctx ran ended reached stale hran complete kept =>
    have htidy := tidy _ (attempt?_of_reached reached report _)
    obtain ⟨swept, hswept, -⟩ :=
      PlanStep.record?_examine step ctx stage.io.produces bench.disk c
    have htrace : (∃ path, (path, true) ∈ step.looks ctx ∧ bench.disk.exists? path = true) ∨
        ∃ path ∈ step.productPaths stage.io.produces, ran.disk.exists? path = true := by
      rcases htidy.leavesTrace (by simp [fate]) stage reached.known with
        ⟨take, v, path, hv, hpath, hthere⟩ | ⟨path, hpath, hthere⟩
      · obtain ⟨-, -, -, ⟨planned, hmem, -⟩, -⟩ := reached.take_bound hv
        have hlook := PlanStep.mem_looks_bound.mpr ⟨take, planned, v, hmem, hv, hpath⟩
        exact Or.inl ⟨path, hlook, hthere⟩
      · exact Or.inr ⟨path, hpath, kept ▸ hthere⟩
    refine ⟨stage, ctx, _, _, reached, by rw [hswept, Option.map_some], ?_, fun path hpath => ?_,
      htidy⟩
    · exact Renews.of_examine orderly hswept ran.disk _ (fun _ => productPaths_subset)
        (known_of_trace orderly hswept htrace)
    · rw [kept]
      exact complete path hpath

/-- What a step looks at passes once it has come to its end, and what passed before still does. -/
theorem Renews.passes {ctx : Context} {disk other : Disk} {records : Fingerprints}
    (renews : Renews step ctx disk c records)
    (there : ∀ path, (path, true) ∈ step.looks ctx → disk.exists? path = true) {consumer : String}
    {look : String × Bool} (hout : look.1 ∉ step.outputPaths)
    (same : other.contentAt look.1 = disk.contentAt look.1)
    (h : c.Passes disk consumer look ∨ consumer = step.stage ∧ look ∈ step.looks ctx) :
    records.Passes other consumer look := by
  intro hvisit
  obtain ⟨path, isBound⟩ := look
  have hrecord := renews.records path consumer hout
  rw [differs_eq_false_iff, same]
  split at hrecord
  · refine ⟨?_, hrecord⟩
    cases isBound with
    | true =>
      rcases h with h | ⟨-, hlook⟩
      · exact (differs_eq_false_iff.mp (h rfl)).1
      · exact (disk.exists?_iff path).mp (there path hlook)
    | false =>
      have hsome : (records.record? path consumer).isSome = true := hvisit
      rw [hrecord, Option.isSome_iff_ne_none, ne_eq, Content.print?_eq_none_iff] at hsome
      exact hsome
  · rename_i hlooked
    rcases h with h | ⟨hstage, hlook⟩
    · have hold : c.visits consumer (path, isBound) = true := by
        unfold visits at hvisit ⊢
        rwa [hrecord] at hvisit
      rw [hrecord]
      exact differs_eq_false_iff.mp (h hold)
    · cases isBound with
      | true => exact absurd ⟨hstage, Or.inl hlook⟩ hlooked
      | false =>
        have hsome : (records.record? path consumer).isSome = true := hvisit
        rw [hrecord] at hsome
        exact absurd ⟨hstage, Or.inr ⟨hlook, hsome⟩⟩ hlooked

end

section
variable {flow : Flow} {plan : Plan} {r : Reporter} {host : Host} {report next : BuildReport}
  {bench : Bench} {session after : Session} {c : Fingerprints}

theorem Plan.FlowsOn.ignores (flows : plan.FlowsOn) {before rest : List PlanStep}
    {step : PlanStep} (order : plan.steps = before ++ step :: rest) :
    ∀ earlier ∈ before ++ [step], earlier.Ignores step := by
  have honward := flows.onward
  rw [order, List.pairwise_append] at honward
  refine List.forall_mem_append.mpr ⟨fun earlier hearlier => ?_, List.forall_mem_singleton.mpr ?_⟩
  · exact honward.2.2 earlier hearlier step List.mem_cons_self
  · exact flows.apart step (by simp [order])

/-- The steps up to one that has come to its end are warm, if those in front of it were. -/
theorem warm_step (flows : plan.FlowsOn) {before rest : List PlanStep} {step : PlanStep}
    (order : plan.steps = before ++ step :: rest) (orderly : c.Orderly)
    (run : runStep flow r report step host ⟨bench, some c⟩ = .ok next after)
    (tidy : ∀ a, attempt? flow step report ⟨bench, some c⟩
      (runStep flow r report step host ⟨bench, some c⟩) = some a → a.Tidy flow plan.touched)
    (warm : ∀ earlier ∈ before, Warm flow bench.disk c earlier) :
    ∃ records, after.cache = some records ∧ records.Orderly ∧
      ∀ earlier ∈ before ++ [step], Warm flow after.bench.disk records earlier := by
  have hsteps : ∀ earlier ∈ before ++ [step], earlier ∈ plan.steps := by
    intro earlier hearlier
    rw [order, List.append_cons]
    exact List.mem_append_left _ hearlier
  have hstep : step ∈ plan.steps := hsteps step (by simp)
  obtain ⟨stage, ctx, records, fate, reached, hcache, renews, complete, htidy⟩ :=
    runStep_renews orderly run tidy
  have hthere : ∀ path, (path, true) ∈ step.looks ctx → bench.disk.exists? path = true := by
    intro path hlook
    obtain ⟨take, -, v, -, hv, hpath⟩ := PlanStep.mem_looks_bound.mp hlook
    obtain ⟨d, hd, rfl, -, hrequired | hall⟩ := reached.take_bound hv
    · exact htidy.fed stage reached.known d hd hrequired v hv path hpath
    · exact hall path hpath
  have hignores := flows.ignores order
  have hkept : ∀ earlier ∈ before ++ [step], ∀ path ∈ earlier.takePaths,
      after.bench.disk.contentAt path = bench.disk.contentAt path :=
    fun earlier hearlier path hpath =>
      htidy.adds.kept path (plan.mem_touched (hsteps earlier hearlier) (Or.inl hpath))
        (hignores earlier hearlier path hpath)
  refine ⟨records, hcache, renews.orderly, fun earlier hearlier => ?_⟩
  have hpasses : ∀ stage octx, Reached flow earlier bench.disk stage octx →
      ∀ look ∈ earlier.looks octx,
        c.Passes bench.disk earlier.stage look ∨
          earlier.stage = step.stage ∧ look ∈ step.looks ctx →
        records.Passes after.bench.disk earlier.stage look := by
    intro stage octx oreached look hlook
    have hmem := oreached.look_mem hlook
    exact renews.passes hthere (hignores earlier hearlier look.1 hmem)
      (hkept earlier hearlier look.1 hmem)
  rcases List.mem_append.mp hearlier with hbefore | hlast
  · obtain ⟨found, octx, oreached, fresh⟩ := warm earlier hbefore
    obtain ⟨hknown, hpassed, hmandatory⟩ := PlanStep.examine_eq_false_iff.mp fresh
    refine ⟨found, octx, oreached.congr htidy.adds.cwd (hkept earlier hearlier),
      PlanStep.examine_eq_false_iff.mpr ⟨?_, fun look hlook => ?_, fun path hpath => ?_⟩⟩
    · exact renews.spared _ hknown
    · exact hpasses found octx oreached look hlook (Or.inl (hpassed look hlook))
    · exact htidy.adds.there path (plan.mem_touched (hsteps earlier hearlier)
        (Or.inr (mandatoryPaths_subset hpath))) (hmandatory path hpath)
  · cases List.mem_singleton.mp hlast
    exact ⟨stage, ctx, reached.congr htidy.adds.cwd (hkept step hearlier),
      PlanStep.examine_eq_false_iff.mpr ⟨renews.known,
        fun look hlook => hpasses stage ctx reached look hlook (Or.inr ⟨rfl, hlook⟩), complete⟩⟩

/-- All steps that have come to their end are warm. -/
theorem warm_steps (flows : plan.FlowsOn) {before rest : List PlanStep}
    (order : plan.steps = before ++ rest) (orderly : c.Orderly)
    (run : before.foldlM (runStep flow r) {} host ⟨bench, some c⟩ = .ok next after)
    (tidy : ∀ a ∈ trail flow r host before {} ⟨bench, some c⟩, a.Tidy flow plan.touched) :
    ∃ records, after.cache = some records ∧ records.Orderly ∧
      ∀ step ∈ before, Warm flow after.bench.disk records step := by
  induction before using List.reverseRecOn generalizing rest next after with
  | nil =>
    cases run
    exact ⟨c, rfl, orderly, by simp⟩
  | append_singleton before step ih =>
    rw [List.append_assoc] at order
    cases hbefore : before.foldlM (runStep flow r) {} host ⟨bench, some c⟩ with
    | error cause failed =>
      rw [List.foldlM_append, bind_run, hbefore] at run
      cases run
    | ok report session =>
      rw [foldlM_snoc_run hbefore] at run
      rw [trail_snoc hbefore] at tidy
      obtain ⟨records, hcache, horderly, hwarm⟩ := ih order hbefore
        fun a ha => tidy a (List.mem_append_right _ ha)
      obtain ⟨present, cache⟩ := session
      cases hcache
      exact warm_step flows order horderly run
        (fun a ha => tidy a (List.mem_append_left _ (Option.mem_toList.mpr ha))) hwarm

/-- A step stays warm if the records of its stage are kept, or renewed to what stands at their
paths. -/
theorem Warm.renewed {disk : Disk} {step : PlanStep} {records : Fingerprints}
    (warm : Warm flow disk c step) (orderly : c.Orderly) (horderly : records.Orderly)
    (renewed : ∀ path, records.record? path step.stage = c.record? path step.stage ∨
      disk.exists? path = true ∧
        records.record? path step.stage = (disk.contentAt path).print?) :
    Warm flow disk records step := by
  obtain ⟨stage, ctx, reached, fresh⟩ := warm
  obtain ⟨hknown, hpasses, hmandatory⟩ := PlanStep.examine_eq_false_iff.mp fresh
  have htracked : ∀ path, (c.record? path step.stage).isSome = true →
      (records.record? path step.stage).isSome = true := by
    intro path hpath
    rcases renewed path with hsame | ⟨hthere, hprint⟩
    · rwa [hsame]
    · rw [hprint]
      exact Disk.print?_isSome hthere
  refine ⟨stage, ctx, reached, PlanStep.examine_eq_false_iff.mpr
    ⟨hasConsumer_of_tracked orderly horderly htracked hknown, fun look hlook hvisit => ?_,
      hmandatory⟩⟩
  rcases renewed look.1 with hsame | ⟨hthere, hprint⟩
  · have hold : c.visits step.stage look = true := by
      unfold visits at hvisit ⊢
      rwa [hsame] at hvisit
    have hpass := hpasses look hlook hold
    unfold differs at hpass ⊢
    rwa [hsame]
  · exact differs_eq_false_iff.mpr ⟨(disk.exists?_iff _).mp hthere, hprint⟩

/-- A warm step is passed over, and the check leaves the others warm. -/
theorem Warm.skip {step : PlanStep} (warm : Warm flow bench.disk c step) (orderly : c.Orderly)
    (r : Reporter) (host : Host) (report : BuildReport) :
    ∃ obench records, runStep flow r report step host ⟨bench, some c⟩ =
        .ok { report with skipped := report.skipped ++ [step.stage] } ⟨obench, some records⟩ ∧
      obench.disk = bench.disk ∧ records.Orderly ∧
      ∀ other, other.stage ≠ targetConsumer → Warm flow bench.disk c other →
        Warm flow bench.disk records other := by
  obtain ⟨stage, ctx, reached, fresh⟩ := warm
  have hfresh : ∀ {found octx}, Reached flow step bench.disk found octx →
      (step.examine octx found.io.produces bench.disk (some c)).1 = false := by
    intro found octx oreached
    obtain ⟨rfl, rfl⟩ := reached.unique oreached
    exact fresh
  have hcases := runStep_cases flow r report step host ⟨bench, some c⟩
  generalize runStep flow r report step host ⟨bench, some c⟩ = result at hcases ⊢
  cases hcases with
  | unbuilt cause unreached => exact absurd reached (unreached stage ctx)
  | skipped found octx obench oreached ofresh kept =>
    obtain ⟨records, hcache, horderly, hsame⟩ := PlanStep.examine_fresh ofresh
    refine ⟨obench, records, by rw [hcache], kept, horderly orderly, fun other hother hwarm => ?_⟩
    exact hwarm.renewed orderly (horderly orderly) fun path => Or.inl (hsame path _ hother)
  | failed found octx obench cause oreached stale ran =>
    cases stale.symm.trans (hfresh oreached)
  | incomplete found octx obench product path noted oreached stale ran planned strict gone =>
    cases stale.symm.trans (hfresh oreached)
  | succeeded found octx obench ended oreached stale ran complete kept =>
    cases stale.symm.trans (hfresh oreached)

/-- Warm steps are all passed over. -/
theorem skip_warm {steps : List PlanStep}
    (notTarget : ∀ step ∈ steps, step.stage ≠ targetConsumer) (orderly : c.Orderly)
    (warm : ∀ step ∈ steps, Warm flow bench.disk c step) (r : Reporter) (host : Host)
    (report : BuildReport) :
    ∃ after, steps.foldlM (runStep flow r) report host ⟨bench, some c⟩ =
      .ok { report with skipped := report.skipped ++ steps.map PlanStep.stage } after ∧
        after.bench.disk = bench.disk := by
  induction steps generalizing bench c report with
  | nil => exact ⟨_, by simp; rfl, rfl⟩
  | cons step rest ih =>
    obtain ⟨hstep, hrest⟩ := List.forall_mem_cons.mp warm
    obtain ⟨obench, records, hrun, hdisk, horderly, hkept⟩ := hstep.skip orderly r host report
    obtain ⟨after, hfold, hafter⟩ :=
      ih (fun s hs => notTarget s (List.mem_cons_of_mem _ hs)) horderly
        (fun s hs => hdisk ▸ hkept s (notTarget s (List.mem_cons_of_mem _ hs)) (hrest s hs))
        { report with skipped := report.skipped ++ [step.stage] }
    refine ⟨after, ?_, hafter.trans hdisk⟩
    rw [foldlM_cons_run, hrun]
    simpa using hfold

/-- A build that succeeds leaves all steps of its plan warm. -/
theorem warm_of_runPlan {report : BuildReport} (flows : plan.FlowsOn) (orderly : c.Orderly)
    (run : runPlan flow plan r host ⟨bench, some c⟩ = .ok report after)
    (tidy : ∀ a ∈ trail flow r host plan.steps {} ⟨bench, some c⟩, a.Tidy flow plan.touched) :
    ∃ records, after.cache = some records ∧ records.Orderly ∧
      ∀ step ∈ plan.steps, Warm flow after.bench.disk records step := by
  rcases runPlan_cases flow plan r host ⟨bench, some c⟩ with
    ⟨_, _, -, hrun⟩ | ⟨_, _, -, -, hrun⟩ | ⟨_, ended, target, last, hsteps, -, hdisk, hrun⟩
  · cases run.symm.trans hrun
  · cases run.symm.trans hrun
  · cases run.symm.trans hrun
    obtain ⟨records, hcache, horderly, hwarm⟩ :=
      warm_steps flows (List.append_nil _).symm orderly hsteps tidy
    have hnoted := orderly_noteThere horderly ended.bench.disk targetConsumer target.strings
    refine ⟨_, by rw [hcache, Option.map_some], hnoted, fun step hstep => ?_⟩
    rw [show (⟨last, _⟩ : Session).bench.disk = ended.bench.disk from hdisk]
    -- The files of the target are noted as they are, which a stage of that name may look at.
    refine (hwarm step hstep).renewed horderly hnoted fun path => ?_
    rw [record?_noteThere]
    split
    · rename_i htarget
      exact Or.inr ⟨htarget.2.2, rfl⟩
    · exact Or.inl rfl

end

/-- Building again what has been built, without having touched anything, runs no stage. -/
theorem warm_rerun_skips {flow : Flow} {plan : Plan} {r or : Reporter} {host ohost : Host}
    {bench obench : Bench} {c : Fingerprints} {report : BuildReport} {after : Session}
    (orderly : c.Orderly) (notTarget : ∀ step ∈ plan.steps, step.stage ≠ targetConsumer)
    (flows : plan.FlowsOn)
    (run : runPlan flow plan r host ⟨bench, some c⟩ = .ok report after)
    (tidy : ∀ a ∈ trail flow r host plan.steps {} ⟨bench, some c⟩, a.Tidy flow plan.touched)
    (same : obench.disk = after.bench.disk) :
    ∃ final, runPlan flow plan or ohost ⟨obench, after.cache⟩ =
        .ok { executed := [], skipped := plan.steps.map PlanStep.stage } final ∧
      final.bench.disk = after.bench.disk := by
  obtain ⟨records, hcache, horderly, hwarm⟩ := warm_of_runPlan flows orderly run tidy
  obtain ⟨final, hskips, hfinal⟩ := skip_warm notTarget horderly (same ▸ hwarm) or ohost {}
  rw [hcache]
  rcases runPlan_cases flow plan or ohost ⟨obench, some records⟩ with
    ⟨_, _, hfails, -⟩ | ⟨_, _, -, hnone, -⟩ | ⟨_, _, _, _, hagain, -, hlast, hrun⟩
  · cases hskips.symm.trans hfails
  · rcases runPlan_cases flow plan r host ⟨bench, some c⟩ with
      ⟨_, _, -, hfirst⟩ | ⟨_, _, -, -, hfirst⟩ | ⟨_, _, _, _, -, htarget, -⟩
    · cases run.symm.trans hfirst
    · cases run.symm.trans hfirst
    · cases htarget.symm.trans hnone
  · cases hskips.symm.trans hagain
    exact ⟨_, hrun, hlast.trans (hfinal.trans same)⟩

/-- A test for tidy attempts that leave some product. -/
def Attempt.isTidy (flow : Flow) (paths : List String) (a : Attempt) : Bool :=
  a.after.cwd = a.before.cwd &&
  (paths.all fun path =>
    (path ∈ a.step.outputPaths ∨ a.after.contentAt path = a.before.contentAt path) &&
    (a.before.exists? path = false ∨ a.after.exists? path = true)) &&
  (flow.stages.get? a.step.stage).all fun stage =>
    (stage.io.takes.all fun d => (a.ctx.takes.get? d.name).all fun v =>
      v.strings.all a.before.exists?) &&
    (a.step.productPaths stage.io.produces).any a.after.exists?

theorem Attempt.tidy_of_isTidy {flow : Flow} {paths : List String} {a : Attempt}
    (h : a.isTidy flow paths = true) : a.Tidy flow paths := by
  simp only [isTidy, Bool.and_eq_true, decide_eq_true_eq, List.all_eq_true, Option.all_eq_true,
    List.any_eq_true] at h
  obtain ⟨⟨hcwd, hpaths⟩, hstage⟩ := h
  refine ⟨⟨hcwd, fun path hpath hout => (hpaths path hpath).1.resolve_left hout,
    fun path hpath hthere => ?_⟩, fun stage hknown d hd _ v hv => (hstage stage hknown).1 d hd v hv,
    fun _ stage hknown => Or.inr (hstage stage hknown).2⟩
  refine (hpaths path hpath).2.resolve_left fun hgone => ?_
  cases hthere.symm.trans hgone

/-- What the relay has copied is not copied again. -/
theorem relay_warm_rerun_skips :
    ∃ plan after final, Relay.flow.plan "out" none Relay.disk = .ok plan ∧
      runPlan Relay.flow plan Relay.silent Relay.host ⟨⟨Relay.disk, "", 0⟩, some (.empty "c")⟩ =
        .ok { executed := ["first", "second"] } after ∧
      runPlan Relay.flow plan Relay.silent Relay.host after =
        .ok { skipped := ["first", "second"] } final := by
  have hchecks : okAnd (Relay.flow.plan "out" none Relay.disk) (fun plan =>
      plan.steps.map PlanStep.stage = ["first", "second"] &&
      (plan.steps.all fun step => step.stage ≠ targetConsumer ∧ step.Ignores step) &&
      plan.steps.Pairwise PlanStep.Ignores &&
      ((trail Relay.flow Relay.silent Relay.host plan.steps {}
        ⟨⟨Relay.disk, "", 0⟩, some (.empty "c")⟩).all (·.isTidy Relay.flow plan.touched)) &&
      doneAnd (runPlan Relay.flow plan Relay.silent Relay.host
        ⟨⟨Relay.disk, "", 0⟩, some (.empty "c")⟩) fun report _ =>
          report = { executed := ["first", "second"] }) = true := by
    decide +kernel
  obtain ⟨plan, hplan, hchecks⟩ := exists_of_okAnd hchecks
  simp only [Bool.and_eq_true, decide_eq_true_eq, List.all_eq_true] at hchecks
  obtain ⟨⟨⟨⟨hstages, hsteps⟩, honward⟩, htidy⟩, hrun⟩ := hchecks
  obtain ⟨report, after, hrun, hreport⟩ := exists_of_doneAnd hrun
  obtain ⟨final, hagain, -⟩ := warm_rerun_skips (orderly_empty "c")
    (fun step h => (hsteps step h).1)
    ⟨fun step h => (hsteps step h).2, honward⟩ hrun
    (fun a ha => Attempt.tidy_of_isTidy (htidy a ha)) rfl
  rw [of_decide_eq_true hreport] at hrun
  rw [hstages] at hagain
  exact ⟨plan, after, final, hplan, hrun, hagain⟩

end Toolflow
