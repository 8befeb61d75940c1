import Toolflow.Proofs.Predictions
import Toolflow.Proofs.WarmBuilds

/-! Planning again after a build.

On the disk that a build leaves, planning takes the same turns as before as long as the stages are
given contexts with the outputs they were planned with: only the predictions may differ. A step that
has come to its end is expected to be skipped then, unless planning reads something of it that its
context does not show: a path that is planned but not bound for a take, or an output that has to be
written and names no path. -/
namespace Toolflow

open Fingerprints Build

/-- A step without its prediction. -/
def PlanStep.unpredicted (step : PlanStep) : PlanStep := { step with required := false }

namespace Planning
variable {p q : Planning}

/-- A state of planning without its predictions. -/
def unpredicted (p : Planning) : Planning :=
  { p with steps := p.steps.map PlanStep.unpredicted, rebuilt := .empty }

/-- Such states differ in the predictions of their steps and in what is to be rebuilt. -/
theorem exists_of_unpredicted_eq (h : q.unpredicted = p.unpredicted) :
    ∃ steps rebuilt, q = { p with steps, rebuilt } ∧
      steps.map PlanStep.unpredicted = p.steps.map PlanStep.unpredicted := by
  obtain ⟨producers, paths, pathEnv, steps, planned, missing, unmapped, rebuilt⟩ := q
  simp only [unpredicted, Planning.mk.injEq] at h
  obtain ⟨rfl, rfl, rfl, hsteps, rfl, rfl, rfl, -⟩ := h
  exact ⟨steps, rebuilt, rfl, hsteps⟩

theorem unpredicted_bindProducts (cwd : String) (outputs : Bindings) (l : List Declared)
    (p : Planning) : (l.foldl (bindProduct cwd outputs) p).unpredicted =
      l.foldl (bindProduct cwd outputs) p.unpredicted := by
  induction l generalizing p with
  | nil => rfl
  | cons d rest ih =>
    rw [List.foldl_cons, List.foldl_cons, ih]
    congr 1
    unfold bindProduct
    cases outputs.get? d.name <;> rfl

theorem bindProduct_congr (cwd : String) {outputs others : Bindings}
    (h : ∀ name, others.get? name = outputs.get? name) :
    bindProduct cwd others = bindProduct cwd outputs := by
  funext p d
  unfold bindProduct
  rw [h]

end Planning

namespace PlanSources
variable {s : PlanSources} {p q after : Planning} {stage : Stage}

/-- Planning with other records and on another disk. -/
def anew (s : PlanSources) (cache : Option Fingerprints) (disk : Disk) : PlanSources :=
  { s with cache, disk }

/-- A step can be planned again: a context on the disk gives it the outputs it is planned with. -/
def Rebinds (s : PlanSources) (disk : Disk) (step : PlanStep) : Prop :=
  ∃ stage ctx, Reached s.flow step disk stage ctx ∧ ctx.outputs.bound = step.outputs

/-- What adding a step does, predictions apart. -/
theorem unpredicted_afterStep (s : PlanSources) (p : Planning) (stage : Stage) (ctx : Context) :
    (s.afterStep p stage ctx).unpredicted =
      { stage.io.produces.foldl (Planning.bindProduct s.disk.cwd ctx.outputs) p.unpredicted with
        steps := p.unpredicted.steps ++ [(s.stepOf p stage ctx).unpredicted]
        planned := p.planned.add stage.name
        rebuilt := .empty } := by
  rw [← Planning.unpredicted_bindProducts]
  unfold afterStep Planning.unpredicted
  simp only [List.map_append, List.map_cons, List.map_nil]

variable {disk : Disk} (cache : Option Fingerprints)

theorem addStep_again (known : s.flow.stages.get? stage.name = some stage)
    (cwd : disk.cwd = s.disk.cwd) (hpq : q.unpredicted = p.unpredicted)
    (h : s.addStep p stage = .ok after) (rebinds : ∀ step ∈ after.steps, s.Rebinds disk step) :
    ∃ again, (s.anew cache disk).addStep q stage = .ok again ∧
      again.unpredicted = after.unpredicted := by
  obtain ⟨ctx, hbuilt, rfl⟩ := addStep_eq_ok_iff.mp h
  obtain ⟨found, octx, reached, houtputs⟩ := rebinds (s.stepOf p stage ctx)
    (List.mem_append_right _ (List.mem_singleton_self _))
  cases reached.known.symm.trans known
  obtain ⟨steps, rebuilt, rfl, -⟩ := Planning.exists_of_unpredicted_eq hpq
  have hget : ∀ name, octx.outputs.get? name = ctx.outputs.get? name := by
    intro name
    rw [← Bindings.get?_bound (Context.ascending_outputs reached.built), houtputs,
      ← Bindings.get?_bound (Context.ascending_outputs hbuilt)]
    rfl
  have hstep : ((s.anew cache disk).stepOf { p with steps, rebuilt } stage octx).unpredicted =
      (s.stepOf p stage ctx).unpredicted := by
    unfold stepOf PlanStep.unpredicted
    dsimp only
    rw [houtputs]
    rfl
  refine ⟨_, addStep_of_build reached.built, ?_⟩
  rw [unpredicted_afterStep, unpredicted_afterStep, hpq, Planning.bindProduct_congr _ hget,
    hstep, show (s.anew cache disk).disk.cwd = s.disk.cwd from cwd]

theorem unpredicted_source (cwd : disk.cwd = s.disk.cwd) (hpq : q.unpredicted = p.unpredicted)
    (dep : String) :
    ((s.anew cache disk).source q dep).unpredicted = (s.source p dep).unpredicted := by
  obtain ⟨steps, rebuilt, rfl, hsteps⟩ := Planning.exists_of_unpredicted_eq hpq
  unfold source
  dsimp only [anew]
  cases s.flow.dependencies.get? dep with
  | some v =>
    unfold Planning.bind Planning.unpredicted
    rw [cwd]
    simp only [hsteps]
  | none =>
    dsimp only
    split
    · exact hpq
    · unfold Planning.unpredicted
      simp only [hsteps]

/-- Meeting a dependency goes the same way again if planning its producer does. -/
theorem meet_again {planner oplanner : Planning → String → Except Failure Planning} {unmet : Fault}
    {required : Bool} {dep : String} (cwd : disk.cwd = s.disk.cwd)
    (hpq : q.unpredicted = p.unpredicted)
    (h : s.meet planner unmet required p dep = .ok after)
    (hplan : ∀ name, planner p name = .ok after →
      ∃ again, oplanner q name = .ok again ∧ again.unpredicted = after.unpredicted) :
    ∃ again, (s.anew cache disk).meet oplanner unmet required q dep = .ok again ∧
      again.unpredicted = after.unpredicted := by
  have hpaths : ∀ {again : Planning}, again.unpredicted = after.unpredicted →
      (required = true → again.paths.contains dep = true) := by
    intro again hsame
    rw [show again.paths = after.paths from (congrArg Planning.paths hsame :)]
    exact (meet_eq_ok_iff.mp h).1
  obtain ⟨steps, rebuilt, hq, -⟩ := Planning.exists_of_unpredicted_eq hpq
  obtain ⟨-, ⟨hmet, rfl⟩ | ⟨hunmet, ⟨name, hname, hafter⟩ | ⟨hnone, rfl⟩⟩⟩ := meet_eq_ok_iff.mp h
  · exact ⟨q, meet_eq_ok_iff.mpr ⟨hpaths hpq, Or.inl ⟨hq ▸ hmet, rfl⟩⟩, hpq⟩
  · obtain ⟨again, hagain, hsame⟩ := hplan name hafter
    exact ⟨again, meet_eq_ok_iff.mpr ⟨hpaths hsame,
      Or.inr ⟨hq ▸ hunmet, Or.inl ⟨name, hq ▸ hname, hagain⟩⟩⟩, hsame⟩
  · have hsame := unpredicted_source cache cwd hpq dep
    exact ⟨_, meet_eq_ok_iff.mpr ⟨hpaths hsame,
      Or.inr ⟨hq ▸ hunmet, Or.inr ⟨hq ▸ hnone, rfl⟩⟩⟩, hsame⟩

/-- Planning only adds steps. -/
theorem planStage_grows (named : s.flow.Named) {fuel : Nat} {visiting : List String}
    {name : String} (h : s.planStage fuel visiting p name = .ok after) : p.steps ⊆ after.steps := by
  induction fuel generalizing visiting p after name with
  | zero =>
    cases h
    exact List.Subset.refl _
  | succ fuel ih =>
    rcases planStage_cases named h with ⟨-, rfl⟩ | ⟨-, -, stage, met, rfl, -, hmet, hadd⟩
    · exact List.Subset.refl _
    · have hgrown : p.steps ⊆ met.steps := by
        refine foldlM_keeps (P := fun q : Planning => p.steps ⊆ q.steps)
          (fun take _ q next hq hnext => ?_) (List.Subset.refl _) hmet
        exact meet_keeps (P := fun q : Planning => p.steps ⊆ q.steps)
          (fun _ _ _ hq hplan => List.Subset.trans hq (ih hplan)) (fun _ _ hq _ => hq)
          (fun _ _ hq => hq) hq hnext
      obtain ⟨ctx, -, rfl⟩ := addStep_eq_ok_iff.mp hadd
      exact fun step hstep => List.mem_append_left _ (hgrown hstep)

/-- Meeting the takes of a stage goes the same way again if planning the producers does. -/
theorem meetAll_again {planner oplanner : Planning → String → Except Failure Planning}
    {unmet : Declared → Fault} {takes : List Declared} (cwd : disk.cwd = s.disk.cwd)
    (hpq : q.unpredicted = p.unpredicted)
    (h : takes.foldlM (fun p take => s.meet planner (unmet take) take.isRequired p take.name) p =
      .ok after)
    (grows : ∀ p name next, planner p name = .ok next → p.steps ⊆ next.steps)
    (hplan : ∀ p q name next, q.unpredicted = p.unpredicted → next.steps ⊆ after.steps →
      planner p name = .ok next →
        ∃ again, oplanner q name = .ok again ∧ again.unpredicted = next.unpredicted) :
    ∃ again, takes.foldlM (fun p take =>
        (s.anew cache disk).meet oplanner (unmet take) take.isRequired p take.name) q = .ok again ∧
      again.unpredicted = after.unpredicted := by
  induction takes generalizing p q with
  | nil =>
    cases h
    exact ⟨q, rfl, hpq⟩
  | cons take rest ih =>
    rw [List.foldlM_cons] at h
    obtain ⟨next, hnext, hrest⟩ := bind_eq_ok.mp h
    -- Only the steps of the whole are known to be given their outputs again, so those added so far
    -- have to be among them.
    have hsub : next.steps ⊆ after.steps := by
      refine foldlM_keeps (P := fun q : Planning => next.steps ⊆ q.steps)
        (fun take _ q last hq hlast => ?_) (List.Subset.refl _) hrest
      exact meet_keeps (P := fun q : Planning => next.steps ⊆ q.steps)
        (fun q name last hq hplan => List.Subset.trans hq (grows q name last hplan))
        (fun _ _ hq _ => hq) (fun _ _ hq => hq) hq hlast
    obtain ⟨mid, hmid, hsame⟩ := meet_again cache cwd hpq hnext
      (fun name => hplan p q name next hpq hsub)
    obtain ⟨again, hagain, hlast⟩ := ih hsame hrest
    refine ⟨again, ?_, hlast⟩
    rw [List.foldlM_cons]
    exact bind_eq_ok.mpr ⟨mid, hmid, hagain⟩

/-- Planning a stage goes the same way again if all of its steps can be planned again. -/
theorem planStage_again (named : s.flow.Named) (cwd : disk.cwd = s.disk.cwd) {fuel : Nat}
    {visiting : List String} {name : String} (hpq : q.unpredicted = p.unpredicted)
    (h : s.planStage fuel visiting p name = .ok after)
    (rebinds : ∀ step ∈ after.steps, s.Rebinds disk step) :
    ∃ again, (s.anew cache disk).planStage fuel visiting q name = .ok again ∧
      again.unpredicted = after.unpredicted := by
  induction fuel generalizing visiting p q after name with
  | zero =>
    cases h
    exact ⟨q, rfl, hpq⟩
  | succ fuel ih =>
    have hplanned : q.planned = p.planned := (congrArg Planning.planned hpq :)
    rcases planStage_cases named h with
      ⟨hdone, rfl⟩ | ⟨hopen, hvisiting, stage, met, rfl, hknown, hmet, hadd⟩
    · refine ⟨q, ?_, hpq⟩
      unfold planStage
      rw [hplanned, if_pos hdone]
      rfl
    · have hsub : met.steps ⊆ after.steps := by
        obtain ⟨ctx, -, rfl⟩ := addStep_eq_ok_iff.mp hadd
        exact List.subset_append_left _ _
      obtain ⟨mid, hmid, hsame⟩ := meetAll_again cache cwd hpq hmet
        (fun _ _ _ => planStage_grows named)
        (fun p q name next hpq hnext hplan =>
          ih hpq hplan fun step hstep => rebinds step (hsub (hnext hstep)))
      obtain ⟨again, hagain, hlast⟩ := addStep_again cache hknown cwd hsame hadd rebinds
      refine ⟨again, ?_, hlast⟩
      unfold planStage
      rw [hplanned, hopen, if_neg Bool.false_ne_true]
      dsimp only
      rw [if_neg hvisiting]
      exact bind_eq_ok.mpr ⟨stage, Flow.stage_eq_ok_iff.mpr hknown,
        bind_eq_ok.mpr ⟨mid, hmid, hagain⟩⟩

end PlanSources

section
variable {flow : Flow} {target : String} {cache : Option Fingerprints} {disk other : Disk}
  {plan : Plan}

/-- Where all steps of a plan can be planned again, planning gives the same plan again, predictions
apart. -/
theorem plan_again (named : flow.Named) (h : flow.plan target cache disk = .ok plan)
    (cwd : other.cwd = disk.cwd)
    (rebinds : ∀ step ∈ plan.steps, ∃ stage ctx, Reached flow step other stage ctx ∧
      ctx.outputs.bound = step.outputs) (ocache : Option Fingerprints) :
    ∃ again, flow.plan target ocache other = .ok again ∧
      again = { plan with steps := again.steps, rebuilds := again.rebuilds } ∧
      again.steps.map PlanStep.unpredicted = plan.steps.map PlanStep.unpredicted := by
  unfold Flow.plan at h ⊢
  obtain ⟨producers, hproducers, hrest⟩ := bind_eq_ok.mp h
  obtain ⟨p, hp, hplan⟩ := bind_eq_ok.mp hrest
  cases hplan
  obtain ⟨q, hq, hsame⟩ := PlanSources.meet_again ocache cwd rfl hp
    (fun name hname => PlanSources.planStage_again ocache named cwd rfl hname rebinds)
  refine ⟨_, bind_eq_ok.mpr ⟨producers, hproducers, bind_eq_ok.mpr ⟨q, hq, rfl⟩⟩, ?_,
    (congrArg Planning.steps hsame :)⟩
  rw [show q.paths = p.paths from (congrArg Planning.paths hsame :),
    show q.missing = p.missing from (congrArg Planning.missing hsame :),
    show q.unmapped = p.unmapped from (congrArg Planning.unmapped hsame :)]

end

namespace PlanStep

/-- The paths that a step is planned to take but that its context does not bind for the take. -/
def overlooked (step : PlanStep) (ctx : Context) (take : String) : List String :=
  ((step.inputs.takes.get? take).elim [] (·.strings)).filter
    (· ∉ (ctx.takes.get? take).elim [] (·.strings))

theorem mem_overlooked {step : PlanStep} {ctx : Context} {take path : String} :
    path ∈ step.overlooked ctx take ↔
      (∃ planned, step.inputs.takes.get? take = some planned ∧ path ∈ planned.strings) ∧
        ∀ v, ctx.takes.get? take = some v → path ∉ v.strings := by
  unfold overlooked
  rw [List.mem_filter, decide_eq_true_eq]
  cases step.inputs.takes.get? take <;> cases ctx.takes.get? take <;> simp

/-- Planning finds nothing amiss in what the context of a step does not show: outputs that have to
be written name a path, and the paths that the context leaves out are as planning expects them. -/
structure Transparent (step : PlanStep) (io : Interface) (ctx : Context) (c : Fingerprints)
    (disk : Disk) : Prop where
  placed : ∀ v ∈ mandatoryOutputs io.produces step.outputs, v.strings ≠ []
  overlooked : ∀ take ∈ io.takes, ∀ path ∈ step.overlooked ctx take.name,
    c.Expects disk step.stage take path

instance (step : PlanStep) (io : Interface) (ctx : Context) (c : Fingerprints) (disk : Disk) :
    Decidable (step.Transparent io ctx c disk) :=
  decidable_of_iff ((∀ v ∈ mandatoryOutputs io.produces step.outputs, v.strings ≠ []) ∧
      ∀ take ∈ io.takes, ∀ path ∈ step.overlooked ctx take.name,
        c.Expects disk step.stage take path)
    ⟨fun h => ⟨h.1, h.2⟩, fun h => ⟨h.placed, h.overlooked⟩⟩

/-- For a step that the check passes over, that is all that planning can find amiss. -/
theorem idle_iff_transparent {step : PlanStep} {stage : Stage} {ctx : Context}
    {c : Fingerprints} {disk : Disk}
    (fresh : (step.examine ctx stage.io.produces disk (some c)).1 = false) :
    step.Idle stage.io c disk ↔ step.Transparent stage.io ctx c disk := by
  obtain ⟨known, passes, mandatory⟩ := examine_eq_false_iff.mp fresh
  constructor
  · intro idle
    refine ⟨fun v hv => ((disk.holds_iff v).mp (idle.written v hv)).1,
      fun take htake path hpath => ?_⟩
    obtain ⟨⟨planned, hplanned, hmem⟩, -⟩ := mem_overlooked.mp hpath
    exact idle.expected take htake planned hplanned path hmem
  · intro transparent
    refine ⟨known, fun take htake planned hplanned path hpath => ?_, fun v hv => ?_⟩
    · by_cases hbound : ∃ v, ctx.takes.get? take.name = some v ∧ path ∈ v.strings
      · obtain ⟨v, hv, hmem⟩ := hbound
        exact Or.inl (passes (path, true)
          (mem_looks_bound.mpr ⟨take.name, planned, v, Table.mem_of_get? hplanned, hv, hmem⟩) rfl)
      · exact transparent.overlooked take htake path (mem_overlooked.mpr
          ⟨⟨planned, hplanned, hpath⟩, fun v hv hmem => hbound ⟨v, hv, hmem⟩⟩)
    · exact (disk.holds_iff v).mpr ⟨transparent.placed v hv, fun path hpath =>
        mandatory path (List.mem_flatMap.mpr ⟨v, hv, hpath⟩)⟩

theorem idle_unpredicted {step : PlanStep} {io : Interface} {c : Fingerprints} {disk : Disk} :
    step.unpredicted.Idle io c disk ↔ step.Idle io c disk :=
  ⟨fun h => ⟨h.known, h.expected, h.written⟩, fun h => ⟨h.known, h.expected, h.written⟩⟩

/-- Whether all steps are found idle does not depend on their predictions. -/
theorem forall_idle_unpredicted {flow : Flow} {c : Fingerprints} {disk : Disk}
    (steps : List PlanStep) :
    (∀ step ∈ steps, ∀ stage, flow.stages.get? step.stage = some stage →
      step.Idle stage.io c disk) ↔
    ∀ step ∈ steps.map unpredicted, ∀ stage, flow.stages.get? step.stage = some stage →
      step.Idle stage.io c disk := by
  rw [List.forall_mem_map]
  exact forall₂_congr fun step _ => forall₂_congr fun stage _ => idle_unpredicted.symm

end PlanStep

/-- Attempts that stay in the working directory leave it as it was. -/
theorem cwd_of_adds {flow : Flow} {paths : List String} {r : Reporter} {host : Host}
    {steps : List PlanStep} {report : BuildReport} {session : Session}
    (adds : ∀ a ∈ trail flow r host steps report session, a.Adds paths) :
    (last (steps.foldlM (runStep flow r) report host session)).bench.disk.cwd =
      session.bench.disk.cwd := by
  have hcwd : (∀ a ∈ trail flow r host steps report session ++ [], a.Adds paths) →
      (last (steps.foldlM (runStep flow r) report host session)).bench.disk.cwd =
        session.bench.disk.cwd := by
    refine trail_induction (P := fun present log => (∀ a ∈ log, a.Adds paths) →
      present.bench.disk.cwd = session.bench.disk.cwd) ?_ report session [] fun _ => rfl
    intro step _ report present log ih hadds
    obtain ⟨hlast, hlog⟩ := List.forall_mem_append.mp hadds
    by_cases hsame : (last (runStep flow r report step host present)).bench.disk =
        present.bench.disk
    · rw [hsame, ih hlog]
    · obtain ⟨a, hentry, -⟩ := ran_of_changed hsame
      obtain ⟨-, hbefore, hafter, -⟩ := attempt?_spec hentry
      have hstays := (hlast a (Option.mem_toList.mpr hentry)).cwd
      rw [hbefore, hafter] at hstays
      rw [hstays, ih hlog]
  rw [List.append_nil] at hcwd
  exact hcwd adds

/-- Planning again after a build predicts that nothing has to run exactly if the steps show planning
nothing that their contexts do not. -/
theorem replanned_idle_iff {flow : Flow} {target : String} {plan : Plan} {r : Reporter}
    {host : Host} {bench : Bench} {c : Fingerprints} {report : BuildReport} {after : Session}
    (named : flow.Named) (orderly : c.Orderly)
    (hplan : flow.plan target (some c) bench.disk = .ok plan) (flows : plan.FlowsOn)
    (run : runPlan flow plan r host ⟨bench, some c⟩ = .ok report after)
    (tidy : ∀ a ∈ trail flow r host plan.steps {} ⟨bench, some c⟩, a.Tidy flow plan.touched)
    (rebinds : ∀ step ∈ plan.steps, ∀ stage ctx, Reached flow step after.bench.disk stage ctx →
      ctx.outputs.bound = step.outputs) :
    ∃ records again, after.cache = some records ∧
      flow.plan target after.cache after.bench.disk = .ok again ∧
      again.steps.map PlanStep.unpredicted = plan.steps.map PlanStep.unpredicted ∧
      ((∀ step ∈ again.steps, step.required = false) ↔
        ∀ step ∈ plan.steps, ∀ stage ctx, Reached flow step after.bench.disk stage ctx →
          step.Transparent stage.io ctx records after.bench.disk) := by
  obtain ⟨records, hcache, horderly, hwarm⟩ := warm_of_runPlan flows orderly run tidy
  have hcwd : after.bench.disk.cwd = bench.disk.cwd := by
    have hsteps := cwd_of_adds fun a ha => (tidy a ha).adds
    obtain ⟨-, hdisk, -⟩ := runPlan_last flow plan r host ⟨bench, some c⟩
    rwa [← hdisk, run] at hsteps
  obtain ⟨again, hagain, -, hsteps⟩ := plan_again named hplan hcwd (fun step hstep => by
    obtain ⟨stage, ctx, reached, -⟩ := hwarm step hstep
    exact ⟨stage, ctx, reached, rebinds step hstep stage ctx reached⟩) after.cache
  refine ⟨records, again, hcache, hagain, hsteps, ?_⟩
  rw [hcache] at hagain
  -- Idleness does not look at predictions, so it can be read off the steps of the first plan.
  rw [plan_idle_iff named hagain, PlanStep.forall_idle_unpredicted again.steps, hsteps,
    ← PlanStep.forall_idle_unpredicted plan.steps]
  refine forall₂_congr fun step hstep => ?_
  obtain ⟨stage, ctx, reached, fresh⟩ := hwarm step hstep
  constructor
  · intro hidle ostage octx oreached
    obtain ⟨rfl, rfl⟩ := reached.unique oreached
    exact (PlanStep.idle_iff_transparent fresh).mp (hidle _ reached.known)
  · intro htransparent ostage known
    cases reached.known.symm.trans known
    exact (PlanStep.idle_iff_transparent fresh).mpr (htransparent _ ctx reached)

/-- A test of the stage and the context that a step is given on a disk. -/
def PlanStep.givenAll (flow : Flow) (disk : Disk) (step : PlanStep)
    (p : Stage → Context → Bool) : Bool :=
  (flow.stages.get? step.stage).all fun stage =>
    match Context.build stage.module step.stage step.inputs step.env flow.roots disk with
    | .ok ctx => p stage ctx
    | .error _ => true

theorem PlanStep.of_givenAll {flow : Flow} {disk : Disk} {step : PlanStep}
    {p : Stage → Context → Bool} (h : step.givenAll flow disk p = true) {stage : Stage}
    {ctx : Context} (reached : Reached flow step disk stage ctx) : p stage ctx = true := by
  unfold givenAll at h
  rw [reached.known, Option.all_some, reached.built] at h
  exact h

/-- What the relay has made does not have to be made again. -/
theorem relay_replanned_idle :
    ∃ plan report bench c again,
      Relay.flow.plan "out" (some (.empty "c")) Relay.disk = .ok plan ∧
      runPlan Relay.flow plan Relay.silent Relay.host ⟨⟨Relay.disk, "", 0⟩, some (.empty "c")⟩ =
        .ok report ⟨bench, some c⟩ ∧
      report.executed = ["first", "second"] ∧
      Relay.flow.plan "out" (some c) bench.disk = .ok again ∧
      again.steps.map PlanStep.unpredicted = plan.steps.map PlanStep.unpredicted ∧
      ∀ step ∈ again.steps, step.required = false := by
  have hchecks : okAnd (Relay.flow.plan "out" (some (.empty "c")) Relay.disk) (fun plan =>
      plan.steps.all (fun step => step.Ignores step) && plan.steps.Pairwise PlanStep.Ignores &&
      (trail Relay.flow Relay.silent Relay.host plan.steps {}
        ⟨⟨Relay.disk, "", 0⟩, some (.empty "c")⟩).all (·.isTidy Relay.flow plan.touched) &&
      builtAnd Relay.flow plan Relay.silent Relay.host ⟨Relay.disk, "", 0⟩ (.empty "c")
        fun report bench c =>
          report.executed = ["first", "second"] &&
          plan.steps.all fun step => step.givenAll Relay.flow bench.disk fun stage ctx =>
            ctx.outputs.bound = step.outputs ∧
              step.Transparent stage.io ctx c bench.disk) = true := by
    decide +kernel
  obtain ⟨plan, hplan, hchecks⟩ := exists_of_okAnd hchecks
  simp only [Bool.and_eq_true, decide_eq_true_eq, List.all_eq_true] at hchecks
  obtain ⟨⟨⟨hapart, honward⟩, htidy⟩, hbuilt⟩ := hchecks
  obtain ⟨report, bench, c, hrun, hchecks⟩ := exists_of_builtAnd hbuilt
  obtain ⟨hreport, hgiven⟩ := Bool.and_eq_true_iff.mp hchecks
  have hsteps : ∀ step ∈ plan.steps, ∀ stage ctx, Reached Relay.flow step bench.disk stage ctx →
      ctx.outputs.bound = step.outputs ∧ step.Transparent stage.io ctx c bench.disk :=
    fun step hstep stage ctx reached =>
      of_decide_eq_true (PlanStep.of_givenAll (List.all_eq_true.mp hgiven step hstep) reached)
  have hplan : Relay.flow.plan "out" (some (.empty "c")) (⟨Relay.disk, "", 0⟩ : Bench).disk =
    .ok plan := hplan
  obtain ⟨records, again, hcache, hagain, hsame, hidle⟩ :=
    replanned_idle_iff Relay.flow_named (orderly_empty "c") hplan ⟨hapart, honward⟩ hrun
      (fun a ha => Attempt.tidy_of_isTidy (htidy a ha))
      fun step hstep stage ctx reached => (hsteps step hstep stage ctx reached).1
  cases hcache
  exact ⟨plan, report, bench, c, again, hplan, hrun, of_decide_eq_true hreport, hagain, hsame,
    hidle.mpr fun step hstep stage ctx reached => (hsteps step hstep stage ctx reached).2⟩

/-- After a build with one of two optional files, which are taken together or not at all, the stage
is expected to run again. -/
theorem half_list_replanned :
    ∃ flow plan report bench c again,
      flow = Annex.flow (.list [.str "/x", .str "/y"]) ∧
      flow.plan "out" (some (.empty "c")) Annex.disk = .ok plan ∧ plan.FlowsOn ∧
      (∀ a ∈ trail flow Relay.silent Relay.host plan.steps {}
        ⟨⟨Annex.disk, "", 0⟩, some (.empty "c")⟩, a.Tidy flow plan.touched) ∧
      runPlan flow plan Relay.silent Relay.host ⟨⟨Annex.disk, "", 0⟩, some (.empty "c")⟩ =
        .ok report ⟨bench, some c⟩ ∧
      flow.plan "out" (some c) bench.disk = .ok again ∧
      again.steps.map (fun step => (step.stage, step.required)) = [("copy", true)] := by
  have hchecks :
      okAnd ((Annex.flow (.list [.str "/x", .str "/y"])).plan "out" (some (.empty "c")) Annex.disk)
        (fun plan =>
          plan.steps.all (fun step => step.Ignores step) &&
          plan.steps.Pairwise PlanStep.Ignores &&
          (trail (Annex.flow (.list [.str "/x", .str "/y"])) Relay.silent Relay.host plan.steps {}
            ⟨⟨Annex.disk, "", 0⟩, some (.empty "c")⟩).all
              (·.isTidy (Annex.flow (.list [.str "/x", .str "/y"])) plan.touched) &&
          builtAnd (Annex.flow (.list [.str "/x", .str "/y"])) plan Relay.silent Relay.host
            ⟨Annex.disk, "", 0⟩ (.empty "c") fun _ bench c =>
              okAnd ((Annex.flow (.list [.str "/x", .str "/y"])).plan "out" (some c) bench.disk)
                fun again => again.steps.map (fun step => (step.stage, step.required)) =
                  [("copy", true)]) = true := by
    decide +kernel
  obtain ⟨plan, hplan, hchecks⟩ := exists_of_okAnd hchecks
  simp only [Bool.and_eq_true, decide_eq_true_eq, List.all_eq_true] at hchecks
  obtain ⟨⟨⟨hapart, honward⟩, htidy⟩, hbuilt⟩ := hchecks
  obtain ⟨report, bench, c, hrun, hchecks⟩ := exists_of_builtAnd hbuilt
  obtain ⟨again, hagain, hrequired⟩ := exists_of_okAnd hchecks
  exact ⟨_, plan, report, bench, c, again, rfl, hplan, ⟨hapart, honward⟩,
    fun a ha => Attempt.tidy_of_isTidy (htidy a ha), hrun, hagain, of_decide_eq_true hrequired⟩

end Toolflow
