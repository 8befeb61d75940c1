import Toolflow.Proofs.Steps

/-! What modules may touch.

A module is confined if its runs change nothing that a plan mentions but the outputs of their own
step. Other files, such as reports beside the outputs, are its own affair. It is deterministic if
what it leaves at its outputs depends on nothing but its takes. -/
namespace Toolflow

open Build

/-- The paths of a step's outputs and of its takes as a context would bind them. -/
def PlanStep.mentions (step : PlanStep) : List String :=
  step.outputPaths ++ step.inputs.takes.values.flatMap fun v => (step.env.resolve v).strings

theorem PlanStep.mentions_of_take {step : PlanStep} {take path : String} {planned : Value}
    (h : step.inputs.takes.get? take = some planned)
    (hpath : path ∈ (step.env.resolve planned).strings) : path ∈ step.mentions :=
  List.mem_append_right _ (List.mem_flatMap.mpr
    ⟨planned, List.mem_map.mpr ⟨(take, planned), Table.mem_of_get? h, rfl⟩, hpath⟩)

/-- Whether a take is fed without references. -/
def PlanStep.IsLiteral (step : PlanStep) (take : String) : Prop :=
  ∀ planned, step.inputs.takes.get? take = some planned → Environment.unresolved planned = []

/-- The paths that the steps of a plan mention. -/
def Plan.mentions (plan : Plan) : List String := plan.steps.flatMap PlanStep.mentions

theorem Plan.mentions_of_step {plan : Plan} {step : PlanStep} {path : String}
    (hstep : step ∈ plan.steps) (hpath : path ∈ step.mentions) : path ∈ plan.mentions :=
  List.mem_flatMap.mpr ⟨step, hstep, hpath⟩

/-- The paths of a step's takes, as planned and as a context would bind them. -/
def PlanStep.takePaths (step : PlanStep) : List String :=
  step.inputs.takes.values.flatMap fun v => v.strings ++ (step.env.resolve v).strings

/-- The paths that the steps of a plan take or write. -/
def Plan.touched (plan : Plan) : List String :=
  plan.steps.flatMap fun step => step.takePaths ++ step.outputPaths

theorem Plan.mem_touched {plan : Plan} {step : PlanStep} (hstep : step ∈ plan.steps) {path : String}
    (hpath : path ∈ step.takePaths ∨ path ∈ step.outputPaths) : path ∈ plan.touched :=
  List.mem_flatMap.mpr ⟨step, hstep, List.mem_append.mpr hpath⟩

section
variable {flow : Flow} {step : PlanStep} {disk : Disk} {stage : Stage} {ctx : Context}

theorem PlanStep.mem_takePaths {path : String} :
    path ∈ step.takePaths ↔ ∃ take planned, (take, planned) ∈ step.inputs.takes.entries ∧
      (path ∈ planned.strings ∨ path ∈ (step.env.resolve planned).strings) := by
  unfold takePaths Table.values
  simp only [List.mem_flatMap, List.mem_map, List.mem_append, Prod.exists]
  constructor
  · rintro ⟨_, ⟨take, planned, hmem, rfl⟩, hpath⟩
    exact ⟨take, planned, hmem, hpath⟩
  · rintro ⟨take, planned, hmem, hpath⟩
    exact ⟨planned, ⟨take, planned, hmem, rfl⟩, hpath⟩

/-- A take that is bound has its input, resolved, and the paths of an optional one are there. -/
theorem Reached.take_bound (h : Reached flow step disk stage ctx) {take : String} {v : Value}
    (hv : ctx.takes.get? take = some v) :
    ∃ d ∈ stage.io.takes, d.name = take ∧
      (∃ planned, (take, planned) ∈ step.inputs.takes.entries ∧ step.env.resolve planned = v) ∧
      (d.isRequired = true ∨ ∀ path ∈ v.strings, disk.exists? path = true) := by
  rw [Context.build_take h.built] at hv
  obtain ⟨d, planned, hd, hplanned, -, hresolve, hthere⟩ := Context.takeOn_eq_some_iff.mp hv
  obtain ⟨hmem, hname⟩ := Interface.take?_eq_some hd
  exact ⟨d, hmem, hname, ⟨planned, Table.mem_of_get? hplanned, hresolve⟩,
    hthere.imp_right fun hholds => ((disk.holds_iff v).mp hholds).2⟩

/-- Everything a step looks at is a path of its takes. -/
theorem Reached.look_mem (h : Reached flow step disk stage ctx) {look : String × Bool}
    (hlook : look ∈ step.looks ctx) : look.1 ∈ step.takePaths := by
  obtain ⟨path, isBound⟩ := look
  rw [PlanStep.mem_takePaths]
  cases isBound with
  | true =>
    obtain ⟨take, -, v, -, hv, hpath⟩ := PlanStep.mem_looks_bound.mp hlook
    obtain ⟨-, -, -, ⟨planned, hmem, rfl⟩, -⟩ := h.take_bound hv
    exact ⟨take, planned, hmem, Or.inr hpath⟩
  | false =>
    obtain ⟨take, planned, hmem, -, hpath⟩ := PlanStep.mem_looks_absent.mp hlook
    exact ⟨take, planned, hmem, Or.inl hpath⟩

end

/-- Of the given paths, runs of the step's module touch the step's own outputs only. They stay in
the working directory. -/
structure Confined (flow : Flow) (paths : List String) (step : PlanStep) : Prop where
  kept : ∀ {stage ctx r host disk result}, Reached flow step disk stage ctx →
    stage.Ran r ctx host disk result →
      (last result).disk.cwd = disk.cwd ∧
        ∀ path ∈ paths, path ∉ step.outputPaths →
          (last result).disk.contentAt path = disk.contentAt path

/-- The step's module is confined, and its runs that succeed leave at the step's outputs what is
determined by the takes that are bound and by what stands at their paths. -/
structure Deterministic (flow : Flow) (paths : List String) (step : PlanStep) : Prop
    extends Confined flow paths step where
  leaves : ∀ {stage ctx octx r or host ohost disk odisk bench obench},
    Reached flow step disk stage ctx → Reached flow step odisk stage octx →
    stage.Ran r ctx host disk (.ok () bench) → stage.Ran or octx ohost odisk (.ok () obench) →
    odisk.cwd = disk.cwd → (∀ take, octx.takes.get? take = ctx.takes.get? take) →
    (∀ take v, ctx.takes.get? take = some v → ∀ path ∈ v.strings,
      odisk.contentAt path = disk.contentAt path) →
    ∀ path ∈ step.outputPaths, obench.disk.contentAt path = bench.disk.contentAt path

section
variable {flow : Flow} {paths : List String}

theorem Confined.step {step : PlanStep} (confined : Confined flow paths step) (r : Reporter)
    (host : Host) (report : BuildReport) (session : Session) :
    (last (runStep flow r report step host session)).bench.disk.cwd = session.bench.disk.cwd ∧
      ∀ path ∈ paths, path ∉ step.outputPaths →
        (last (runStep flow r report step host session)).bench.disk.contentAt path =
          session.bench.disk.contentAt path := by
  have hcases := runStep_cases flow r report step host session
  generalize runStep flow r report step host session = result at hcases ⊢
  cases hcases with
  | unbuilt cause unreached => exact ⟨rfl, fun _ _ _ => rfl⟩
  | skipped stage ctx bench reached fresh kept =>
    simp only [last, kept]
    exact ⟨trivial, fun _ _ _ => trivial⟩
  | failed stage ctx bench cause reached stale ran => exact confined.kept reached ran
  | incomplete stage ctx bench product path noted reached stale ran planned strict gone =>
    exact confined.kept reached ran
  | succeeded stage ctx bench after reached stale ran complete kept =>
    simp only [last, kept]
    exact confined.kept reached ran

/-- Over a run of steps only their outputs change. -/
theorem Confined.steps {steps : List PlanStep}
    (confined : ∀ step ∈ steps, Confined flow paths step) (r : Reporter) (host : Host)
    (report : BuildReport) (session : Session) :
    (last (steps.foldlM (runStep flow r) report host session)).bench.disk.cwd =
        session.bench.disk.cwd ∧
      ∀ path ∈ paths, (∀ step ∈ steps, path ∉ step.outputPaths) →
        (last (steps.foldlM (runStep flow r) report host session)).bench.disk.contentAt path =
          session.bench.disk.contentAt path := by
  induction steps generalizing report session with
  | nil => exact ⟨rfl, fun _ _ _ => rfl⟩
  | cons step rest ih =>
    obtain ⟨hcwd, hkept⟩ :=
      (confined step List.mem_cons_self).step r host report session
    rw [foldlM_cons_run]
    cases hrun : runStep flow r report step host session with
    | error cause after =>
      rw [hrun] at hcwd hkept
      exact ⟨hcwd, fun path hpath hout => hkept path hpath (hout step List.mem_cons_self)⟩
    | ok next after =>
      rw [hrun] at hcwd hkept
      obtain ⟨hrestCwd, hrestKept⟩ :=
        ih (fun step hmem => confined step (List.mem_cons_of_mem _ hmem)) next after
      refine ⟨hrestCwd.trans hcwd, fun path hpath hout => ?_⟩
      exact (hrestKept path hpath fun step hmem => hout step (List.mem_cons_of_mem _ hmem)).trans
        (hkept path hpath (hout step List.mem_cons_self))

end
end Toolflow
