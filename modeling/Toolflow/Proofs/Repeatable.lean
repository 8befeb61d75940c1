import Toolflow.Proofs.Footprints
import Toolflow.Proofs.Journal
import Toolflow.Proofs.Planning
import Toolflow.Proofs.Values

/-! Plans that can be built again and again.

Over one plan the paths fall into outputs, each of one step, and sources, which no step makes. As
long as modules write nothing but their own outputs, the journal knows what stands at an output that
has not been deleted: it is what the last run of its step has left there. -/
namespace Toolflow

open Fingerprints Build

namespace Plan

/-- A path that a step takes, or that stands for the target, and that no earlier step makes. -/
def IsSource (plan : Plan) (path : String) : Prop :=
  (∃ before step after take v, plan.steps = before ++ step :: after ∧
    step.inputs.takes.get? take = some v ∧ path ∈ v.strings ∧
      ∀ earlier ∈ before, earlier.outputs.get? take ≠ some v) ∨
  ∃ v, plan.targetPath? = some v ∧ path ∈ v.strings ∧
    ∀ step ∈ plan.steps, step.outputs.get? plan.target ≠ some v

/-- The paths of the target. -/
def targetFiles (plan : Plan) : List String := (plan.targetPath?.map Value.strings).getD []

/-- The paths that a plan is about. -/
def files (plan : Plan) : List String := plan.mentions ++ plan.targetFiles

theorem mem_targetFiles {plan : Plan} {path : String} :
    path ∈ plan.targetFiles ↔ ∃ v, plan.targetPath? = some v ∧ path ∈ v.strings := by
  unfold targetFiles
  cases plan.targetPath? <;> simp

end Plan

/-- A plan that can be built again and again: its products are all mandatory, its takes are fed
without references, no two steps write the same path or a source, and its modules are
deterministic. -/
structure Repeatable (flow : Flow) (plan : Plan) : Prop where
  named : flow.Named
  planned : ∃ target cache disk, flow.plan target cache disk = .ok plan
  unreserved : ∀ step ∈ plan.steps, step.stage ≠ targetConsumer
  strict : ∀ step ∈ plan.steps, ∀ stage, flow.stages.get? step.stage = some stage →
    ∀ d ∈ stage.io.produces, d.strictness ≠ .optional
  literal : ∀ step ∈ plan.steps, ∀ take, step.IsLiteral take
  apart : ∀ step ∈ plan.steps, ∀ other ∈ plan.steps, other.stage ≠ step.stage →
    ∀ path ∈ step.outputPaths, path ∉ other.outputPaths
  sources : ∀ step ∈ plan.steps, ∀ path ∈ step.outputPaths, ¬ plan.IsSource path
  deterministic : ∀ step ∈ plan.steps, Deterministic flow plan.files step

namespace Repeatable
variable {flow : Flow} {plan : Plan} {before after : List PlanStep} {step : PlanStep}

theorem stage_injective (h : Repeatable flow plan) {other : PlanStep} (hstep : step ∈ plan.steps)
    (hother : other ∈ plan.steps) (hstage : other.stage = step.stage) : other = step := by
  obtain ⟨target, cache, disk, hplan⟩ := h.planned
  exact List.inj_on_of_nodup_map (plan_distinct h.named hplan) hother hstep hstage

theorem earlier_ne (h : Repeatable flow plan) (order : plan.steps = before ++ step :: after)
    {earlier : PlanStep} (hearlier : earlier ∈ before) :
    earlier ∈ plan.steps ∧ earlier.stage ≠ step.stage := by
  obtain ⟨target, cache, disk, hplan⟩ := h.planned
  have hnodup := plan_distinct h.named hplan
  rw [order, List.map_append, List.map_cons, List.nodup_append] at hnodup
  refine ⟨by rw [order]; exact List.mem_append_left _ hearlier, ?_⟩
  exact hnodup.2.2 _ (List.mem_map_of_mem hearlier) _ List.mem_cons_self

/-- All outputs of a step are mandatory. -/
theorem mandatory (h : Repeatable flow plan) (hstep : step ∈ plan.steps) {stage : Stage}
    (hstage : flow.stages.get? step.stage = some stage) {path : String}
    (hpath : path ∈ step.outputPaths) : path ∈ step.mandatoryPaths stage.io.produces := by
  obtain ⟨target, cache, disk, hplan⟩ := h.planned
  obtain ⟨_, -, hbuilt⟩ := plan_built h.named hplan
  obtain ⟨found, ctx, _, reached, houtputs, -⟩ := hbuilt step hstep
  cases hstage.symm.trans reached.known
  have hascending := Context.ascending_outputs reached.built
  obtain ⟨v, hv, hmem⟩ := PlanStep.mem_outputPaths.mp hpath
  obtain ⟨⟨name, w⟩, hentry, rfl⟩ := List.mem_map.mp hv
  have hget : step.outputs.get? name = some w := by
    rw [houtputs] at hentry ⊢
    exact (Bindings.ascending_bound hascending).get?_eq_some_iff.mpr hentry
  have hbound := hget
  rw [houtputs, Bindings.get?_bound hascending] at hbound
  obtain ⟨d, hd, rfl⟩ := Context.output_declared reached.built hbound
  exact PlanStep.mem_mandatoryPaths.mpr
    ⟨d, hd, h.strict step hstep stage hstage d hd, w, hget, hmem⟩

/-- A path that a step takes is made by an earlier step, or it is a source. -/
theorem take_cases (order : plan.steps = before ++ step :: after) {take path : String} {v : Value}
    (hv : step.inputs.takes.get? take = some v) (hpath : path ∈ v.strings) :
    (∃ earlier ∈ before, path ∈ earlier.outputPaths) ∨ plan.IsSource path := by
  by_cases hmade : ∃ earlier ∈ before, earlier.outputs.get? take = some v
  · obtain ⟨earlier, hmem, hget⟩ := hmade
    exact Or.inl ⟨earlier, hmem, PlanStep.mem_outputPaths.mpr
      ⟨v, List.mem_map.mpr ⟨(take, v), Table.mem_of_get? hget, rfl⟩, hpath⟩⟩
  · exact Or.inr (Or.inl ⟨before, step, after, take, v, order, hv, hpath,
      fun earlier hmem hget => hmade ⟨earlier, hmem, hget⟩⟩)

/-- No step takes what it writes. -/
theorem take_not_output (h : Repeatable flow plan) (hstep : step ∈ plan.steps)
    {take path : String} {v : Value} (hv : step.inputs.takes.get? take = some v)
    (hpath : path ∈ v.strings) : path ∉ step.outputPaths := by
  intro hout
  obtain ⟨before, after, order⟩ := List.append_of_mem hstep
  rcases take_cases order hv hpath with ⟨earlier, hmem, hother⟩ | hsource
  · obtain ⟨hearlier, hne⟩ := h.earlier_ne order hmem
    exact h.apart step hstep earlier hearlier hne path hout hother
  · exact h.sources step hstep path hout hsource

theorem resolve_take (h : Repeatable flow plan) (hstep : step ∈ plan.steps) {take : String}
    {v : Value} (hv : step.inputs.takes.get? take = some v) : step.env.resolve v = v :=
  step.env.resolve_of_literal (h.literal step hstep take v hv)

theorem output_mem_files (hstep : step ∈ plan.steps) {path : String}
    (hpath : path ∈ step.outputPaths) : path ∈ plan.files :=
  List.mem_append_left _ (Plan.mentions_of_step hstep (List.mem_append_left _ hpath))

theorem source_mem_files (h : Repeatable flow plan) {path : String}
    (hpath : plan.IsSource path) : path ∈ plan.files := by
  rcases hpath with ⟨before, step, after, take, v, order, hv, hmem, -⟩ | ⟨v, hv, hmem, -⟩
  · have hstep : step ∈ plan.steps := by
      rw [order]
      exact List.mem_append_right _ List.mem_cons_self
    rw [← h.resolve_take hstep hv] at hmem
    exact List.mem_append_left _ (Plan.mentions_of_step hstep (PlanStep.mentions_of_take hv hmem))
  · exact List.mem_append_right _ (Plan.mem_targetFiles.mpr ⟨v, hv, hmem⟩)

/-- Sources are bound in the configuration. -/
theorem source_bound {target : String} {cache : Option Fingerprints} {disk : Disk}
    (named : flow.Named) (planned : flow.plan target cache disk = .ok plan) {path : String}
    (hpath : plan.IsSource path) : path ∈ flow.dependencies.values.flatMap Value.strings := by
  obtain ⟨hwired, htarget⟩ := plan_wired named planned
  have hbound : ∀ dep v, flow.dependencies.get? dep = some v → path ∈ v.strings →
      path ∈ flow.dependencies.values.flatMap Value.strings := fun dep v hv hmem =>
    List.mem_flatMap.mpr ⟨v, List.mem_map.mpr ⟨(dep, v), Table.mem_of_get? hv, rfl⟩, hmem⟩
  rcases hpath with
    ⟨before, step, after, take, v, order, hv, hmem, hunmade⟩ | ⟨v, hv, hmem, hunmade⟩
  · rcases hwired before step after order take v hv with ⟨earlier, hearlier, hmade⟩ | hdep
    · exact absurd hmade (hunmade earlier hearlier)
    · exact hbound take v hdep hmem
  · rcases htarget v hv with ⟨step, hstep, hmade⟩ | hdep
    · exact absurd hmade (hunmade step hstep)
    · exact hbound plan.target v hdep hmem

/-- The value of a take that is bound. -/
theorem bound_take (h : Repeatable flow plan) (hstep : step ∈ plan.steps) {disk : Disk}
    {stage : Stage} {ctx : Context} (reached : Reached flow step disk stage ctx) {take : String}
    {v : Value} (hv : ctx.takes.get? take = some v) : step.inputs.takes.get? take = some v := by
  rw [Context.build_take reached.built] at hv
  obtain ⟨d, planned, -, hplanned, -, rfl, -⟩ := Context.takeOn_eq_some_iff.mp hv
  rw [h.resolve_take hstep hplanned]
  exact hplanned

/-- Whether a plan is repeatable as far as that can be read off it. -/
def isTidy (flow : Flow) (plan : Plan) : Bool :=
  plan.steps.all fun step =>
    step.stage != targetConsumer &&
    (flow.stages.get? step.stage).all (fun stage =>
      stage.io.produces.all (·.strictness != .optional)) &&
    step.inputs.takes.values.all (fun v => (Environment.unresolved v).isEmpty) &&
    step.outputPaths.all fun path =>
      path ∉ flow.dependencies.values.flatMap Value.strings &&
      plan.steps.all fun other => other.stage = step.stage ∨ path ∉ other.outputPaths

theorem of_isTidy {target : String} {cache : Option Fingerprints} {disk : Disk}
    (named : flow.Named) (planned : flow.plan target cache disk = .ok plan)
    (tidy : isTidy flow plan = true)
    (deterministic : ∀ step ∈ plan.steps, Deterministic flow plan.files step) :
    Repeatable flow plan := by
  simp only [isTidy, List.all_eq_true, Bool.and_eq_true, bne_iff_ne, Option.all_eq_true,
    List.isEmpty_iff, decide_eq_true_eq] at tidy
  refine ⟨named, ⟨target, cache, disk, planned⟩, fun step hstep => (tidy step hstep).1.1.1,
    fun step hstep => (tidy step hstep).1.1.2, fun step hstep take v hv => ?_,
    fun step hstep other hother hne path hpath => ?_, fun step hstep path hpath hsource => ?_,
    deterministic⟩
  · exact (tidy step hstep).1.2 v (List.mem_map.mpr ⟨(take, v), Table.mem_of_get? hv, rfl⟩)
  · exact (((tidy step hstep).2 path hpath).2 other hother).resolve_left hne
  · exact ((tidy step hstep).2 path hpath).1 (source_bound named planned hsource)

end Repeatable

/-- Builds of one plan. Between builds products may be deleted and all other files may change. -/
def onePlan (flow : Flow) (plan : Plan) : Usage where
  builds f p := f = flow ∧ p = plan
  starts _ := True
  edits disk other := other.cwd = disk.cwd ∧
    ∀ step ∈ plan.steps, ∀ path ∈ step.outputPaths,
      other.contentAt path = disk.contentAt path ∨ other.contentAt path = .missing

/-- The outputs of the last run of every step are as it left them, as far as they are still
there. -/
structure Kept (plan : Plan) (disk : Disk) (log : List Attempt) : Prop where
  cwd : ∀ a ∈ log, a.before.cwd = disk.cwd
  outputs : ∀ step ∈ plan.steps, ∀ run, lastRun log step.stage = some run → run.fate = .succeeded →
    ∀ path ∈ step.outputPaths,
      disk.contentAt path = .missing ∨ disk.contentAt path = run.after.contentAt path

section
variable {flow : Flow} {plan : Plan} {r : Reporter} {host : Host} {step : PlanStep}
  {report : BuildReport} {session : Session} {log : List Attempt}

/-- A step keeps its own outputs or is the last run that has written them. -/
theorem own_outputs_kept
    (hkept : ∀ run, lastRun log step.stage = some run → run.fate = .succeeded →
      ∀ path ∈ step.outputPaths, session.bench.disk.contentAt path = .missing ∨
        session.bench.disk.contentAt path = run.after.contentAt path) :
    let result := runStep flow r report step host session
    ∀ run,
      lastRun ((attempt? flow step report session result).toList ++ log) step.stage = some run →
      run.fate = .succeeded → ∀ path ∈ step.outputPaths,
        (last result).bench.disk.contentAt path = .missing ∨
          (last result).bench.disk.contentAt path = run.after.contentAt path := by
  intro result run hrun succeeded path hpath
  have hcases : StepRun flow r report step host session result := runStep_cases ..
  clear_value result
  cases hcases with
  | unbuilt cause unreached =>
    rw [attempt?_of_unreached unreached] at hrun
    exact hkept run hrun succeeded path hpath
  | skipped stage ctx bench reached fresh kept =>
    rw [attempt?_of_reached reached, Option.toList_some, List.singleton_append,
      lastRun_cons_of_skipped (by simp [fate])] at hrun
    simp only [last, kept]
    exact hkept run hrun succeeded path hpath
  | failed stage ctx bench cause reached stale ran =>
    rw [attempt?_of_reached reached, Option.toList_some, List.singleton_append,
      lastRun_cons_of_ran (by simp [fate]), if_pos rfl] at hrun
    cases hrun
    cases succeeded
  | incomplete stage ctx bench product path noted reached stale ran planned strict gone =>
    rw [attempt?_of_reached reached, Option.toList_some, List.singleton_append,
      lastRun_cons_of_ran (by simp [fate]), if_pos rfl] at hrun
    cases hrun
    cases succeeded
  | succeeded stage ctx bench after reached stale ran complete kept =>
    rw [attempt?_of_reached reached, Option.toList_some, List.singleton_append,
      lastRun_cons_of_ran (by simp [fate]), if_pos rfl] at hrun
    cases hrun
    exact Or.inr rfl

/-- Every build and every edit keeps the outputs of the last runs. -/
theorem kept_invariant (h : Repeatable flow plan) :
    Invariant (onePlan flow plan) fun disk _ log => Kept plan disk log where
  start _ _ _ := ⟨by simp, fun _ _ _ hrun => by cases hrun⟩
  edit disk other c log := by
    rintro ⟨hcwd, hedit⟩ hkept
    refine ⟨fun a ha => (hkept.cwd a ha).trans hcwd.symm, ?_⟩
    intro step hstep run hrun succeeded path hpath
    rcases hedit step hstep path hpath with hsame | hgone
    · rw [hsame]
      exact hkept.outputs step hstep run hrun succeeded path hpath
    · exact Or.inl hgone
  step := by
    rintro flow plan step ⟨rfl, rfl⟩ hstep r host report bench c log after hkept -
    obtain ⟨hcwd, htouched⟩ := (h.deterministic step hstep).step r host report ⟨bench, some c⟩
    have hentry : ∀ a ∈ (attempt? flow step report ⟨bench, some c⟩
        (runStep flow r report step host ⟨bench, some c⟩)).toList,
        a.step = step ∧ a.before = bench.disk := by
      intro a ha
      obtain ⟨hsame, hbefore, -⟩ := attempt?_spec (Option.mem_toList.mp ha)
      exact ⟨hsame, hbefore⟩
    refine ⟨fun a ha => ?_, fun other hother run hrun succeeded path hpath => ?_⟩
    · rcases List.mem_append.mp ha with ha | ha
      · rw [(hentry a ha).2, hcwd]
      · exact (hkept.cwd a ha).trans hcwd.symm
    · by_cases hsame : other.stage = step.stage
      · cases h.stage_injective hstep hother hsame
        exact own_outputs_kept (hkept.outputs step hstep) run hrun succeeded path hpath
      · rw [lastRun_append_of_others fun a ha => by
          rw [(hentry a ha).1]
          exact Ne.symm hsame] at hrun
        rw [htouched path (Repeatable.output_mem_files hother hpath)
          (h.apart other hother step hstep (Ne.symm hsame) path hpath)]
        exact hkept.outputs other hother run hrun succeeded path hpath
  target _ _ _ _ hkept := hkept

end
end Toolflow
