import Toolflow.Proofs.Copying
import Toolflow.Proofs.InputReuse
import Toolflow.Proofs.Repeatable

/-! Builds over a cache against builds without one.

When a step of a plan comes to its end, what stands at its outputs is what its module makes of the
takes as they stand now: either the module has just run, or it is passed over and the journal tells
of a run on the same takes whose outputs nobody has touched since. Two builds from the same sources
therefore agree step by step, whatever records they go by. -/
namespace Toolflow

open Fingerprints Build

/-- The contents that the stages of a journal have found at the paths of their takes. -/
def occurring (log : List Attempt) : List Content :=
  log.flatMap fun a => a.ctx.takes.bound.values.flatMap fun v => v.strings.map a.before.contentAt

theorem mem_occurring {log : List Attempt} {a : Attempt} (ha : a ∈ log) {take path : String}
    {v : Value} (hv : a.ctx.takes.get? take = some v) (hpath : path ∈ v.strings) :
    a.before.contentAt path ∈ occurring log := by
  refine List.mem_flatMap.mpr ⟨a, ha, List.mem_flatMap.mpr ⟨v, ?_, List.mem_map_of_mem hpath⟩⟩
  have hentry := Table.mem_of_get? (Option.join_eq_some_iff.mp hv)
  exact List.mem_map.mpr ⟨(take, v), List.mem_filterMap.mpr ⟨(take, some v), hentry, rfl⟩, rfl⟩

/-- Different contents that occur have different fingerprints. -/
def ToldApart (log : List Attempt) : Prop :=
  ∀ content ∈ occurring log, ∀ other ∈ occurring log, content.print? = other.print? →
    content = other

instance (log : List Attempt) : Decidable (ToldApart log) := by
  unfold ToldApart
  infer_instance

/-- What stands at the outputs of a step on one disk is what a successful run of its module leaves
of the takes as they stand on another. -/
structure Made (flow : Flow) (step : PlanStep) (stage : Stage) (ctx : Context)
    (disk after : Disk) : Prop where
  there : ∀ path ∈ step.outputPaths, after.exists? path = true
  ran : ∃ r octx host before bench, Reached flow step before stage octx ∧
    stage.Ran r octx host before (.ok () bench) ∧ before.cwd = disk.cwd ∧
    (∀ take, octx.takes.get? take = ctx.takes.get? take) ∧
    (∀ take v, ctx.takes.get? take = some v → ∀ path ∈ v.strings,
      before.contentAt path = disk.contentAt path) ∧
    ∀ path ∈ step.outputPaths, after.contentAt path = bench.disk.contentAt path

section
variable {flow : Flow} {plan : Plan} {r : Reporter} {host : Host} {step : PlanStep}
  {rest : List PlanStep} {report : BuildReport} {session : Session} {log : List Attempt}
  {stage : Stage} {ctx : Context}

/-- Two contexts of a step that bind takes to the same paths bind them to the same values. -/
theorem Repeatable.takes_eq (h : Repeatable flow plan) (hstep : step ∈ plan.steps)
    {disk other : Disk} {octx : Context} (reached : Reached flow step disk stage ctx)
    (oreached : Reached flow step other stage octx)
    (hpaths : ∀ take, ctx.paths? take = octx.paths? take) (take : String) :
    octx.takes.get? take = ctx.takes.get? take := by
  have hsame := hpaths take
  unfold Context.paths? at hsame
  cases hnow : ctx.takes.get? take with
  | none =>
    rw [hnow] at hsame
    exact Option.map_eq_none_iff.mp hsame.symm
  | some v =>
    cases hthen : octx.takes.get? take with
    | none =>
      rw [hnow, hthen] at hsame
      cases hsame
    | some w =>
      exact (h.bound_take hstep oreached hthen).symm.trans (h.bound_take hstep reached hnow)

/-- No change of takes goes unnoticed while one plan is built. -/
theorem Repeatable.noticed (h : Repeatable flow plan) (hstep : step ∈ plan.steps) {run : Attempt}
    (hsame : run.step = step) : Noticed run step ctx := by
  refine ⟨fun take _ => by rw [hsame], fun take _ => ⟨h.literal step hstep take, ?_, ?_⟩⟩
  · rw [hsame]
    exact h.literal step hstep take
  · intro paths hfed path hpath
    obtain ⟨planned, hplanned, rfl⟩ := Option.map_eq_some_iff.mp hfed
    rw [h.resolve_take hstep hplanned] at hpath
    rw [hsame]
    exact h.take_not_output hstep hplanned hpath

/-- What the takes of the last run were is what they are, if the check finds them as recorded and
their contents can be told apart. -/
theorem Repeatable.contents_kept (h : Repeatable flow plan) (hstep : step ∈ plan.steps)
    {disk : Disk} {run now : Attempt} {c : Fingerprints}
    (reached : Reached flow step disk stage ctx)
    (succeeded : run.fate = .succeeded) (accounted : Accounted c step.stage (some run))
    (fresh : (step.examine ctx stage.io.produces disk (some c)).1 = false) (hsame : run.step = step)
    (htakes : ∀ take, run.ctx.takes.get? take = ctx.takes.get? take) {journal : List Attempt}
    (apart : ToldApart journal) (hrun : run ∈ journal) (hnow : now ∈ journal) (hctx : now.ctx = ctx)
    (hdisk : now.before = disk) {take path : String} {v : Value}
    (hv : ctx.takes.get? take = some v) (hpath : path ∈ v.strings) :
    run.before.contentAt path = disk.contentAt path := by
  subst hctx hdisk
  have hplanned := h.bound_take hstep reached hv
  have hlook : (path, true) ∈ step.looks now.ctx :=
    PlanStep.mem_looks_bound.mpr ⟨take, v, v, Table.mem_of_get? hplanned, hv, hpath⟩
  have hlooked : (path, true) ∈ run.step.looks run.ctx := by
    rw [hsame]
    exact PlanStep.mem_looks_bound.mpr
      ⟨take, v, v, Table.mem_of_get? hplanned, (htakes take).trans hv, hpath⟩
  have hout : path ∉ run.step.outputPaths := by
    rw [hsame]
    exact h.take_not_output hstep hplanned hpath
  have hthen := accounted.bound run rfl succeeded path hout hlooked
  have hvisited := (PlanStep.examine_eq_false_iff.mp fresh).2.1 (path, true) hlook rfl
  exact apart _ (mem_occurring hrun ((htakes take).trans hv) hpath)
    _ (mem_occurring hnow hv hpath) (hthen.symm.trans (differs_eq_false_iff.mp hvisited).2)

/-- The outputs of a step that is passed over are those of the last run of its stage, which found
the same takes. -/
theorem Underway.made_of_skip (h : Repeatable flow plan)
    (way : Underway (onePlan flow plan) flow plan r host (step :: rest) report session log)
    (skips : Skips flow r report step host session)
    (reached : Reached flow step session.bench.disk stage ctx) {journal : List Attempt}
    (apart : ToldApart journal) (past : ∀ a ∈ log, a ∈ journal)
    (present : ∃ now ∈ journal, now.ctx = ctx ∧ now.before = session.bench.disk) :
    Made flow step stage ctx session.bench.disk session.bench.disk := by
  have hstep : step ∈ plan.steps := way.builds.2 step List.mem_cons_self
  have hnamed : ∀ f p, (onePlan flow plan).builds f p → f.Named := by
    rintro _ _ ⟨rfl, -⟩
    exact h.named
  obtain ⟨c, run, hcache, hrun, succeeded, accounted⟩ :=
    way.lastRun_of_skip hnamed skips reached (h.unreserved step hstep)
  obtain ⟨hmem, hstage, -⟩ := lastRun_eq_some hrun
  obtain ⟨-, -, hkept⟩ := (kept_invariant h).underway way
  obtain ⟨-, -, hentries⟩ := (entries_invariant (onePlan flow plan)).underway way
  obtain ⟨flow, plan, found, ⟨rfl, rfl⟩, hrunStep, happened⟩ := hentries run hmem
  have hsame : run.step = step := h.stage_injective hstep hrunStep hstage
  have earlier := happened.reached
  rw [hsame] at earlier
  have hfound : found = stage := Option.some.inj (earlier.known.symm.trans reached.known)
  subst hfound
  have fresh := skips.fresh reached
  rw [hcache] at fresh
  have htakes := h.takes_eq hstep reached earlier
    ((reached.takes_eq_iff happened.reached succeeded accounted fresh).mpr (h.noticed hstep hsame))
  have hthere : ∀ path ∈ step.outputPaths, session.bench.disk.exists? path = true :=
    fun path hpath => (PlanStep.examine_eq_false_iff.mp fresh).2.2 path
      (h.mandatory hstep reached.known hpath)
  obtain ⟨or, ohost, bench, ran, hafter⟩ := happened.ran succeeded
  obtain ⟨now, hnow, hctx, hdisk⟩ := present
  refine ⟨hthere, or, run.ctx, ohost, run.before, bench, earlier, ran, hkept.cwd run hmem, htakes,
    fun take v hv path hpath => ?_, fun path hpath => ?_⟩
  · exact h.contents_kept hstep reached succeeded accounted fresh hsame htakes apart
      (past run hmem) hnow hctx hdisk hv hpath
  · rw [hafter]
    refine (hkept.outputs step hstep run hrun succeeded path hpath).resolve_left ?_
    exact (Disk.exists?_iff _ _).mp (hthere path hpath)

/-- Every step that comes to its end leaves its outputs made of the present takes. -/
theorem Underway.made (h : Repeatable flow plan)
    (way : Underway (onePlan flow plan) flow plan r host (step :: rest) report session log)
    {next : BuildReport} {after : Session}
    (hrun : runStep flow r report step host session = .ok next after) {journal : List Attempt}
    (apart : ToldApart journal)
    (told : ∀ a ∈ (attempt? flow step report session
      (runStep flow r report step host session)).toList ++ log, a ∈ journal) :
    ∃ stage ctx, Reached flow step session.bench.disk stage ctx ∧
      Made flow step stage ctx session.bench.disk after.bench.disk := by
  have hstep : step ∈ plan.steps := way.builds.2 step List.mem_cons_self
  have hcases := runStep_cases flow r report step host session
  generalize hresult : runStep flow r report step host session = result at hcases told
  cases hcases with
  | unbuilt => cases hrun.symm.trans hresult
  | failed => cases hrun.symm.trans hresult
  | incomplete => cases hrun.symm.trans hresult
  | skipped stage ctx bench reached fresh kept =>
    cases hrun.symm.trans hresult
    rw [attempt?_of_reached reached] at told
    refine ⟨stage, ctx, reached, ?_⟩
    simp only [kept]
    exact way.made_of_skip h ⟨_, hresult⟩ reached apart
      (fun a ha => told a (List.mem_append_right _ ha))
      ⟨_, told _ (List.mem_append_left _ (Option.mem_toList.mpr rfl)), rfl, rfl⟩
  | succeeded stage ctx bench ended reached stale ran complete kept =>
    cases hrun.symm.trans hresult
    refine ⟨stage, ctx, reached, fun path hpath => ?_, r, ctx, host, session.bench.disk, bench,
      reached, ran, rfl, fun _ => rfl, fun _ _ _ _ _ => rfl, fun path _ => ?_⟩
    · simp only [kept]
      exact complete path (h.mandatory hstep reached.known hpath)
    · simp only [kept]

end

section
variable {flow : Flow} {plan : Plan} {r : Reporter} {host : Host} {step : PlanStep}
  {report : BuildReport} {stage : Stage} {ctx : Context} {disk after other : Disk}

/-- A run of a module on the same takes leaves what has been made of them. -/
theorem Made.agrees {paths : List String} (deterministic : Deterministic flow paths step)
    (made : Made flow step stage ctx disk after) (reached : Reached flow step other stage ctx)
    (hcwd : other.cwd = disk.cwd)
    (hsame : ∀ take v, ctx.takes.get? take = some v → ∀ path ∈ v.strings,
      other.contentAt path = disk.contentAt path) {bench : Bench}
    (ran : stage.Ran r ctx host other (.ok () bench)) :
    ∀ path ∈ step.outputPaths, bench.disk.contentAt path = after.contentAt path := by
  obtain ⟨-, or, octx, ohost, before, obench, oreached, oran, hbefore, htakes, hcontents, hout⟩ :=
    made
  intro path hpath
  rw [hout path hpath]
  refine deterministic.leaves oreached reached oran ran (hcwd.trans hbefore.symm)
    (fun take => (htakes take).symm) (fun take v hv path hpath => ?_) path hpath
  rw [htakes] at hv
  rw [hsame take v hv path hpath, hcontents take v hv path hpath]

/-- Without records a step whose takes are the same either fails in its module or makes the same
outputs. -/
theorem Made.rerun {paths : List String} (deterministic : Deterministic flow paths step)
    (made : Made flow step stage ctx disk after) (r : Reporter) (host : Host)
    (report : BuildReport) {bench : Bench} (reached : Reached flow step bench.disk stage ctx)
    (hcwd : bench.disk.cwd = disk.cwd)
    (hsame : ∀ take v, ctx.takes.get? take = some v → ∀ path ∈ v.strings,
      bench.disk.contentAt path = disk.contentAt path) :
    (∃ cause failed after, stage.Ran r ctx host bench.disk (.error cause failed) ∧
      runStep flow r report step host ⟨bench, none⟩ =
        .error (.stage stage.name .exec cause) after) ∨
    ∃ next ended, runStep flow r report step host ⟨bench, none⟩ = .ok next ⟨ended, none⟩ ∧
      ∀ path ∈ step.outputPaths, ended.disk.contentAt path = after.contentAt path := by
  have hcases := runStep_cases flow r report step host ⟨bench, none⟩
  generalize runStep flow r report step host ⟨bench, none⟩ = result at hcases
  cases hcases with
  | unbuilt cause unreached => exact absurd reached (unreached stage ctx)
  | skipped found octx ended oreached fresh kept => cases fresh
  | failed found octx ended cause oreached stale ran =>
    obtain ⟨rfl, rfl⟩ := reached.unique oreached
    exact Or.inl ⟨cause, ended, _, ran, rfl⟩
  | incomplete found octx ended product path noted oreached stale ran planned strict gone =>
    obtain ⟨rfl, rfl⟩ := reached.unique oreached
    have hout := productPaths_subset
      (PlanStep.mem_productPaths.mpr ⟨product, PlanStep.mem_products.mp planned⟩)
    have hthere := made.there path hout
    rw [← Disk.exists?_congr (made.agrees deterministic reached hcwd hsame ran path hout)] at hthere
    rw [gone] at hthere
    cases hthere
  | succeeded found octx ended last oreached stale ran complete kept =>
    obtain ⟨rfl, rfl⟩ := reached.unique oreached
    refine Or.inr ⟨_, last, rfl, fun path hpath => ?_⟩
    rw [kept]
    exact made.agrees deterministic reached hcwd hsame ran path hpath

end

/-- Two disks that agree on the sources of a plan and on the outputs of the steps that are done. -/
structure Plan.Alike (plan : Plan) (done : List PlanStep) (disk other : Disk) : Prop where
  cwd : other.cwd = disk.cwd
  sources : ∀ path, plan.IsSource path → other.contentAt path = disk.contentAt path
  outputs : ∀ step ∈ done, ∀ path ∈ step.outputPaths, other.contentAt path = disk.contentAt path

/-- A result that is the failure of a module which ran for some step. -/
def FailsInModule {α : Type} (flow : Flow) (steps : List PlanStep) (r : Reporter) (host : Host)
    (result : EStateM.Result Failure Session α) : Prop :=
  ∃ step ∈ steps, ∃ disk stage ctx cause bench after, Reached flow step disk stage ctx ∧
    stage.Ran r ctx host disk (.error cause bench) ∧
    result = .error (.stage stage.name .exec cause) after

namespace Plan.Alike
variable {flow : Flow} {plan : Plan} {before rest : List PlanStep} {step : PlanStep}
  {disk other : Disk}

/-- The takes of the next step stand on both disks as on the other. -/
theorem takes (alike : plan.Alike before disk other) (order : plan.steps = before ++ step :: rest)
    {take path : String} {v : Value} (hv : step.inputs.takes.get? take = some v)
    (hpath : path ∈ v.strings) : other.contentAt path = disk.contentAt path := by
  rcases Repeatable.take_cases order hv hpath with ⟨earlier, hmem, hout⟩ | hsource
  · exact alike.outputs earlier hmem path hout
  · exact alike.sources path hsource

/-- The next step gets the same context on both. -/
theorem reached (h : Repeatable flow plan) (alike : plan.Alike before disk other)
    (order : plan.steps = before ++ step :: rest) (hstep : step ∈ plan.steps) {stage : Stage}
    {ctx : Context} (hreached : Reached flow step disk stage ctx) :
    Reached flow step other stage ctx := by
  refine ⟨hreached.known, Context.build_congr hreached.built alike.cwd fun name => ?_⟩
  refine Context.takeOn_congr fun d v _ hv _ => ?_
  rw [h.resolve_take hstep hv, Disk.holds_congr fun path hpath =>
    Disk.exists?_congr (alike.takes order hv hpath)]

/-- A step that makes the same outputs on both keeps them alike. -/
theorem next (h : Repeatable flow plan) (alike : plan.Alike before disk other)
    (order : plan.steps = before ++ step :: rest) (hstep : step ∈ plan.steps) {after oafter : Disk}
    (hcwd : after.cwd = disk.cwd) (hocwd : oafter.cwd = other.cwd)
    (hkept : ∀ path ∈ plan.files, path ∉ step.outputPaths →
      after.contentAt path = disk.contentAt path)
    (hokept : ∀ path ∈ plan.files, path ∉ step.outputPaths →
      oafter.contentAt path = other.contentAt path)
    (hmade : ∀ path ∈ step.outputPaths, oafter.contentAt path = after.contentAt path) :
    plan.Alike (before ++ [step]) after oafter := by
  refine ⟨by rw [hocwd, hcwd, alike.cwd], fun path hsource => ?_, fun other hother path hpath => ?_⟩
  · have hout : path ∉ step.outputPaths := fun hout => h.sources step hstep path hout hsource
    have hfile := h.source_mem_files hsource
    rw [hokept path hfile hout, hkept path hfile hout, alike.sources path hsource]
  · rcases List.mem_append.mp hother with hother | hother
    · obtain ⟨hearlier, hne⟩ := h.earlier_ne order hother
      have hout : path ∉ step.outputPaths :=
        h.apart other hearlier step hstep (Ne.symm hne) path hpath
      have hfile := Repeatable.output_mem_files hearlier hpath
      rw [hokept path hfile hout, hkept path hfile hout, alike.outputs other hother path hpath]
    · rw [List.mem_singleton.mp hother] at hpath
      exact hmade path hpath

/-- A step that comes to its end with records either fails without them, in its module, or comes to
its end there too, and both disks stay alike. -/
theorem run_step (h : Repeatable flow plan) {r : Reporter} {host : Host} (cr : Reporter)
    (chost : Host) (creport : BuildReport) {journal : List Attempt} (apart : ToldApart journal)
    {report report' : BuildReport} {session after : Session} {cbench : Bench} {log : List Attempt}
    (order : plan.steps = before ++ step :: rest)
    (way : Underway (onePlan flow plan) flow plan r host (step :: rest) report session log)
    (told : ∀ a ∈ (attempt? flow step report session
      (runStep flow r report step host session)).toList ++ log, a ∈ journal)
    (hrun : runStep flow r report step host session = .ok report' after)
    (alike : plan.Alike before session.bench.disk cbench.disk) :
    (∃ stage ctx cause bench failed, Reached flow step cbench.disk stage ctx ∧
      stage.Ran cr ctx chost cbench.disk (.error cause bench) ∧
      runStep flow cr creport step chost ⟨cbench, none⟩ =
        .error (.stage stage.name .exec cause) failed) ∨
    ∃ next ended, runStep flow cr creport step chost ⟨cbench, none⟩ = .ok next ⟨ended, none⟩ ∧
      plan.Alike (before ++ [step]) after.bench.disk ended.disk := by
  have hstep : step ∈ plan.steps := way.builds.2 step List.mem_cons_self
  obtain ⟨stage, ctx, hreached, made⟩ := way.made h hrun apart told
  have creached := alike.reached h order hstep hreached
  have hsame : ∀ take v, ctx.takes.get? take = some v → ∀ path ∈ v.strings,
      cbench.disk.contentAt path = session.bench.disk.contentAt path :=
    fun take v hv path hpath => alike.takes order (h.bound_take hstep hreached hv) hpath
  rcases made.rerun (h.deterministic step hstep) cr chost creport creached alike.cwd hsame with
    ⟨cause, bench, failed, ran, hfails⟩ | ⟨next, ended, hclean, hmade⟩
  · exact Or.inl ⟨stage, ctx, cause, bench, failed, creached, ran, hfails⟩
  · obtain ⟨hcwd, hkept⟩ := (h.deterministic step hstep).step r host report session
    obtain ⟨hocwd, hokept⟩ := (h.deterministic step hstep).step cr chost creport ⟨cbench, none⟩
    rw [hrun] at hcwd hkept
    rw [hclean] at hocwd hokept
    exact Or.inr ⟨next, ended, hclean, alike.next h order hstep hcwd hocwd hkept hokept hmade⟩

/-- Over the remaining steps a build without records either fails in a module or stays like the one
with records. -/
theorem steps (h : Repeatable flow plan) {r : Reporter} {host : Host} (cr : Reporter)
    (chost : Host) {start : Session} {journal : List Attempt} (apart : ToldApart journal)
    {report last creport : BuildReport} {session after : Session} {cbench : Bench}
    {log : List Attempt} (order : plan.steps = before ++ rest)
    (way : Underway (onePlan flow plan) flow plan r host rest report session log)
    (told : ∀ a ∈ trail flow r host rest report session ++ log, a ∈ journal)
    (hrun : rest.foldlM (runStep flow r) report host session = .ok last after)
    (sofar : before.foldlM (runStep flow cr) {} chost start = .ok creport ⟨cbench, none⟩)
    (alike : plan.Alike before session.bench.disk cbench.disk) :
    FailsInModule flow plan.steps cr chost
      (plan.steps.foldlM (runStep flow cr) {} chost start) ∨
    ∃ ended bench, plan.steps.foldlM (runStep flow cr) {} chost start = .ok ended ⟨bench, none⟩ ∧
      plan.Alike plan.steps after.bench.disk bench.disk := by
  -- by the steps that are left; both builds and the journal are followed from step to step
  induction rest generalizing before report session log creport cbench with
  | nil =>
    cases hrun
    rw [List.append_nil] at order
    rw [order]
    exact Or.inr ⟨creport, cbench, sofar, order ▸ alike⟩
  | cons step rest ih =>
    have hstep : step ∈ plan.steps := way.builds.2 step List.mem_cons_self
    rw [foldlM_cons_run] at hrun
    cases hfirst : runStep flow r report step host session with
    | error cause failed =>
      rw [hfirst] at hrun
      cases hrun
    | ok next now =>
      rw [hfirst] at hrun
      rw [trail] at told
      simp only [hfirst, List.append_assoc] at told
      have hpast : ∀ a ∈ (attempt? flow step report session
          (runStep flow r report step host session)).toList ++ log, a ∈ journal := by
        rw [hfirst]
        exact fun a ha => told a (List.mem_append_right _ ha)
      have hway := way.next hfirst
      rw [hfirst] at hway
      rcases alike.run_step h cr chost creport apart order way hpast hfirst with
        ⟨stage, ctx, cause, bench, failed, reached, ran, hfails⟩ | ⟨cnext, ended, hclean, halike⟩
      · refine Or.inl ⟨step, hstep, _, stage, ctx, cause, bench, failed, reached, ran, ?_⟩
        rw [order, foldlM_append_run sofar, foldlM_cons_run, hfails]
      · have hdone := foldlM_snoc_run sofar step
        rw [hclean] at hdone
        exact ih (by rw [order, List.append_assoc]; rfl) hway told hrun hdone halike

theorem targetFiles (alike : plan.Alike plan.steps disk other) {path : String}
    (hpath : path ∈ plan.targetFiles) : other.contentAt path = disk.contentAt path := by
  obtain ⟨v, hv, hmem⟩ := Plan.mem_targetFiles.mp hpath
  by_cases hmade : ∃ step ∈ plan.steps, step.outputs.get? plan.target = some v
  · obtain ⟨step, hstep, hget⟩ := hmade
    exact alike.outputs step hstep path (PlanStep.mem_outputPaths.mpr
      ⟨v, List.mem_map.mpr ⟨(plan.target, v), Table.mem_of_get? hget, rfl⟩, hmem⟩)
  · exact alike.sources path
      (Or.inr ⟨v, hv, hmem, fun step hstep hget => hmade ⟨step, hstep, hget⟩⟩)

end Plan.Alike

/-- After any history of builds over one cache, a build that succeeds leaves in the files of the
target what a build without a cache leaves there, from the same sources and whatever else is on the
disk. The build without a cache succeeds too, unless a module fails in it. -/
theorem incremental_eq_clean {flow : Flow} {plan : Plan} {r : Reporter} {host : Host}
    {bench : Bench} {c : Fingerprints} {log : List Attempt} {report : BuildReport}
    {after : Session} (cr : Reporter) (chost : Host) (clean : Bench)
    (repeatable : Repeatable flow plan)
    (earlier : History (onePlan flow plan) bench.disk c log)
    (build : runPlan flow plan r host ⟨bench, some c⟩ = .ok report after)
    (apart : ToldApart (trail flow r host plan.steps {} ⟨bench, some c⟩ ++ log))
    (cwd : clean.disk.cwd = bench.disk.cwd)
    (sources : ∀ path, plan.IsSource path →
      clean.disk.contentAt path = bench.disk.contentAt path) :
    FailsInModule flow plan.steps cr chost (runPlan flow plan cr chost ⟨clean, none⟩) ∨
    ∃ creport cafter, runPlan flow plan cr chost ⟨clean, none⟩ = .ok creport cafter ∧
      ∀ path ∈ plan.targetFiles,
        after.bench.disk.contentAt path = cafter.bench.disk.contentAt path := by
  have way := Underway.begin plan r host earlier ⟨rfl, rfl⟩
  have alike : plan.Alike [] bench.disk clean.disk := ⟨cwd, sources, by simp⟩
  rcases runPlan_cases flow plan r host ⟨bench, some c⟩ with
    ⟨cause, failed, -, hrun⟩ | ⟨report, failed, -, -, hrun⟩ |
    ⟨done, ended, v, last, hsteps, htarget, hdisk, hrun⟩
  · cases build.symm.trans hrun
  · cases build.symm.trans hrun
  · cases build.symm.trans hrun
    rcases alike.steps repeatable cr chost apart rfl way (fun _ ha => ha) hsteps rfl with
      ⟨step, hstep, disk, stage, ctx, cause, bench, failed, reached, ran, hfails⟩ |
      ⟨cdone, cended, hclean, halike⟩
    · refine Or.inl ⟨step, hstep, disk, stage, ctx, cause, bench, failed, reached, ran, ?_⟩
      rw [runPlan, bind_run, hfails]
    · refine Or.inr ?_
      rcases runPlan_cases flow plan cr chost ⟨clean, none⟩ with
        ⟨cause, failed, hfailed, -⟩ | ⟨creport, failed, -, hnone, -⟩ |
        ⟨creport, cnow, w, clast, hcsteps, -, hcdisk, hcrun⟩
      · cases hclean.symm.trans hfailed
      · cases htarget.symm.trans hnone
      · cases hclean.symm.trans hcsteps
        refine ⟨_, _, hcrun, fun path hpath => ?_⟩
        dsimp only
        rw [hdisk, hcdisk, halike.targetFiles hpath]

/-- A disk after the source of the relay has been edited and what the first copy wrote deleted. -/
def Relay.edited (disk : Disk) : Disk :=
  { disk with
    entries := (disk.entries.erase "/mid").insert "/src" (.file (ByteArray.mk #[2]) false) }

/-- A relay whose source has been edited and whose intermediate copy has been deleted is built again
as if it had never been built. -/
theorem relay_incremental_eq_clean :
    ∃ plan c log bench report after creport cafter,
      Relay.flow.plan "out" none Relay.disk = .ok plan ∧
      History (onePlan Relay.flow plan) bench.disk c log ∧ log ≠ [] ∧
      runPlan Relay.flow plan Relay.silent Relay.host ⟨bench, some c⟩ = .ok report after ∧
      runPlan Relay.flow plan Relay.silent Relay.host ⟨⟨Relay.edited Relay.disk, "", 0⟩, none⟩ =
        .ok creport cafter ∧
      plan.targetFiles = ["/out"] ∧
      after.bench.disk.contentAt "/out" = cafter.bench.disk.contentAt "/out" := by
  have hchecks : okAnd (Relay.flow.plan "out" none Relay.disk) (fun plan =>
      plan.steps.all Relay.isCopy && plan.files.all isTopLevel &&
      Repeatable.isTidy Relay.flow plan && plan.targetFiles = ["/out"] &&
      doneAnd (runPlan Relay.flow plan Relay.silent Relay.host
        ⟨⟨Relay.edited Relay.disk, "", 0⟩, none⟩) (fun _ _ => true) &&
      builtAnd Relay.flow plan Relay.silent Relay.host ⟨Relay.disk, "", 0⟩ (.empty "c")
        fun _ bench c =>
      let start : Bench := { bench with disk := Relay.edited bench.disk }
      let first := trail Relay.flow Relay.silent Relay.host plan.steps {}
        ⟨⟨Relay.disk, "", 0⟩, some (.empty "c")⟩ ++ []
      !first.isEmpty && start.disk.cwd = bench.disk.cwd && start.disk.cwd = "/" &&
      (plan.steps.all fun step => step.outputPaths.all fun path =>
        start.disk.contentAt path = bench.disk.contentAt path ∨
          start.disk.contentAt path = .missing) &&
      ((Relay.flow.dependencies.values.flatMap Value.strings).all fun path =>
        (Relay.edited Relay.disk).contentAt path = start.disk.contentAt path) &&
      builtAnd Relay.flow plan Relay.silent Relay.host start c fun _ _ _ =>
        ToldApart (trail Relay.flow Relay.silent Relay.host plan.steps {} ⟨start, some c⟩ ++ first))
      = true := by
    decide +kernel
  obtain ⟨plan, hplan, hchecks⟩ := exists_of_okAnd hchecks
  simp only [Bool.and_eq_true] at hchecks
  obtain ⟨⟨⟨⟨⟨hcopies, htops⟩, htidy⟩, htarget⟩, hclean⟩, hbuilds⟩ := hchecks
  obtain ⟨creport, cafter, hclean, -⟩ := exists_of_doneAnd hclean
  obtain ⟨_, bench, c, hfirst, hchecks⟩ := exists_of_builtAnd hbuilds
  simp only [Bool.and_eq_true] at hchecks
  obtain ⟨⟨⟨⟨⟨hsome, hcwd⟩, hroot⟩, hkept⟩, hsources⟩, hsecond⟩ := hchecks
  obtain ⟨report, after, _, hbuild, hapart⟩ := exists_of_builtAnd hsecond
  have repeatable : Repeatable Relay.flow plan := .of_isTidy Relay.flow_named hplan htidy
    (Relay.deterministic hcopies htops)
  have start : History (onePlan Relay.flow plan) (⟨Relay.disk, "", 0⟩ : Bench).disk (.empty "c")
      [] := .start Relay.disk "c" trivial
  have earlier := History.edit (Relay.edited bench.disk) (start.ran ⟨rfl, rfl⟩ hfirst)
    ⟨of_decide_eq_true hcwd, fun step hstep path hpath => of_decide_eq_true
      (List.all_eq_true.mp (List.all_eq_true.mp hkept step hstep) path hpath)⟩
  have hsame : ∀ path, plan.IsSource path →
      (Relay.edited Relay.disk).contentAt path = (Relay.edited bench.disk).contentAt path :=
    fun path hpath => of_decide_eq_true (List.all_eq_true.mp hsources path
      (Repeatable.source_bound Relay.flow_named hplan hpath))
  rcases incremental_eq_clean Relay.silent Relay.host
    ⟨Relay.edited Relay.disk, "", 0⟩ repeatable earlier hbuild (of_decide_eq_true hapart)
    (of_decide_eq_true hroot).symm hsame with
    ⟨_, _, _, _, _, _, _, _, _, _, hfails⟩ | ⟨_, _, hrun, hfiles⟩
  · cases hclean.symm.trans hfails
  · cases hclean.symm.trans hrun
    refine ⟨plan, c, _, _, report, _, creport, cafter, hplan, earlier, ?_, hbuild, hclean,
      of_decide_eq_true htarget, hfiles "/out" ?_⟩
    · simpa using hsome
    · rw [of_decide_eq_true htarget]
      exact List.mem_singleton_self _

end Toolflow
