import Toolflow.Proofs.Copying
import Toolflow.Proofs.Journal
import Toolflow.Proofs.MovedFiles
import Toolflow.Proofs.Planning
import Toolflow.Proofs.Saving

/-! Stages that fail.

The check before a run records the takes of a stage before its module has done anything, so a
failure has to take the records of the stage back. Nothing else is lost: a step touches the records
of its own stage and those of products. A stage without records is never passed over, and a later
build finds none, whether it goes on with the cache or loads it from where it was saved. A cache
that has not changed is not written, so its file has to be in step with it. Calls keep a loaded
cache so, and a build only calls its cache: the file brings no record of a failed stage back unless
somebody else has written it. -/
namespace Toolflow

open Fingerprints Build

/-- A build comes to a step, after the steps in front of it, and finds its stage and a context. -/
structure Arrives (flow : Flow) (plan : Plan) (r : Reporter) (host : Host) (start : Session)
    (before : List PlanStep) (step : PlanStep) (report : BuildReport) (session : Session)
    (stage : Stage) (ctx : Context) : Prop where
  order : ∃ rest, plan.steps = before ++ step :: rest
  sofar : before.foldlM (runStep flow r) {} host start = .ok report session
  reached : Reached flow step session.bench.disk stage ctx

/-- Why a step fails that has a context: its module fails, or leaves out a product that has to be
there. -/
inductive Blame (stage : Stage) (step : PlanStep) (r : Reporter) (ctx : Context) (host : Host)
    (disk : Disk) : Failure → Bench → Prop
  | module (why : Failure) (bench : Bench) (ran : stage.Ran r ctx host disk (.error why bench)) :
      Blame stage step r ctx host disk (.stage step.stage .exec why) bench
  | product (d : Declared) (path : String) (bench : Bench)
      (ran : stage.Ran r ctx host disk (.ok () bench))
      (planned : (d, path) ∈ step.products stage.io.produces)
      (strict : d.strictness ≠ .optional) (gone : bench.disk.exists? path = false) :
      Blame stage step r ctx host disk
        (.stage step.stage .exec (.fault (.productMissing d.name path))) bench

/-- The module of a step is run, and if the build goes on it reports the stage as executed. -/
def Executes (flow : Flow) (r : Reporter) (report : BuildReport) (step : PlanStep) (host : Host)
    (session : Session) : Prop :=
  ∃ (stage : Stage) (ctx : Context) (result : EStateM.Result Failure Bench Unit),
    Reached flow step session.bench.disk stage ctx ∧
    stage.Ran r ctx host session.bench.disk result ∧
    (last (runStep flow r report step host session)).bench.disk = (last result).disk ∧
    ∀ next after, runStep flow r report step host session = .ok next after →
      next = { report with executed := report.executed ++ [step.stage] }

section
variable {flow : Flow} {r : Reporter} {host : Host} {step : PlanStep} {report next : BuildReport}
  {bench : Bench} {session after : Session} {c : Fingerprints} {stage : Stage} {ctx : Context}

theorem examine_called (c : Fingerprints) (step : PlanStep) (ctx : Context)
    (produces : List Declared) (disk : Disk) :
    ∃ swept, (step.examine ctx produces disk (some c)).2 = some swept ∧
      Called [targetConsumer, step.stage] c swept :=
  ⟨_, rfl, (called_sweep c disk (by simp) (step.looks ctx)).trans
    (called_noteThere _ disk (by simp) _)⟩

/-- A step that comes to its end has called the cache for its own stage and for products. -/
theorem runStep_called
    (run : runStep flow r report step host ⟨bench, some c⟩ = .ok next after) :
    ∃ records, after.cache = some records ∧ Called [targetConsumer, step.stage] c records := by
  have hcases := runStep_cases flow r report step host ⟨bench, some c⟩
  rw [run] at hcases
  cases hcases with
  | skipped stage ctx ended reached fresh kept =>
    exact examine_called c step ctx stage.io.produces bench.disk
  | succeeded stage ctx ran ended reached stale hran complete kept =>
    obtain ⟨swept, hswept, called⟩ := examine_called c step ctx stage.io.produces bench.disk
    have own : step.stage ∈ [targetConsumer, step.stage] := by simp
    exact ⟨_, by simp [hswept], called.trans
      (called_noteThere swept ran.disk own (step.productPaths stage.io.produces))⟩

/-- The steps of a build call the cache for their own stages and for products. -/
theorem runSteps_called {before : List PlanStep}
    (run : before.foldlM (runStep flow r) report host ⟨bench, some c⟩ = .ok next after) :
    ∃ records, after.cache = some records ∧
      Called (targetConsumer :: before.map PlanStep.stage) c records := by
  induction before generalizing report bench c with
  | nil =>
    cases run
    exact ⟨c, rfl, .refl _ c⟩
  | cons step rest ih =>
    rw [foldlM_cons_run] at run
    cases hstep : runStep flow r report step host ⟨bench, some c⟩ with
    | error cause failed =>
      rw [hstep] at run
      cases run
    | ok between session =>
      rw [hstep] at run
      obtain ⟨records, hcache, called⟩ := runStep_called hstep
      obtain ⟨present, cache⟩ := session
      cases hcache
      obtain ⟨final, hfinal, hrest⟩ := ih run
      exact ⟨final, hfinal, (called.mono (by simp)).trans
        (hrest.mono (List.cons_subset_cons _ (List.subset_cons_self ..)))⟩

/-- A step that fails although it has a context leaves no record of its stage, and has called the
cache for nothing else but products. -/
theorem runStep_fails (named : flow.Named) (orderly : c.Orderly)
    (reached : Reached flow step bench.disk stage ctx) {cause : Failure}
    (fails : runStep flow r report step host ⟨bench, some c⟩ = .error cause after) :
    Blame stage step r ctx host bench.disk cause after.bench ∧
      ∃ kept, after.cache = some kept ∧ (∀ path, kept.record? path step.stage = none) ∧
        Called [targetConsumer, step.stage] c kept := by
  have own : step.stage ∈ [targetConsumer, step.stage] := by simp
  have hcases := runStep_cases flow r report step host ⟨bench, some c⟩
  rw [fails] at hcases
  cases hcases with
  | unbuilt cause unreached => exact absurd reached (unreached stage ctx)
  | failed found octx broken why oreached stale ran =>
    obtain ⟨rfl, rfl⟩ := reached.unique oreached
    obtain ⟨swept, hswept, called⟩ := examine_called c step octx found.io.produces bench.disk
    rw [named _ _ reached.known]
    exact ⟨.module why broken ran, swept.forget step.stage, by simp [hswept],
      (forget_spec (called.kept orderly).1 step.stage).2.1,
      called.trans (called_forget swept own)⟩
  | incomplete found octx done product path noted oreached stale ran planned strict gone =>
    obtain ⟨rfl, rfl⟩ := reached.unique oreached
    obtain ⟨swept, hswept, called⟩ := examine_called c step octx found.io.produces bench.disk
    have hnoted := called.trans (called_noteThere swept done.disk own noted)
    exact ⟨.product product path done ran planned strict gone, _, by simp [hswept],
      (forget_spec (hnoted.kept orderly).1 step.stage).2.1,
      hnoted.trans (called_forget _ own)⟩

/-- A stage without records is not passed over. -/
theorem executes_of_unknown (reached : Reached flow step bench.disk stage ctx)
    (unknown : c.hasConsumer step.stage = false) (r : Reporter) (report : BuildReport)
    (host : Host) : Executes flow r report step host ⟨bench, some c⟩ := by
  have hstale : ∀ octx produces, (step.examine octx produces bench.disk (some c)).1 = true := by
    intro octx produces
    simp [PlanStep.examine, unknown]
  unfold Executes
  have hcases := runStep_cases flow r report step host ⟨bench, some c⟩
  generalize runStep flow r report step host ⟨bench, some c⟩ = result at hcases ⊢
  cases hcases with
  | unbuilt cause unreached => exact absurd reached (unreached stage ctx)
  | skipped found octx ended oreached fresh kept => cases fresh.symm.trans (hstale octx _)
  | failed found octx broken why oreached stale ran =>
    exact ⟨found, octx, _, oreached, ran, rfl, fun _ _ h => by cases h⟩
  | incomplete found octx done product path noted oreached stale ran planned strict gone =>
    exact ⟨found, octx, _, oreached, ran, rfl, fun _ _ h => by cases h⟩
  | succeeded found octx done ended oreached stale ran complete kept =>
    refine ⟨found, octx, _, oreached, ran, kept, fun _ _ h => ?_⟩
    cases h
    rfl

end

/-- The caches with which a build may go on: the one at hand, or what is loaded after it has been
saved. A cache that has not changed is not written, so its file must not know the consumer. -/
inductive Fingerprints.Resumes (consumer : String) (c : Fingerprints) : Fingerprints → Prop
  | kept : Resumes consumer c c
  | loaded (disk after : Disk) (saved : Fingerprints) (ascending : disk.entries.Ascending)
      (save : c.save disk = .ok (saved, after))
      (written : c.dirty = true ∨ (load disk c.path).hasConsumer consumer = false) :
      Resumes consumer c (load after c.path)

/-- A consumer without records has none later. -/
theorem Fingerprints.Resumes.unknown {consumer : String} {c next : Fingerprints}
    (h : c.Resumes consumer next) (orderly : c.Orderly) (unknown : c.hasConsumer consumer = false) :
    next.Orderly ∧ next.hasConsumer consumer = false := by
  cases h with
  | kept => exact ⟨orderly, unknown⟩
  | loaded disk after saved ascending save written =>
    refine ⟨orderly_load after c.path, ?_⟩
    by_contra hknown
    rw [Bool.not_eq_false] at hknown
    by_cases dirty : c.dirty = true
    · cases unknown.symm.trans (hasConsumer_of_saved ascending dirty save hknown)
    · rw [save_clean (by simpa using dirty)] at save
      cases save
      cases (written.resolve_left dirty).symm.trans hknown

section
variable {flow : Flow} {plan : Plan} {r : Reporter} {host : Host} {bench : Bench}
  {c : Fingerprints} {before : List PlanStep} {step : PlanStep} {report : BuildReport}
  {mid failed : Session} {stage : Stage} {ctx : Context} {cause : Failure}

/-- A step whose stage has no records is executed, whatever has been built in front of it. -/
theorem Arrives.executes
    (arrives : Arrives flow plan r host ⟨bench, some c⟩ before step report mid stage ctx)
    (orderly : c.Orderly) (notTarget : step.stage ≠ targetConsumer)
    (new : step.stage ∉ before.map PlanStep.stage) (unknown : c.hasConsumer step.stage = false) :
    Executes flow r report step host mid := by
  obtain ⟨records, hcache, called⟩ := runSteps_called arrives.sofar
  obtain ⟨present, cache⟩ := mid
  cases hcache
  obtain ⟨horderly, hkept⟩ := called.kept orderly
  refine executes_of_unknown arrives.reached ?_ r report host
  rw [hasConsumer_eq_false_iff horderly]
  rw [hasConsumer_eq_false_iff orderly] at unknown
  exact fun path => (hkept path _ (by simp [notTarget, new])).trans (unknown path)

/-- What has been reported as executed stays reported. -/
theorem runSteps_executed {steps : List PlanStep} {start after : Session} {next : BuildReport}
    (run : steps.foldlM (runStep flow r) report host start = .ok next after) :
    report.executed ⊆ next.executed := by
  induction steps generalizing report start with
  | nil =>
    cases run
    exact List.Subset.refl _
  | cons step rest ih =>
    rw [foldlM_cons_run] at run
    have hcases := runStep_cases flow r report step host start
    generalize runStep flow r report step host start = result at run hcases
    cases hcases with
    | unbuilt => cases run
    | skipped =>
      have hrest := ih run
      exact hrest
    | failed => cases run
    | incomplete => cases run
    | succeeded =>
      have hrest := ih run
      exact fun name hname => hrest (List.mem_append_left _ hname)

/-- A build that has executed a step reports its stage. -/
theorem Arrives.reported {start after : Session} {final : BuildReport}
    (arrives : Arrives flow plan r host start before step report mid stage ctx)
    (executes : Executes flow r report step host mid)
    (run : runPlan flow plan r host start = .ok final after) : step.stage ∈ final.executed := by
  obtain ⟨rest, horder⟩ := arrives.order
  obtain ⟨-, -, -, -, -, -, hreports⟩ := executes
  rcases runPlan_cases flow plan r host start with
    ⟨_, _, -, hrun⟩ | ⟨_, _, -, -, hrun⟩ | ⟨_, _, _, _, hsteps, -, -, hrun⟩
  · cases run.symm.trans hrun
  · cases run.symm.trans hrun
  · cases run.symm.trans hrun
    rw [horder, foldlM_append_run arrives.sofar, foldlM_cons_run] at hsteps
    cases hstep : runStep flow r report step host mid with
    | error cause failed =>
      rw [hstep] at hsteps
      cases hsteps
    | ok next session =>
      rw [hstep] at hsteps
      refine runSteps_executed hsteps ?_
      rw [hreports next session hstep]
      exact List.mem_append_right _ (List.mem_singleton_self _)

/-- A build ends where one of its steps fails. -/
theorem Arrives.run_fails {start : Session}
    (arrives : Arrives flow plan r host start before step report mid stage ctx)
    (fails : runStep flow r report step host mid = .error cause failed) :
    runPlan flow plan r host start = .error cause failed := by
  obtain ⟨rest, horder⟩ := arrives.order
  have hsteps : plan.steps.foldlM (runStep flow r) {} host start = .error cause failed := by
    rw [horder, foldlM_append_run arrives.sofar, foldlM_cons_run, fails]
  rcases runPlan_cases flow plan r host start with
    ⟨_, _, hfold, hrun⟩ | ⟨_, _, hfold, -, -⟩ | ⟨_, _, _, _, hfold, -, -, -⟩
  · cases hsteps.symm.trans hfold
    exact hrun
  · cases hsteps.symm.trans hfold
  · cases hsteps.symm.trans hfold

/-- A stage that fails keeps no record, the build loses no record of a stage it has not come to, and
the next build that comes to the stage executes it, with the cache at hand or with a saved one. A
cache that was loaded from a file nobody else has written since may be saved: it has changed, or the
file has no record of the stage either. -/
theorem failed_stage_runs_again (named : flow.Named)
    (unreserved : flow.stages.get? targetConsumer = none) (orderly : c.Orderly)
    (arrives : Arrives flow plan r host ⟨bench, some c⟩ before step report mid stage ctx)
    (fails : runStep flow r report step host mid = .error cause failed) :
    runPlan flow plan r host ⟨bench, some c⟩ = .error cause failed ∧
    Blame stage step r ctx host mid.bench.disk cause failed.bench ∧
    ∃ kept, failed.cache = some kept ∧ (∀ path, kept.record? path step.stage = none) ∧
      (∀ path s, s ≠ targetConsumer → s ∉ (before ++ [step]).map PlanStep.stage →
        kept.record? path s = c.record? path s) ∧
      (∀ p origin disk, Lifetime p c origin →
        (disk.read p).toOption = (origin.read p).toOption →
        kept.dirty = true ∨ (load disk kept.path).hasConsumer step.stage = false) ∧
      ∀ next, kept.Resumes step.stage next →
        ∀ later plans or ohost obench front again sofar there found octx,
          Arrives later plans or ohost ⟨obench, some next⟩ front again sofar there found octx →
          again.stage = step.stage → again.stage ∉ front.map PlanStep.stage →
          Executes later or sofar again ohost there ∧
            ∀ final after, runPlan later plans or ohost ⟨obench, some next⟩ = .ok final after →
              step.stage ∈ final.executed := by
  obtain ⟨records, hcache, hbefore⟩ := runSteps_called arrives.sofar
  obtain ⟨present, cache⟩ := mid
  cases hcache
  obtain ⟨hblame, kept, hkept, hnone, hstep⟩ :=
    runStep_fails named (hbefore.kept orderly).1 arrives.reached fails
  have called : Called (targetConsumer :: (before ++ [step]).map PlanStep.stage) c kept :=
    (hbefore.mono (by simp)).trans (hstep.mono (by simp))
  obtain ⟨horderly, hspared⟩ := called.kept orderly
  have notTarget : step.stage ≠ targetConsumer := by
    intro heq
    cases (heq ▸ unreserved).symm.trans arrives.reached.known
  have hunknown := (hasConsumer_eq_false_iff horderly step.stage).mpr hnone
  refine ⟨arrives.run_fails fails, hblame, kept, hkept, hnone, fun path s hs hother => ?_,
    fun p origin disk lifetime same => ?_, ?_⟩
  · refine hspared path s fun hmem => ?_
    exact (List.mem_cons.mp hmem).elim hs hother
  · exact (lifetime.calls called).kept.unknown same hunknown
  · intro next hnext later plans or ohost obench front again sofar there found octx harrives hstage
      hfront
    obtain ⟨hnorderly, hnunknown⟩ := hnext.unknown horderly hunknown
    have hexecutes :=
      harrives.executes hnorderly (hstage ▸ notTarget) hfront (hstage ▸ hnunknown)
    exact ⟨hexecutes, fun final after hrun => hstage ▸ harrives.reported hexecutes hrun⟩

end

/-! A flow of one stage whose module fails after it has written its product. -/
namespace Spoiled

def spoiler : ToolModule where
  io := { name := "gen", produces := [.required "out"] }
  outputs _ := .ok (Table.empty.insert "out" (.str "/out"))
  execute _ _ := do
    Exec.change (.writing "/out") (·.write "/out" .empty)
    throw (.program "gen" (.exit 1) "")

def flow : Flow where
  part := "part"
  platform := "spoiled"
  stages := Table.ofList [("gen", ⟨"gen", "spoiled:gen", spoiler, .empty, .empty⟩)]
  dependencies := .empty
  defaultTarget := none
  roots := {}

def records : Table (Table String) :=
  Table.ofList [("/x", Table.ofList [("gen", "1"), ("other", "2")])]

/-- A disk with a file of records. -/
def disk : Disk where
  entries := Table.ofList [("/", .directory), ("/c", .file (Json.render records).toUTF8 false)]
  cwd := "/"

theorem flow_named : flow.Named := Flow.named_of_all (by decide +kernel)

/-- A session on the given disk with records loaded from it. -/
def resumed (disk : Disk) : Session := ⟨⟨disk, "", 0⟩, some (load disk "/c")⟩

theorem reached_of_plan {plan : Plan} {disk : Disk} {step : PlanStep}
    (h : flow.plan "out" none disk = .ok plan) (hstep : plan.steps = [step]) :
    ∃ stage ctx, Reached flow step disk stage ctx := by
  obtain ⟨_, -, hbuilt⟩ := plan_built flow_named h
  obtain ⟨stage, ctx, -, reached, -⟩ := hbuilt step (by simp [hstep])
  exact ⟨stage, ctx, reached⟩

/-- The failing stage loses its record, the other keeps its own, and the next build of the flow
executes the stage on what was saved. -/
theorem spoiled_stage_runs_again :
    ∃ plan cause failed kept saved later again step,
      flow.plan "out" none disk = .ok plan ∧
      runPlan flow plan Relay.silent Relay.host (resumed disk) = .error cause failed ∧
      failed.cache = some kept ∧ kept.record? "/x" "gen" = none ∧
      kept.record? "/x" "other" = some "2" ∧
      kept.save failed.bench.disk = .ok (saved, later) ∧
      flow.plan "out" none later = .ok again ∧ again.steps = [step] ∧ step.stage = "gen" ∧
      Executes flow Relay.silent {} step Relay.host
        ⟨⟨later, "", 0⟩, some (load later kept.path)⟩ := by
  have hchecks : okAnd (flow.plan "out" none disk) (fun plan =>
      singleAnd plan.steps fun step => step.stage = "gen" &&
        failedAnd (runStep flow Relay.silent {} step Relay.host (resumed disk)) fun _ failed =>
          failed.bench.disk.entries.keys.Pairwise (· < ·) &&
          (failed.bench.disk.read "/c").toOption = (disk.read "/c").toOption &&
          failed.cache.any fun kept =>
            okAnd (kept.save failed.bench.disk) fun saved =>
              okAnd (flow.plan "out" none saved.2) fun again =>
                singleAnd again.steps fun step => step.stage = "gen") = true := by
    decide +kernel
  obtain ⟨plan, hplan, hchecks⟩ := exists_of_okAnd hchecks
  obtain ⟨step, hsteps, hchecks⟩ := exists_of_singleAnd hchecks
  obtain ⟨hstage, hchecks⟩ := Bool.and_eq_true_iff.mp hchecks
  obtain ⟨cause, failed, hfails, hchecks⟩ := exists_of_failedAnd hchecks
  obtain ⟨hdisk, hchecks⟩ := Bool.and_eq_true_iff.mp hchecks
  obtain ⟨hsorted, hread⟩ := Bool.and_eq_true_iff.mp hdisk
  have ascending : failed.bench.disk.entries.keys.Pairwise (· < ·) := of_decide_eq_true hsorted
  obtain ⟨kept, hcache, hchecks⟩ := (Option.any_eq_true _ _).mp hchecks
  obtain ⟨⟨saved, later⟩, hsave, hchecks⟩ := exists_of_okAnd hchecks
  obtain ⟨again, hagain, hchecks⟩ := exists_of_okAnd hchecks
  obtain ⟨next, hnext, hchecks⟩ := exists_of_singleAnd hchecks
  obtain ⟨stage, ctx, reached⟩ := reached_of_plan hplan hsteps
  obtain ⟨found, octx, oreached⟩ := reached_of_plan hagain hnext
  have hgen : step.stage = "gen" := of_decide_eq_true hstage
  have hgenagain : next.stage = "gen" := of_decide_eq_true hchecks
  have arrives : Arrives flow plan Relay.silent Relay.host (resumed disk) [] step {}
      (resumed disk) stage ctx := ⟨⟨[], hsteps⟩, rfl, reached⟩
  obtain ⟨hrun, -, records, hrecords, hnone, hsame, hfile, hlater⟩ :=
    failed_stage_runs_again flow_named (by decide +kernel) (orderly_load disk "/c") arrives hfails
  cases hcache.symm.trans hrecords
  -- the module has left the file of records alone
  have lifetime : Lifetime "/c" (load disk "/c") disk :=
    .loaded (Disk.isTree_spec (by decide +kernel))
  have written := hfile "/c" disk failed.bench.disk lifetime (of_decide_eq_true hread)
  refine ⟨plan, cause, failed, kept, saved, later, again, next, hplan, hrun, hcache,
    hgen ▸ hnone "/x", ?_, hsave, hagain, hnext, hgenagain, ?_⟩
  · rw [hsame "/x" "other" (by decide) (by simp [hgen])]
    decide +kernel
  · exact (hlater _ (.loaded failed.bench.disk later saved ascending hsave written) flow again
      Relay.silent Relay.host ⟨later, "", 0⟩ [] next {} _ found octx ⟨⟨[], hnext⟩, rfl, oreached⟩
      (hgenagain.trans hgen.symm) (by simp)).1

/-- A cache that was not loaded from its file is not written as long as it does not change, and the
file brings back the record of a stage that has failed since. -/
theorem unsaved_failure_skipped :
    ∃ plan failed kept saved later final,
      flow.plan "out" none disk = .ok plan ∧
      runPlan flow plan Relay.silent Relay.host ⟨⟨disk, "", 0⟩, some (.empty "/c")⟩ =
        .error (.stage "gen" .exec (.program "gen" (.exit 1) "")) failed ∧
      failed.cache = some kept ∧ kept.save failed.bench.disk = .ok (saved, later) ∧
      runPlan flow plan Relay.silent Relay.host ⟨⟨later, "", 0⟩, some (load later kept.path)⟩ =
        .ok { skipped := ["gen"] } final := by
  have hchecks : okAnd (flow.plan "out" none disk) (fun plan =>
      failedAnd (runPlan flow plan Relay.silent Relay.host ⟨⟨disk, "", 0⟩, some (.empty "/c")⟩)
        fun cause failed => cause = .stage "gen" .exec (.program "gen" (.exit 1) "") &&
          failed.cache.any fun kept => okAnd (kept.save failed.bench.disk) fun saved =>
            doneAnd (runPlan flow plan Relay.silent Relay.host
              ⟨⟨saved.2, "", 0⟩, some (load saved.2 kept.path)⟩) fun report _ =>
                report = { skipped := ["gen"] }) = true := by
    decide +kernel
  obtain ⟨plan, hplan, hchecks⟩ := exists_of_okAnd hchecks
  obtain ⟨cause, failed, hfails, hchecks⟩ := exists_of_failedAnd hchecks
  obtain ⟨hcause, hchecks⟩ := Bool.and_eq_true_iff.mp hchecks
  obtain ⟨kept, hcache, hchecks⟩ := (Option.any_eq_true _ _).mp hchecks
  obtain ⟨⟨saved, later⟩, hsave, hchecks⟩ := exists_of_okAnd hchecks
  obtain ⟨report, final, hrun, hreport⟩ := exists_of_doneAnd hchecks
  rw [of_decide_eq_true hcause] at hfails
  rw [of_decide_eq_true hreport] at hrun
  exact ⟨plan, failed, kept, saved, later, final, hplan, hfails, hcache, hsave, hrun⟩

end Spoiled
end Toolflow
