import Toolflow.Proofs.Journal
import Toolflow.Proofs.Predictions

/-! Builds against the predictions of their plan.

Planning reads the paths a step is fed with as they are written, while the check before a run reads
them as the stage resolves them. Where the first are all that the second can be, and a step that
writes a path of a later one feeds it under a name, no step runs that was expected to be skipped:
what such a step looks at has kept its content and its records since the plan was made. -/
namespace Toolflow

open Fingerprints Build

namespace PlanStep

/-- A context can bind the takes of a step to no paths but those that it is planned with. -/
def Legible (step : PlanStep) : Prop :=
  ∀ e ∈ step.inputs.takes.entries, ∀ path ∈ (step.env.resolve e.2).strings, path ∈ e.2.strings

instance (step : PlanStep) : Decidable step.Legible :=
  inferInstanceAs (Decidable (∀ e ∈ step.inputs.takes.entries,
    ∀ path ∈ (step.env.resolve e.2).strings, path ∈ e.2.strings))

/-- A step that writes a path of the other feeds it. -/
def Announces (earlier step : PlanStep) : Prop :=
  (∃ path ∈ earlier.outputPaths, path ∈ step.takePaths ∨ path ∈ step.outputPaths) →
    earlier.Feeds step

instance (earlier step : PlanStep) : Decidable (earlier.Announces step) :=
  inferInstanceAs (Decidable ((∃ path ∈ earlier.outputPaths,
    path ∈ step.takePaths ∨ path ∈ step.outputPaths) → earlier.Feeds step))

end PlanStep

/-- None of the given steps that have to run writes the path. -/
def Untouched (steps : List PlanStep) (path : String) : Prop :=
  ∀ step ∈ steps, step.required = true → path ∉ step.outputPaths

theorem Untouched.of_snoc {steps : List PlanStep} {step : PlanStep} {path : String}
    (h : Untouched (steps ++ [step]) path) :
    Untouched steps path ∧ (step.required = true → path ∉ step.outputPaths) :=
  ⟨fun earlier hearlier => h earlier (List.mem_append_left _ hearlier),
    h step (List.mem_append_right _ (List.mem_singleton_self _))⟩

/-- What is left of the disk and the records that a plan was made on, once the steps `before` have
come to their end: all that steps which have to run do not write. The records of the other steps may
have been renewed, but only to what stands at their paths. -/
structure Foreseen (plan : Plan) (before : List PlanStep) (c : Fingerprints) (disk : Disk)
    (records : Fingerprints) (now : Disk) : Prop where
  orderly : records.Orderly
  content : ∀ path ∈ plan.touched, Untouched before path →
    now.contentAt path = disk.contentAt path
  tracked : ∀ consumer ∉ before.map PlanStep.stage, ∀ path,
    (c.record? path consumer).isSome = true → (records.record? path consumer).isSome = true
  records : ∀ consumer ∉ before.map PlanStep.stage, ∀ path ∈ plan.touched, Untouched before path →
    records.record? path consumer = c.record? path consumer ∨
      disk.exists? path = true ∧ records.record? path consumer = (disk.contentAt path).print?

section
variable {flow : Flow} {plan : Plan} {before rest : List PlanStep} {step : PlanStep}
  {c records : Fingerprints} {disk now : Disk} {stage : Stage} {ctx : Context}

theorem Foreseen.start (plan : Plan) (orderly : c.Orderly) (disk : Disk) :
    Foreseen plan [] c disk c disk :=
  ⟨orderly, fun _ _ _ => rfl, fun _ _ _ h => h, fun _ _ _ _ _ => Or.inl rfl⟩

/-- A path that planning recorded as it is still is as it is recorded. -/
theorem Foreseen.same (h : Foreseen plan before c disk records now)
    (hstage : step.stage ∉ before.map PlanStep.stage) {path : String} (hpath : path ∈ plan.touched)
    (huntouched : Untouched before path) (hsame : c.differs disk step.stage path = false) :
    records.differs now step.stage path = false := by
  obtain ⟨hthere, hrecord⟩ := differs_eq_false_iff.mp hsame
  rw [differs_eq_false_iff, h.content path hpath huntouched]
  refine ⟨hthere, ?_⟩
  rcases h.records step.stage hstage path hpath huntouched with hkept | ⟨-, hprint⟩
  · rw [hkept, hrecord]
  · exact hprint

/-- A path is still there if it was. -/
theorem Foreseen.exists? (h : Foreseen plan before c disk records now) {path : String}
    (hpath : path ∈ plan.touched) (huntouched : Untouched before path) :
    now.exists? path = disk.exists? path :=
  Disk.exists?_congr (h.content path hpath huntouched)

/-- What planning expected of a step that it found idle calls for no run. -/
theorem Foreseen.passes (h : Foreseen plan before c disk records now)
    (hstage : step.stage ∉ before.map PlanStep.stage) (hstep : step ∈ plan.steps)
    (untouched : ∀ path ∈ step.takePaths, Untouched before path) (legible : step.Legible)
    (reached : Reached flow step now stage ctx)
    (fed : ∀ take planned, (take, planned) ∈ step.inputs.takes.entries →
      ∃ d ∈ stage.io.takes, d.name = take ∧ step.inputs.takes.get? d.name = some planned)
    (idle : step.Idle stage.io c disk) {look : String × Bool} (hlook : look ∈ step.looks ctx)
    (hvisit : records.visits step.stage look = true) :
    records.differs now step.stage look.1 = false := by
  obtain ⟨path, isBound⟩ := look
  have hmem := reached.look_mem hlook
  have hpath := Plan.mem_touched hstep (Or.inl hmem)
  have huntouched := untouched path hmem
  refine h.same hstage hpath huntouched ?_
  cases isBound with
  | true =>
    -- A path that is bound is planned, and a missing one cannot be bound for an optional take.
    obtain ⟨take, -, v, -, hv, hbound⟩ := PlanStep.mem_looks_bound.mp hlook
    obtain ⟨d, hd, rfl, ⟨planned, hentry, rfl⟩, hthere⟩ := reached.take_bound hv
    obtain ⟨other, -, hname, hplanned⟩ := fed d.name planned hentry
    rw [hname] at hplanned
    rcases idle.expected d hd planned hplanned path (legible _ hentry path hbound) with
      hsame | ⟨hoptional, -, hmissing⟩
    · exact hsame
    · rw [← h.exists? hpath huntouched] at hmissing
      rcases hthere with hrequired | hall
      · cases hrequired.symm.trans hoptional
      · cases (hall path hbound).symm.trans hmissing
  | false =>
    -- A path that had no record when the plan was made has one only if a file was found there.
    obtain ⟨take, planned, hentry, -, hplanned⟩ := PlanStep.mem_looks_absent.mp hlook
    obtain ⟨d, hd, -, hget⟩ := fed take planned hentry
    rcases idle.expected d hd planned hget path hplanned with hsame | ⟨-, hrecord, hmissing⟩
    · exact hsame
    · have htracked : (records.record? path step.stage).isSome = true := hvisit
      rcases h.records step.stage hstage path hpath huntouched with hkept | ⟨hthere, -⟩
      · rw [hkept, hrecord] at htracked
        cases htracked
      · cases hthere.symm.trans hmissing

/-- The check finds nothing to do for a step that was expected to be skipped. -/
theorem Foreseen.fresh (h : Foreseen plan before c disk records now)
    {target : String} (named : flow.Named) (hplan : flow.plan target (some c) disk = .ok plan)
    (orderly : c.Orderly) (order : plan.steps = before ++ step :: rest)
    (legible : step.Legible)
    (announced : ∀ earlier ∈ before, earlier.required = true → earlier.Announces step)
    (reached : Reached flow step now stage ctx) (hrequired : step.required = false) :
    (step.examine ctx stage.io.produces now (some records)).1 = false := by
  have hstep : step ∈ plan.steps := by simp [order]
  have hstage : step.stage ∉ before.map PlanStep.stage := by
    have hnodup := plan_distinct named hplan
    rw [order, List.map_append, List.map_cons, List.nodup_append] at hnodup
    exact fun hmem => hnodup.2.2 _ hmem _ List.mem_cons_self rfl
  obtain ⟨found, hfound, idle, hfeeds⟩ :=
    (plan_required_eq_false_iff named hplan order reached.known).mp hrequired
  cases hfound
  have huntouched : ∀ path, path ∈ step.takePaths ∨ path ∈ step.outputPaths →
      Untouched before path := fun path hpath earlier hearlier hruns hout =>
    hfeeds earlier hearlier hruns (announced earlier hearlier hruns ⟨path, hout, hpath⟩)
  refine PlanStep.examine_eq_false_iff.mpr ⟨?_, fun look hlook hvisit => ?_, fun path hpath => ?_⟩
  · exact hasConsumer_of_tracked orderly h.orderly (h.tracked step.stage hstage) idle.known
  · exact h.passes hstage hstep (fun path hpath => huntouched path (Or.inl hpath)) legible reached
      (fun take planned hentry => plan_fed named hplan hstep reached.known hentry) idle hlook hvisit
  · have hout : path ∈ step.outputPaths := mandatoryPaths_subset hpath
    rw [h.exists? (Plan.mem_touched hstep (Or.inr hout)) (huntouched path (Or.inr hout))]
    obtain ⟨v, hv, hmem⟩ := List.mem_flatMap.mp hpath
    exact ((disk.holds_iff v).mp (idle.written v hv)).2 path hmem

/-- A step that runs only if it has to leaves everything as foreseen. -/
theorem Foreseen.next {r : Reporter} {host : Host} {report next : BuildReport} {bench : Bench}
    {after : Session} (h : Foreseen plan before c disk records bench.disk)
    (confined : Confined flow plan.touched step)
    (expected : ∀ {stage ctx}, Reached flow step bench.disk stage ctx → step.required = false →
      (step.examine ctx stage.io.produces bench.disk (some records)).1 = false)
    (run : runStep flow r report step host ⟨bench, some records⟩ = .ok next after) :
    ∃ left, after.cache = some left ∧
      Foreseen plan (before ++ [step]) c disk left after.bench.disk := by
  obtain ⟨left, hcache, horderly, hothers⟩ := runStep_others run
  obtain ⟨stage, ctx, reached, hended⟩ := runStep_ok run
  have hkept : ∀ path ∈ plan.touched, (step.required = true → path ∉ step.outputPaths) →
      after.bench.disk.contentAt path = bench.disk.contentAt path := by
    intro path hpath hout
    rcases hended with ⟨-, hdisk, -⟩ | ⟨stale, -⟩
    · rw [hdisk]
    · have hrequired : step.required = true := by
        by_contra hidle
        cases (expected reached (by simpa using hidle)).symm.trans stale
      have hconfined := (confined.step r host report ⟨bench, some records⟩).2 path hpath
        (hout hrequired)
      rwa [run] at hconfined
  have hbefore : ∀ consumer ∉ (before ++ [step]).map PlanStep.stage,
      consumer ∉ before.map PlanStep.stage ∧ consumer ≠ step.stage := by
    intro consumer hconsumer
    rw [List.map_append, List.mem_append, not_or] at hconsumer
    exact ⟨hconsumer.1, by simpa using hconsumer.2⟩
  refine ⟨left, hcache, horderly h.orderly, fun path hpath huntouched => ?_,
    fun consumer hconsumer path htracked => ?_, fun consumer hconsumer path hpath huntouched => ?_⟩
  · obtain ⟨hearlier, hself⟩ := huntouched.of_snoc
    rw [hkept path hpath hself, h.content path hpath hearlier]
  · obtain ⟨hold, hne⟩ := hbefore consumer hconsumer
    exact runStep_tracks run hcache hne path (h.tracked consumer hold path htracked)
  · obtain ⟨hold, hne⟩ := hbefore consumer hconsumer
    obtain ⟨hearlier, -⟩ := huntouched.of_snoc
    rcases hothers path consumer hne with hsame | ⟨hthere, hprint⟩
    · rw [hsame]
      exact h.records consumer hold path hpath hearlier
    · rw [h.content path hpath hearlier] at hprint
      rw [h.exists? hpath hearlier] at hthere
      exact Or.inr ⟨hthere, hprint⟩

end

/-- A plan against which a build of it can be held: the modules are confined, a step that is
expected to be skipped reads no paths but those it is planned with, and steps that have to run feed
the later ones whose paths they write. -/
structure Plan.Foresees (flow : Flow) (plan : Plan) : Prop where
  confined : ∀ step ∈ plan.steps, Confined flow plan.touched step
  legible : ∀ step ∈ plan.steps, step.required = false → step.Legible
  announced : plan.steps.Pairwise fun earlier step =>
    earlier.required = true → earlier.Announces step

section
variable {flow : Flow} {target : String} {plan : Plan} {r : Reporter} {host : Host}
  {bench : Bench} {c : Fingerprints}

/-- The steps of a build leave everything as foreseen. -/
theorem foreseen_steps (named : flow.Named)
    (hplan : flow.plan target (some c) bench.disk = .ok plan) (orderly : c.Orderly)
    (foresees : plan.Foresees flow) {before rest : List PlanStep}
    (order : plan.steps = before ++ rest) {report : BuildReport} {after : Session}
    (run : before.foldlM (runStep flow r) {} host ⟨bench, some c⟩ = .ok report after) :
    ∃ records, after.cache = some records ∧
      Foreseen plan before c bench.disk records after.bench.disk := by
  induction before using List.reverseRecOn generalizing rest report after with
  | nil =>
    cases run
    exact ⟨c, rfl, .start plan orderly bench.disk⟩
  | append_singleton before step ih =>
    rw [List.append_assoc] at order
    cases hbefore : before.foldlM (runStep flow r) {} host ⟨bench, some c⟩ with
    | error cause failed =>
      rw [List.foldlM_append, bind_run, hbefore] at run
      cases run
    | ok last session =>
      rw [foldlM_snoc_run hbefore] at run
      obtain ⟨records, hcache, hforeseen⟩ := ih order hbefore
      obtain ⟨present, cache⟩ := session
      cases hcache
      have hstep : step ∈ plan.steps := by simp [order]
      have hannounced := foresees.announced
      rw [order, List.pairwise_append] at hannounced
      exact hforeseen.next (foresees.confined step hstep)
        (fun reached hidle => hforeseen.fresh named hplan orderly order
          (foresees.legible step hstep hidle)
          (fun earlier hearlier => hannounced.2.2 earlier hearlier step List.mem_cons_self)
          reached hidle) run

/-- A step that runs had to run. -/
theorem required_of_ran {cache : Option Fingerprints} (named : flow.Named)
    (hplan : flow.plan target cache bench.disk = .ok plan)
    (orderly : ∀ c, cache = some c → c.Orderly) (foresees : plan.Foresees flow) {a : Attempt}
    (h : a ∈ trail flow r host plan.steps {} ⟨bench, cache⟩) (ran : a.fate ≠ .skipped) :
    a.step ∈ plan.steps ∧ a.step.required = true := by
  obtain ⟨before, step, rest, next, after, order, hbefore, hentry⟩ := mem_trail h
  obtain ⟨hstep, -⟩ := attempt?_spec hentry
  obtain ⟨stage, reached, stale⟩ := attempt?_stale hentry ran
  subst hstep
  have hmem : a.step ∈ plan.steps := by simp [order]
  refine ⟨hmem, ?_⟩
  by_contra hidle
  rw [Bool.not_eq_true] at hidle
  obtain ⟨c, rfl, -⟩ := (plan_required_eq_false_iff named hplan order reached.known).mp hidle
  obtain ⟨records, hcache, hforeseen⟩ :=
    foreseen_steps named hplan (orderly c rfl) foresees order hbefore
  have hannounced := foresees.announced
  rw [order, List.pairwise_append] at hannounced
  have hfresh := hforeseen.fresh named hplan (orderly c rfl) order
    (foresees.legible a.step hmem hidle)
    (fun earlier hearlier => hannounced.2.2 earlier hearlier a.step List.mem_cons_self)
    reached hidle
  rw [hcache, hfresh] at stale
  cases stale

/-- What differs after some steps was written by one of them that ran. -/
theorem wrote_of_changed {paths : List String} {steps : List PlanStep}
    (confined : ∀ step ∈ steps, Confined flow paths step) (report : BuildReport)
    (session : Session) {path : String} (hpath : path ∈ paths)
    (changed : (last (steps.foldlM (runStep flow r) report host session)).bench.disk.contentAt
      path ≠ session.bench.disk.contentAt path) :
    ∃ a ∈ trail flow r host steps report session, a.fate ≠ .skipped ∧
      path ∈ a.step.outputPaths := by
  have hwritten : (last (steps.foldlM (runStep flow r) report host session)).bench.disk.contentAt
      path ≠ session.bench.disk.contentAt path → ∃ a ∈ trail flow r host steps report session ++ [],
        a.fate ≠ .skipped ∧ path ∈ a.step.outputPaths := by
    refine trail_induction (P := fun present log =>
      present.bench.disk.contentAt path ≠ session.bench.disk.contentAt path →
        ∃ a ∈ log, a.fate ≠ .skipped ∧ path ∈ a.step.outputPaths) ?_ report session [] (absurd rfl)
    intro step hstep report present log ih hdiffers
    have hconfined := ((confined step hstep).step r host report present).2 path hpath
    by_cases hsame : (last (runStep flow r report step host present)).bench.disk.contentAt path =
        present.bench.disk.contentAt path
    · obtain ⟨a, ha, hrest⟩ := ih (hsame ▸ hdiffers)
      exact ⟨a, List.mem_append_right _ ha, hrest⟩
    · obtain ⟨a, hentry, hran⟩ :=
        ran_of_changed fun hdisk => hsame (congrArg (·.contentAt path) hdisk)
      refine ⟨a, List.mem_append_left _ (Option.mem_toList.mpr hentry), hran, ?_⟩
      rw [(attempt?_spec hentry).1]
      by_contra hout
      exact hsame (hconfined hout)
  rw [List.append_nil] at hwritten
  exact hwritten changed

end

/-- A plan never tells too little: what a build runs had to run, and whatever it changes is planned
for a dependency that is listed as made anew. -/
theorem runs_predicted {flow : Flow} {target : String} {cache : Option Fingerprints} {plan : Plan}
    {bench : Bench} (named : flow.Named) (orderly : ∀ c, cache = some c → c.Orderly)
    (hplan : flow.plan target cache bench.disk = .ok plan) (foresees : plan.Foresees flow)
    (r : Reporter) (host : Host) :
    (∀ a ∈ trail flow r host plan.steps {} ⟨bench, cache⟩, a.fate ≠ .skipped →
      a.step ∈ plan.steps ∧ a.step.required = true ∧
        ∀ dep, a.step.outputs.contains dep = true →
          plan.status dep cache bench.disk = .rebuild ∨
            plan.status dep cache bench.disk = .scheduled) ∧
    (∀ report after, runPlan flow plan r host ⟨bench, cache⟩ = .ok report after →
      ∀ name ∈ report.executed, ∃ step ∈ plan.steps, step.stage = name ∧ step.required = true) ∧
    ∀ path ∈ plan.touched,
      (last (runPlan flow plan r host ⟨bench, cache⟩)).bench.disk.contentAt path ≠
        bench.disk.contentAt path →
      ∃ step ∈ plan.steps, ∃ dep v, (dep, v) ∈ step.outputs.entries ∧ path ∈ v.strings ∧
        (plan.status dep cache bench.disk = .rebuild ∨
          plan.status dep cache bench.disk = .scheduled) := by
  have hrequired : ∀ a ∈ trail flow r host plan.steps {} ⟨bench, cache⟩, a.fate ≠ .skipped →
      a.step ∈ plan.steps ∧ a.step.required = true :=
    fun a ha => required_of_ran named hplan orderly foresees ha
  refine ⟨fun a ha hran => ?_, fun report after run name hname => ?_,
    fun path hpath hchanged => ?_⟩
  · obtain ⟨hstep, hruns⟩ := hrequired a ha hran
    exact ⟨hstep, hruns, fun dep hdep => status_of_required named hplan hstep hruns hdep _ _⟩
  · have hsteps : ∃ ended, plan.steps.foldlM (runStep flow r) {} host ⟨bench, cache⟩ =
        .ok report ended := by
      rcases runPlan_cases flow plan r host ⟨bench, cache⟩ with
        ⟨_, _, -, hrun⟩ | ⟨_, _, -, -, hrun⟩ | ⟨_, ended, _, _, hsteps, -, -, hrun⟩
      · cases run.symm.trans hrun
      · cases run.symm.trans hrun
      · cases run.symm.trans hrun
        exact ⟨ended, hsteps⟩
    obtain ⟨ended, hsteps⟩ := hsteps
    rcases (mem_executed_iff hsteps name).mp hname with hnone | ⟨a, ha, hfate, rfl⟩
    · cases hnone
    · obtain ⟨hstep, hruns⟩ := hrequired a ha (by simp [hfate])
      exact ⟨a.step, hstep, rfl, hruns⟩
  · obtain ⟨-, hdisk, -⟩ := runPlan_last flow plan r host ⟨bench, cache⟩
    rw [hdisk] at hchanged
    obtain ⟨a, ha, hran, hout⟩ :=
      wrote_of_changed foresees.confined {} ⟨bench, cache⟩ hpath hchanged
    obtain ⟨hstep, hruns⟩ := hrequired a ha hran
    obtain ⟨v, hv, hmem⟩ := PlanStep.mem_outputPaths.mp hout
    obtain ⟨⟨dep, _⟩, hentry, rfl⟩ := List.mem_map.mp hv
    exact ⟨a.step, hstep, dep, _, hentry, hmem, status_of_required named hplan hstep hruns
      (Table.contains_iff_mem_keys.mpr (List.mem_map.mpr ⟨_, hentry, rfl⟩)) _ _⟩

/-- A bench from which the last file of the relay is gone. -/
def Relay.cleared (bench : Bench) : Bench :=
  { bench with disk.entries := bench.disk.entries.erase "/out" }

/-- Where the last file is gone from what the relay has made, only the second copy has to run, and
only the second copy does. -/
theorem relay_runs_predicted :
    ∃ plan bench c report after, Relay.flow.plan "out" (some c) bench.disk = .ok plan ∧
      plan.steps.map (fun step => (step.stage, step.required)) =
        [("first", false), ("second", true)] ∧
      runPlan Relay.flow plan Relay.silent Relay.host ⟨bench, some c⟩ = .ok report after ∧
      report.executed = ["second"] ∧
      ∀ name ∈ report.executed, ∃ step ∈ plan.steps, step.stage = name ∧ step.required = true := by
  have hchecks : okAnd (Relay.flow.plan "out" none Relay.disk) (fun plan =>
      builtAnd Relay.flow plan Relay.silent Relay.host ⟨Relay.disk, "", 0⟩ (.empty "c")
        fun _ made c =>
          c.Orderly &&
          okAnd (Relay.flow.plan "out" (some c) (Relay.cleared made).disk) fun plan =>
            plan.steps.map (fun step => (step.stage, step.required)) =
              [("first", false), ("second", true)] &&
            plan.steps.all Relay.isCopy && plan.touched.all isTopLevel &&
            (plan.steps.all fun step => step.required = false → step.Legible) &&
            plan.steps.Pairwise (fun earlier step => earlier.required = true →
              earlier.Announces step) &&
            doneAnd (runPlan Relay.flow plan Relay.silent Relay.host
              ⟨Relay.cleared made, some c⟩) fun report _ =>
                report.executed = ["second"]) = true := by
    decide +kernel
  obtain ⟨cold, -, hchecks⟩ := exists_of_okAnd hchecks
  obtain ⟨-, made, c, -, hchecks⟩ := exists_of_builtAnd hchecks
  obtain ⟨orderly, hchecks⟩ := Bool.and_eq_true_iff.mp hchecks
  obtain ⟨plan, hplan, hchecks⟩ := exists_of_okAnd hchecks
  simp only [Bool.and_eq_true, decide_eq_true_eq] at hchecks
  obtain ⟨⟨⟨⟨⟨hsteps, hcopies⟩, htops⟩, hlegible⟩, hannounced⟩, hrun⟩ := hchecks
  obtain ⟨report, after, hrun, hreport⟩ := exists_of_doneAnd hrun
  have foresees : plan.Foresees Relay.flow :=
    ⟨fun step hstep => (Relay.deterministic hcopies htops step hstep).toConfined,
      fun step hstep => of_decide_eq_true (List.all_eq_true.mp hlegible step hstep), hannounced⟩
  obtain ⟨-, hexecuted, -⟩ := runs_predicted Relay.flow_named
    (fun _ h => Option.some.inj h ▸ of_decide_eq_true orderly) hplan foresees
    Relay.silent Relay.host
  exact ⟨plan, Relay.cleared made, c, report, after, hplan, hsteps, hrun,
    of_decide_eq_true hreport, hexecuted report after hrun⟩

/-- The optional file of the annex gets other content. -/
def Annex.edited (bench : Bench) : Bench :=
  { bench with disk := bench.disk.put "/x" (.file (ByteArray.mk #[3]) false) }

/-- After a file has changed whose path only the stage can read, a stage runs that was expected to
be skipped, and makes anew what was listed as up to date. -/
theorem unread_take_unpredicted :
    ∃ flow cold plan first bench c report after,
      flow = Annex.flow (.str "/$\x7blib\x7d") ∧
      flow.plan "out" none Annex.disk = .ok cold ∧
      runPlan flow cold Relay.silent Relay.host ⟨⟨Annex.disk, "", 0⟩, some (.empty "c")⟩ =
        .ok first ⟨bench, some c⟩ ∧
      flow.plan "out" (some c) (Annex.edited bench).disk = .ok plan ∧
      (∀ step ∈ plan.steps, Confined flow plan.touched step) ∧
      runPlan flow plan Relay.silent Relay.host ⟨Annex.edited bench, some c⟩ = .ok report after ∧
      report.executed = ["copy"] ∧ (∀ step ∈ plan.steps, step.required = false) ∧
      plan.status "out" (some c) (Annex.edited bench).disk = .upToDate := by
  have hchecks :
      okAnd ((Annex.flow (.str "/$\x7blib\x7d")).plan "out" none Annex.disk) (fun plan =>
        builtAnd (Annex.flow (.str "/$\x7blib\x7d")) plan Relay.silent Relay.host
          ⟨Annex.disk, "", 0⟩ (.empty "c") fun _ made c =>
            okAnd ((Annex.flow (.str "/$\x7blib\x7d")).plan "out" (some c)
              (Annex.edited made).disk) fun plan =>
                (plan.steps.all fun step => step.stage = "copy" ∧ "/out" ∈ step.outputPaths) &&
                plan.touched.all isTopLevel && plan.steps.all (·.required = false) &&
                plan.status "out" (some c) (Annex.edited made).disk = .upToDate &&
                doneAnd (runPlan (Annex.flow (.str "/$\x7blib\x7d")) plan Relay.silent Relay.host
                  ⟨Annex.edited made, some c⟩) fun report _ => report.executed = ["copy"])
        = true := by
    decide +kernel
  obtain ⟨cold, hcold, hchecks⟩ := exists_of_okAnd hchecks
  obtain ⟨first, bench, c, hfirst, hchecks⟩ := exists_of_builtAnd hchecks
  obtain ⟨plan, hplan, hchecks⟩ := exists_of_okAnd hchecks
  simp only [Bool.and_eq_true, decide_eq_true_eq] at hchecks
  obtain ⟨⟨⟨⟨hsteps, htops⟩, hidle⟩, hstatus⟩, hrun⟩ := hchecks
  obtain ⟨report, after, hrun, hreport⟩ := exists_of_doneAnd hrun
  refine ⟨_, cold, plan, first, bench, c, report, after, rfl, hcold, hfirst, hplan,
    fun step hstep => ?_, hrun, of_decide_eq_true hreport, ?_, hstatus⟩
  · obtain ⟨hname, hout⟩ := of_decide_eq_true (List.all_eq_true.mp hsteps step hstep)
    exact Annex.confined hname hout htops
  · simpa using hidle

end Toolflow
