import Mathlib.Data.List.Induction
import Toolflow.Proofs.Steps

/-! A journal of what became of the steps of builds, and the records it accounts for.

Builds over one cache are written down step by step, newest first. The last run of a stage is its
newest entry that is not a skip. It decides the records of the stage: after a success each path that
was bound then is recorded as it was before the run, and after a failure there are no records. -/
namespace Toolflow

inductive Fate where
  | skipped
  | succeeded
  | failed
deriving Repr, DecidableEq

/-- What became of one step: the context its stage was given, and the disk before and after. -/
structure Attempt where
  step : PlanStep
  ctx : Context
  before : Disk
  after : Disk
  fate : Fate

/-- An attempt as it happened in a flow: the step was reached, and if it succeeded its module has
run to the end. -/
structure Attempt.Happened (a : Attempt) (flow : Flow) (stage : Stage) : Prop where
  reached : Reached flow a.step a.before stage a.ctx
  ran : a.fate = .succeeded → ∃ r host bench,
    stage.Ran r a.ctx host a.before (.ok () bench) ∧ bench.disk = a.after

/-- The newest entry of a stage that is not a skip. -/
def lastRun (log : List Attempt) (stage : String) : Option Attempt :=
  log.find? fun a => a.step.stage = stage ∧ a.fate ≠ .skipped

theorem lastRun_eq_some {log : List Attempt} {stage : String} {a : Attempt}
    (h : lastRun log stage = some a) :
    a ∈ log ∧ a.step.stage = stage ∧ a.fate ≠ .skipped := by
  have hfound := List.find?_some h
  exact ⟨List.mem_of_find?_eq_some h, by simpa using hfound⟩

theorem lastRun_append_of_others {l : List Attempt} {stage : String}
    (h : ∀ a ∈ l, a.step.stage ≠ stage) (log : List Attempt) :
    lastRun (l ++ log) stage = lastRun log stage := by
  unfold lastRun
  rw [List.find?_append, List.find?_eq_none.mpr, Option.none_or]
  intro a ha
  simp [h a ha]

theorem lastRun_cons_of_skipped {a : Attempt} (h : a.fate = .skipped) (log : List Attempt)
    (stage : String) : lastRun (a :: log) stage = lastRun log stage := by
  simp [lastRun, h]

theorem lastRun_cons_of_ran {a : Attempt} (h : a.fate ≠ .skipped) (log : List Attempt)
    (stage : String) :
    lastRun (a :: log) stage = if a.step.stage = stage then some a else lastRun log stage := by
  by_cases hstage : a.step.stage = stage <;> simp [lastRun, h, hstage]

namespace Build

/-- How a step ended, given the report before it. -/
def fate (report : BuildReport) : EStateM.Result Failure Session BuildReport → Fate
  | .error .. => .failed
  | .ok after _ => if after.executed = report.executed then .skipped else .succeeded

/-- The entry of a step with the given result; there is none if it had no context. -/
def attempt? (flow : Flow) (step : PlanStep) (report : BuildReport) (session : Session)
    (result : EStateM.Result Failure Session BuildReport) : Option Attempt :=
  match flow.stages.get? step.stage with
  | none => none
  | some stage =>
    match Context.build stage.module step.stage step.inputs step.env flow.roots
        session.bench.disk with
    | .error _ => none
    | .ok ctx => some {
        step, ctx
        before := session.bench.disk
        after := (last result).bench.disk
        fate := fate report result }

/-- The entries of the steps that are run in turn. -/
def trail (flow : Flow) (r : Reporter) (host : Host) :
    List PlanStep → BuildReport → Session → List Attempt
  | [], _, _ => []
  | step :: rest, report, session =>
    let result := runStep flow r report step host session
    (match result with
      | .ok report after => trail flow r host rest report after
      | .error .. => []) ++ (attempt? flow step report session result).toList

theorem attempt?_of_reached {flow : Flow} {step : PlanStep} {session : Session} {stage : Stage}
    {ctx : Context} (h : Reached flow step session.bench.disk stage ctx) (report : BuildReport)
    (result : EStateM.Result Failure Session BuildReport) :
    attempt? flow step report session result =
      some ⟨step, ctx, session.bench.disk, (last result).bench.disk, fate report result⟩ := by
  simp only [attempt?, h.known, h.built]

theorem attempt?_of_unreached {flow : Flow} {step : PlanStep} {session : Session}
    (h : ∀ stage ctx, ¬ Reached flow step session.bench.disk stage ctx) (report : BuildReport)
    (result : EStateM.Result Failure Session BuildReport) :
    attempt? flow step report session result = none := by
  unfold attempt?
  split
  · rfl
  · rename_i stage hstage
    split
    · rfl
    · rename_i ctx hctx
      exact absurd ⟨hstage, hctx⟩ (h stage ctx)

/-- What an entry tells is what happened. -/
theorem attempt?_spec {flow : Flow} {step : PlanStep} {r : Reporter} {report : BuildReport}
    {host : Host} {session : Session} {a : Attempt}
    (h : attempt? flow step report session (runStep flow r report step host session) = some a) :
    a.step = step ∧ a.before = session.bench.disk ∧
      a.after = (last (runStep flow r report step host session)).bench.disk ∧
      ∃ stage, a.Happened flow stage := by
  have hcases := runStep_cases flow r report step host session
  generalize runStep flow r report step host session = result at h hcases
  cases hcases with
  | unbuilt cause unreached =>
    rw [attempt?_of_unreached unreached] at h
    cases h
  | skipped stage ctx bench reached fresh kept =>
    rw [attempt?_of_reached reached] at h
    cases h
    exact ⟨rfl, rfl, rfl, stage, reached, fun hfate => by simp [fate] at hfate⟩
  | failed stage ctx bench cause reached stale ran =>
    rw [attempt?_of_reached reached] at h
    cases h
    exact ⟨rfl, rfl, rfl, stage, reached, fun hfate => by simp [fate] at hfate⟩
  | incomplete stage ctx bench product path noted reached stale ran planned strict gone =>
    rw [attempt?_of_reached reached] at h
    cases h
    exact ⟨rfl, rfl, rfl, stage, reached, fun hfate => by simp [fate] at hfate⟩
  | succeeded stage ctx bench after reached stale ran complete kept =>
    rw [attempt?_of_reached reached] at h
    cases h
    exact ⟨rfl, rfl, rfl, stage, reached, fun _ => ⟨r, host, bench, ran, kept.symm⟩⟩

theorem attempt?_eq_some_iff {flow : Flow} {step : PlanStep} {report : BuildReport}
    {session : Session} {result : EStateM.Result Failure Session BuildReport} {a : Attempt} :
    attempt? flow step report session result = some a ↔
      ∃ stage ctx, Reached flow step session.bench.disk stage ctx ∧
        a = ⟨step, ctx, session.bench.disk, (last result).bench.disk, fate report result⟩ := by
  constructor
  · intro h
    by_cases hreached : ∃ stage ctx, Reached flow step session.bench.disk stage ctx
    · obtain ⟨stage, ctx, reached⟩ := hreached
      rw [attempt?_of_reached reached] at h
      exact ⟨stage, ctx, reached, (Option.some.inj h).symm⟩
    · rw [attempt?_of_unreached fun stage ctx reached => hreached ⟨stage, ctx, reached⟩] at h
      cases h
  · rintro ⟨stage, ctx, reached, rfl⟩
    exact attempt?_of_reached reached report result

/-- A step is passed over exactly if the check before it finds nothing to do. -/
theorem fate_eq_skipped_iff {flow : Flow} {step : PlanStep} {r : Reporter} {host : Host}
    {session : Session} {stage : Stage} {ctx : Context}
    (reached : Reached flow step session.bench.disk stage ctx) (report : BuildReport) :
    fate report (runStep flow r report step host session) = .skipped ↔
      (step.examine ctx stage.io.produces session.bench.disk session.cache).1 = false := by
  have hcases := runStep_cases flow r report step host session
  generalize runStep flow r report step host session = result at hcases
  cases hcases with
  | unbuilt cause unreached => exact absurd reached (unreached stage ctx)
  | skipped found octx bench oreached fresh kept =>
    obtain ⟨rfl, rfl⟩ := reached.unique oreached
    simp [fate, fresh]
  | failed found octx bench cause oreached stale ran =>
    obtain ⟨rfl, rfl⟩ := reached.unique oreached
    simp [fate, stale]
  | incomplete found octx bench product path noted oreached stale ran planned strict gone =>
    obtain ⟨rfl, rfl⟩ := reached.unique oreached
    simp [fate, stale]
  | succeeded found octx bench after oreached stale ran complete kept =>
    obtain ⟨rfl, rfl⟩ := reached.unique oreached
    simp [fate, stale]

/-- A step that ran was found to have something to do. -/
theorem attempt?_stale {flow : Flow} {step : PlanStep} {r : Reporter} {report : BuildReport}
    {host : Host} {session : Session} {a : Attempt}
    (h : attempt? flow step report session (runStep flow r report step host session) = some a)
    (ran : a.fate ≠ .skipped) :
    ∃ stage, Reached flow step session.bench.disk stage a.ctx ∧
      (step.examine a.ctx stage.io.produces session.bench.disk session.cache).1 = true := by
  obtain ⟨stage, ctx, reached, rfl⟩ := attempt?_eq_some_iff.mp h
  refine ⟨stage, reached, ?_⟩
  by_contra hfresh
  exact ran ((fate_eq_skipped_iff reached report).mpr (by simpa using hfresh))

/-- A step that changes the disk ran. -/
theorem ran_of_changed {flow : Flow} {step : PlanStep} {r : Reporter} {report : BuildReport}
    {host : Host} {session : Session}
    (changed : (last (runStep flow r report step host session)).bench.disk ≠ session.bench.disk) :
    ∃ a, attempt? flow step report session (runStep flow r report step host session) = some a ∧
      a.fate ≠ .skipped := by
  have hcases := runStep_cases flow r report step host session
  generalize runStep flow r report step host session = result at changed hcases
  cases hcases with
  | unbuilt => exact absurd rfl changed
  | skipped stage ctx bench reached fresh kept => exact absurd kept changed
  | failed stage ctx bench cause reached =>
    exact ⟨_, attempt?_of_reached reached report _, by simp [fate]⟩
  | incomplete stage ctx bench product path noted reached =>
    exact ⟨_, attempt?_of_reached reached report _, by simp [fate]⟩
  | succeeded stage ctx bench after reached =>
    exact ⟨_, attempt?_of_reached reached report _, by simp [fate]⟩

/-- An entry is that of a step which was come to by those in front of it. -/
theorem mem_trail {flow : Flow} {r : Reporter} {host : Host} {steps : List PlanStep}
    {report : BuildReport} {session : Session} {a : Attempt}
    (h : a ∈ trail flow r host steps report session) :
    ∃ before step rest next after, steps = before ++ step :: rest ∧
      before.foldlM (runStep flow r) report host session = .ok next after ∧
      attempt? flow step next after (runStep flow r next step host after) = some a := by
  induction steps generalizing report session with
  | nil => cases h
  | cons first rest ih =>
    rw [trail] at h
    rcases List.mem_append.mp h with hlater | hfirst
    · cases hrun : runStep flow r report first host session with
      | error cause failed =>
        rw [hrun] at hlater
        cases hlater
      | ok next after =>
        rw [hrun] at hlater
        obtain ⟨before, step, later, last, ended, rfl, hbefore, hentry⟩ := ih hlater
        refine ⟨first :: before, step, later, last, ended, rfl, ?_, hentry⟩
        rw [foldlM_cons_run, hrun]
        exact hbefore
    · exact ⟨[], first, rest, report, session, rfl, rfl, Option.mem_toList.mp hfirst⟩

/-- One more step adds its entry. -/
theorem trail_snoc {flow : Flow} {r : Reporter} {host : Host} {steps : List PlanStep}
    {report next : BuildReport} {session after : Session}
    (h : steps.foldlM (runStep flow r) report host session = .ok next after) (step : PlanStep) :
    trail flow r host (steps ++ [step]) report session =
      (attempt? flow step next after (runStep flow r next step host after)).toList ++
        trail flow r host steps report session := by
  induction steps generalizing report session with
  | nil =>
    cases h
    simp only [List.nil_append, trail, List.append_nil]
    generalize runStep flow r next step host after = result
    cases result <;> rfl
  | cons first rest ih =>
    rw [foldlM_cons_run] at h
    rw [List.cons_append, trail, trail]
    cases hfirst : runStep flow r report first host session with
    | error cause failed =>
      rw [hfirst] at h
      cases h
    | ok report after =>
      rw [hfirst] at h
      dsimp only
      rw [ih h, List.append_assoc]

/-- The stages that a run of steps reports as executed are those of the entries that succeeded. -/
theorem mem_executed_iff {flow : Flow} {r : Reporter} {host : Host} {steps : List PlanStep}
    {report next : BuildReport} {session after : Session}
    (h : steps.foldlM (runStep flow r) report host session = .ok next after) (name : String) :
    name ∈ next.executed ↔ name ∈ report.executed ∨
      ∃ a ∈ trail flow r host steps report session, a.fate = .succeeded ∧ a.step.stage = name := by
  induction steps using List.reverseRecOn generalizing next after with
  | nil =>
    cases h
    simp [trail]
  | append_singleton before step ih =>
    cases hbefore : before.foldlM (runStep flow r) report host session with
    | error cause failed =>
      rw [List.foldlM_append, bind_run, hbefore] at h
      cases h
    | ok middle present =>
      rw [foldlM_snoc_run hbefore] at h
      obtain ⟨stage, ctx, reached, hended⟩ := runStep_ok h
      rw [trail_snoc hbefore, h, attempt?_of_reached reached]
      simp only [Option.toList_some, List.singleton_append, List.mem_cons, exists_eq_or_imp]
      rcases hended with ⟨-, -, hsame⟩ | ⟨-, hmore⟩
      · rw [hsame, ih hbefore]
        simp [fate, hsame]
      · rw [hmore, List.mem_append, List.mem_singleton, ih hbefore]
        simp only [fate, hmore, List.append_right_eq_self, List.cons_ne_nil, if_false, true_and]
        exact or_assoc.trans (or_congr_right (or_comm.trans (or_congr_left eq_comm)))

/-- What every step keeps, with its entry added to the journal, a run of steps keeps. -/
theorem trail_induction {flow : Flow} {r : Reporter} {host : Host} {steps : List PlanStep}
    {P : Session → List Attempt → Prop}
    (each : ∀ step ∈ steps, ∀ report session log, P session log →
      P (last (runStep flow r report step host session))
        ((attempt? flow step report session (runStep flow r report step host session)).toList ++
          log))
    (report : BuildReport) (session : Session) (log : List Attempt) (h : P session log) :
    P (last (steps.foldlM (runStep flow r) report host session))
      (trail flow r host steps report session ++ log) := by
  induction steps generalizing report session log with
  | nil => exact h
  | cons step rest ih =>
    have hstep := each step List.mem_cons_self report session log h
    rw [foldlM_cons_run]
    simp only [trail]
    cases hrun : runStep flow r report step host session with
    | error cause after =>
      rw [hrun] at hstep
      simpa using hstep
    | ok report after =>
      rw [hrun] at hstep
      rw [List.append_assoc]
      exact ih (fun step hmem => each step (List.mem_cons_of_mem _ hmem)) report after _ hstep

end Build

open Fingerprints Build

/-- What the last run of a stage says of its records: there are some only if it succeeded. Then the
paths it could not write are recorded as they were before it, those it had bound for certain, and
those of its unbound takes as far as there is a record. -/
structure Accounted (c : Fingerprints) (stage : String) (run? : Option Attempt) : Prop where
  idle : (∀ a, run? = some a → a.fate ≠ .succeeded) → ∀ path, c.record? path stage = none
  bound : ∀ a, run? = some a → a.fate = .succeeded → ∀ path, path ∉ a.step.outputPaths →
    (path, true) ∈ a.step.looks a.ctx →
    c.record? path stage = (a.before.contentAt path).print?
  unbound : ∀ a, run? = some a → a.fate = .succeeded → ∀ path, path ∉ a.step.outputPaths →
    (path, false) ∈ a.step.looks a.ctx →
    c.record? path stage = none ∨ c.record? path stage = (a.before.contentAt path).print?

/-- The journal accounts for the records of every stage. -/
structure Accounts (c : Fingerprints) (log : List Attempt) : Prop where
  orderly : c.Orderly
  stages : ∀ stage, stage ≠ targetConsumer → Accounted c stage (lastRun log stage)

theorem accounted_congr {c after : Fingerprints} {stage : String} {run? : Option Attempt}
    (h : Accounted c stage run?)
    (same : ∀ path, after.record? path stage = c.record? path stage) :
    Accounted after stage run? := by
  refine ⟨fun hrun path => ?_, fun a ha hfate path hout hlook => ?_,
    fun a ha hfate path hout hlook => ?_⟩
  · rw [same]
    exact h.idle hrun path
  · rw [same]
    exact h.bound a ha hfate path hout hlook
  · rw [same]
    exact h.unbound a ha hfate path hout hlook

theorem accounted_of_dropped {c : Fingerprints} {stage : String} {run? : Option Attempt}
    (hrun : ∀ a, run? = some a → a.fate ≠ .succeeded)
    (dropped : ∀ path, c.record? path stage = none) : Accounted c stage run? :=
  ⟨fun _ => dropped, fun a ha hfate => absurd hfate (hrun a ha),
    fun a ha hfate => absurd hfate (hrun a ha)⟩

theorem accounts_empty (path : String) : Accounts (.empty path) [] where
  orderly := orderly_empty path
  stages _ _ := accounted_of_dropped (fun _ h => by cases h) fun q => record?_empty path q _

namespace Accounts
variable {c after : Fingerprints} {log : List Attempt} {a : Attempt}

theorem congr (h : Accounts c log) (orderly : after.Orderly)
    (same : ∀ path stage, stage ≠ targetConsumer →
      after.record? path stage = c.record? path stage) : Accounts after log where
  orderly := orderly
  stages stage hs := accounted_congr (h.stages stage hs) fun path => same path stage hs

theorem skip (h : Accounts c log) (skipped : a.fate = .skipped) : Accounts c (a :: log) where
  orderly := h.orderly
  stages stage hs := by
    rw [lastRun_cons_of_skipped skipped]
    exact h.stages stage hs

theorem fail (h : Accounts c log) (failed : a.fate = .failed) (orderly : after.Orderly)
    (dropped : ∀ path, after.record? path a.step.stage = none)
    (same : ∀ path stage, stage ≠ targetConsumer → stage ≠ a.step.stage →
      after.record? path stage = c.record? path stage) : Accounts after (a :: log) where
  orderly := orderly
  stages stage hs := by
    rw [lastRun_cons_of_ran (by simp [failed])]
    by_cases hstage : a.step.stage = stage
    · rw [if_pos hstage]
      refine accounted_of_dropped (fun b hb => ?_) fun path => hstage ▸ dropped path
      cases hb
      simp [failed]
    · rw [if_neg hstage]
      exact accounted_congr (h.stages stage hs) fun path => same path stage hs (Ne.symm hstage)

theorem succeed (h : Accounts c log) (succeeded : a.fate = .succeeded) (orderly : after.Orderly)
    (renewed : a.step.stage ≠ targetConsumer → ∀ path, path ∉ a.step.outputPaths →
      after.record? path a.step.stage =
        if (path, true) ∈ a.step.looks a.ctx ∨
            (path, false) ∈ a.step.looks a.ctx ∧ (c.record? path a.step.stage).isSome then
          (a.before.contentAt path).print?
        else c.record? path a.step.stage)
    (same : ∀ path stage, stage ≠ targetConsumer → stage ≠ a.step.stage →
      after.record? path stage = c.record? path stage) : Accounts after (a :: log) where
  orderly := orderly
  stages stage hs := by
    rw [lastRun_cons_of_ran (by simp [succeeded])]
    by_cases hstage : a.step.stage = stage
    · rw [if_pos hstage]
      subst hstage
      refine ⟨fun hrun => absurd succeeded (hrun a rfl), ?_, ?_⟩
      · rintro b ⟨⟩ - path hout hlook
        rw [renewed hs path hout, if_pos (Or.inl hlook)]
      · rintro b ⟨⟩ - path hout hlook
        rw [renewed hs path hout]
        by_cases hrec : (c.record? path a.step.stage).isSome = true
        · exact Or.inr (if_pos (Or.inr ⟨hlook, hrec⟩))
        · have hnone : c.record? path a.step.stage = none := by simpa using hrec
          split
          · exact Or.inr rfl
          · exact Or.inl hnone
    · rw [if_neg hstage]
      exact accounted_congr (h.stages stage hs) fun path => same path stage hs (Ne.symm hstage)

end Accounts

namespace Build
variable {flow : Flow} {r : Reporter} {host : Host} {step : PlanStep} {report : BuildReport}
  {bench : Bench} {c : Fingerprints} {log : List Attempt}

theorem productPaths_subset {produces : List Declared} {path : String}
    (h : path ∈ step.productPaths produces) : path ∈ step.outputPaths := by
  obtain ⟨d, -, hpath⟩ := PlanStep.mem_productPaths.mp h
  obtain ⟨v, hv, hpath⟩ := PlanStep.mem_pathsOf.mp hpath
  exact PlanStep.mem_outputPaths.mpr
    ⟨v, List.mem_map.mpr ⟨(d.name, v), Table.mem_of_get? hv, rfl⟩, hpath⟩

theorem mandatoryPaths_subset {produces : List Declared} {path : String}
    (h : path ∈ step.mandatoryPaths produces) : path ∈ step.outputPaths := by
  obtain ⟨d, hproduct, -⟩ := PlanStep.mem_mandatoryPaths_iff.mp h
  exact productPaths_subset (List.mem_map.mpr ⟨_, hproduct, rfl⟩)

/-- Dropping the records of a stage leaves those of the others. -/
theorem forget_spec (h : c.Orderly) (stage : String) :
    (c.forget stage).Orderly ∧ (∀ path, (c.forget stage).record? path stage = none) ∧
      ∀ path s, s ≠ stage → (c.forget stage).record? path s = c.record? path s := by
  refine ⟨orderly_forget h stage, fun path => ?_, fun path s hs => ?_⟩
  · rw [record?_forget h, if_pos rfl]
  · rw [record?_forget h, if_neg hs]

/-- Every step leaves records that the journal accounts for, with the entry of the step added. -/
theorem accounts_step (r : Reporter) (host : Host) (step : PlanStep) (report : BuildReport)
    (bench : Bench) (named : flow.Named) (h : Accounts c log) :
    let result := runStep flow r report step host ⟨bench, some c⟩
    ∃ after, (last result).cache = some after ∧
      Accounts after ((attempt? flow step report ⟨bench, some c⟩ result).toList ++ log) := by
  intro result
  have hcases : StepRun flow r report step host ⟨bench, some c⟩ result := runStep_cases ..
  clear_value result
  cases hcases with
  | unbuilt cause unreached =>
    rw [attempt?_of_unreached unreached]
    exact ⟨c, rfl, h⟩
  | skipped stage ctx after reached fresh kept =>
    rw [attempt?_of_reached reached]
    obtain ⟨swept, hswept, horderly, hsame⟩ := PlanStep.examine_fresh fresh
    refine ⟨swept, hswept, (h.congr (horderly h.orderly) hsame).skip ?_⟩
    simp [fate]
  | failed stage ctx after cause reached stale ran =>
    rw [attempt?_of_reached reached]
    obtain ⟨swept, hswept, horderly, hrecords⟩ :=
      PlanStep.examine_some step ctx stage.io.produces bench.disk c
    obtain ⟨hforgotten, hdropped, hkept⟩ := forget_spec (horderly h.orderly) stage.name
    rw [named _ _ reached.known] at *
    refine ⟨swept.forget step.stage, by simp [last, hswept], h.fail rfl hforgotten hdropped ?_⟩
    intro path s hs hne
    rw [hkept path s hne, hrecords path s hs, if_neg fun hstep => hne hstep.1]
  | incomplete stage ctx after product path noted reached stale ran planned strict gone =>
    rw [attempt?_of_reached reached]
    obtain ⟨swept, hswept, horderly, hrecords⟩ :=
      PlanStep.examine_some step ctx stage.io.produces bench.disk c
    obtain ⟨hforgotten, hdropped, hkept⟩ := forget_spec
      (orderly_noteThere (horderly h.orderly) after.disk step.stage noted)
      step.stage
    refine ⟨_, by simp [last, hswept], h.fail rfl hforgotten hdropped ?_⟩
    intro path s hs hne
    rw [hkept path s hne, record?_noteThere, if_neg fun hnoted => hne hnoted.1,
      hrecords path s hs, if_neg fun hstep => hne hstep.1]
  | succeeded stage ctx ended after reached stale ran complete kept =>
    rw [attempt?_of_reached reached]
    obtain ⟨swept, hswept, horderly, hrecords⟩ :=
      PlanStep.examine_some step ctx stage.io.produces bench.disk c
    have hnoted := orderly_noteThere (horderly h.orderly) ended.disk step.stage
      (step.productPaths stage.io.produces)
    refine ⟨_, by simp [last, hswept], h.succeed (by simp [fate]) hnoted ?_ ?_⟩
    · intro hs path hout
      have hnot : ¬ path ∈ step.productPaths stage.io.produces :=
        fun hpath => hout (productPaths_subset hpath)
      rw [record?_noteThere, if_neg fun hnoted => hnot hnoted.2.1, hrecords path _ hs]
      simp only [true_and]
    · intro path s hs hne
      rw [record?_noteThere, if_neg fun hnoted => hne hnoted.1, hrecords path s hs,
        if_neg fun hstep => hne hstep.1]

theorem runStep_keeps_cache (flow : Flow) (r : Reporter) (report : BuildReport) (step : PlanStep)
    (host : Host) (bench : Bench) (c : Fingerprints) :
    ∃ after, (last (runStep flow r report step host ⟨bench, some c⟩)).cache = some after := by
  have hcases := runStep_cases flow r report step host ⟨bench, some c⟩
  generalize runStep flow r report step host ⟨bench, some c⟩ = result at hcases ⊢
  cases hcases with
  | unbuilt => exact ⟨c, rfl⟩
  | skipped => exact ⟨_, rfl⟩
  | failed => exact ⟨_, rfl⟩
  | incomplete => exact ⟨_, rfl⟩
  | succeeded => exact ⟨_, rfl⟩

/-- A build ends like its steps, but for records of the target's files. -/
theorem runPlan_last (flow : Flow) (plan : Plan) (r : Reporter) (host : Host)
    (session : Session) :
    ∃ paths,
      (last (runPlan flow plan r host session)).bench.disk =
        (last (plan.steps.foldlM (runStep flow r) {} host session)).bench.disk ∧
      (last (runPlan flow plan r host session)).cache =
        (last (plan.steps.foldlM (runStep flow r) {} host session)).cache.map
          (noteThere (last (plan.steps.foldlM (runStep flow r) {} host session)).bench.disk
            targetConsumer · paths) := by
  rcases runPlan_cases flow plan r host session with
    ⟨cause, after, hsteps, hrun⟩ | ⟨report, after, hsteps, -, hrun⟩ |
    ⟨report, after, v, bench, hsteps, -, hdisk, hrun⟩
  · refine ⟨[], by rw [hsteps, hrun], ?_⟩
    rw [hsteps, hrun]
    cases hcache : after.cache <;> simp [last, hcache, noteThere]
  · refine ⟨[], by rw [hsteps, hrun]; rfl, ?_⟩
    rw [hsteps, hrun]
    cases hcache : after.cache <;> simp [last, hcache, noteThere]
  · exact ⟨v.strings, by rw [hsteps, hrun]; exact hdisk, by rw [hsteps, hrun]; rfl⟩

end Build

/-- How a cache is used: which plans of which flows are built with it, on what disks it may start,
and what may happen to a disk between builds. -/
structure Usage where
  builds : Flow → Plan → Prop
  starts : Disk → Prop
  edits : Disk → Disk → Prop

/-- The disk, the records and the journal after any number of builds over one cache, which starts
empty. -/
inductive History (u : Usage) : Disk → Fingerprints → List Attempt → Prop
  | start (disk : Disk) (path : String) (h : u.starts disk) : History u disk (.empty path) []
  | edit {disk c log} (other : Disk) (earlier : History u disk c log)
      (h : u.edits disk other) : History u other c log
  | build {disk c log} (flow : Flow) (plan : Plan) (r : Reporter) (host : Host) (bench : Bench)
      (after : Fingerprints) (earlier : History u disk c log) (allowed : u.builds flow plan)
      (starts : bench.disk = disk)
      (ends : (last (runPlan flow plan r host ⟨bench, some c⟩)).cache = some after) :
      History u (last (runPlan flow plan r host ⟨bench, some c⟩)).bench.disk after
        (trail flow r host plan.steps {} ⟨bench, some c⟩ ++ log)

/-- A build that follows a history and has come to the given steps. -/
inductive Underway (u : Usage) (flow : Flow) (plan : Plan) (r : Reporter) (host : Host) :
    List PlanStep → BuildReport → Session → List Attempt → Prop
  | intro {disk c past report session} (bench : Bench) (before rest : List PlanStep)
      (earlier : History u disk c past) (allowed : u.builds flow plan)
      (starts : bench.disk = disk) (order : plan.steps = before ++ rest)
      (sofar : before.foldlM (runStep flow r) {} host ⟨bench, some c⟩ = .ok report session) :
      Underway u flow plan r host rest report session
        (trail flow r host before {} ⟨bench, some c⟩ ++ past)

section
variable {u : Usage} {flow : Flow} {plan : Plan} {r : Reporter} {host : Host} {bench : Bench}
  {c : Fingerprints} {log : List Attempt}

/-- Whether a build succeeds with a report, a bench and records that pass a test. -/
def builtAnd (flow : Flow) (plan : Plan) (r : Reporter) (host : Host) (bench : Bench)
    (c : Fingerprints) (p : BuildReport → Bench → Fingerprints → Bool) : Bool :=
  match runPlan flow plan r host ⟨bench, some c⟩ with
  | .ok report ⟨after, some c⟩ => p report after c
  | _ => false

theorem exists_of_builtAnd {p : BuildReport → Bench → Fingerprints → Bool}
    (h : builtAnd flow plan r host bench c p = true) :
    ∃ report after records,
      runPlan flow plan r host ⟨bench, some c⟩ = .ok report ⟨after, some records⟩ ∧
        p report after records = true := by
  unfold builtAnd at h
  split at h
  · rename_i report after records hrun
    exact ⟨report, after, records, hrun, h⟩
  · cases h

/-- A build that succeeds extends the history. -/
theorem History.ran (earlier : History u bench.disk c log) (allowed : u.builds flow plan)
    {report : BuildReport} {after : Bench} {records : Fingerprints}
    (hrun : runPlan flow plan r host ⟨bench, some c⟩ = .ok report ⟨after, some records⟩) :
    History u after.disk records (trail flow r host plan.steps {} ⟨bench, some c⟩ ++ log) := by
  have hbuilt := History.build flow plan r host bench records earlier allowed rfl
    (by rw [hrun]; rfl)
  rw [hrun] at hbuilt
  exact hbuilt

/-- A build that is about to begin. -/
theorem Underway.begin (plan : Plan) (r : Reporter) (host : Host)
    (earlier : History u bench.disk c log) (allowed : u.builds flow plan) :
    Underway u flow plan r host plan.steps {} ⟨bench, some c⟩ log :=
  .intro bench [] plan.steps earlier allowed rfl rfl rfl

end

theorem Underway.builds {u : Usage} {flow : Flow} {plan : Plan} {r : Reporter} {host : Host}
    {rest : List PlanStep} {report : BuildReport} {session : Session} {log : List Attempt}
    (way : Underway u flow plan r host rest report session log) :
    u.builds flow plan ∧ ∀ step ∈ rest, step ∈ plan.steps := by
  obtain ⟨bench, before, rest, earlier, allowed, starts, order, sofar⟩ := way
  refine ⟨allowed, fun step hstep => ?_⟩
  rw [order]
  exact List.mem_append_right _ hstep

/-- A build that has come one step further. -/
theorem Underway.next {u : Usage} {flow : Flow} {plan : Plan} {r : Reporter} {host : Host}
    {step : PlanStep} {rest : List PlanStep} {report report' : BuildReport}
    {session session' : Session} {log : List Attempt}
    (way : Underway u flow plan r host (step :: rest) report session log)
    (hrun : runStep flow r report step host session = .ok report' session') :
    Underway u flow plan r host rest report' session'
      ((attempt? flow step report session (runStep flow r report step host session)).toList ++
        log) := by
  obtain ⟨bench, before, _, earlier, allowed, starts, order, sofar⟩ := way
  rw [← List.append_assoc, ← trail_snoc sofar step]
  refine .intro bench (before ++ [step]) rest earlier allowed starts (by simp [order]) ?_
  rw [foldlM_snoc_run sofar, hrun]

/-- A property of disk, records and journal that every build and every edit keeps. -/
structure Invariant (u : Usage) (Inv : Disk → Fingerprints → List Attempt → Prop) : Prop where
  start : ∀ disk path, u.starts disk → Inv disk (.empty path) []
  edit : ∀ disk other c log, u.edits disk other → Inv disk c log → Inv other c log
  step : ∀ flow plan step, u.builds flow plan → step ∈ plan.steps →
    ∀ r host report bench c log after, Inv bench.disk c log →
      (last (runStep flow r report step host ⟨bench, some c⟩)).cache = some after →
      Inv (last (runStep flow r report step host ⟨bench, some c⟩)).bench.disk after
        ((attempt? flow step report ⟨bench, some c⟩
          (runStep flow r report step host ⟨bench, some c⟩)).toList ++ log)
  target : ∀ disk c log paths, Inv disk c log → Inv disk (noteThere disk targetConsumer c paths) log

namespace Invariant
variable {u : Usage} {Inv : Disk → Fingerprints → List Attempt → Prop}

/-- The invariant at a session that has records. -/
theorem trail (h : Invariant u Inv) {flow : Flow} {plan : Plan} (allowed : u.builds flow plan)
    {steps : List PlanStep} (hsteps : ∀ step ∈ steps, step ∈ plan.steps) (r : Reporter)
    (host : Host) {bench : Bench} {c : Fingerprints} {log : List Attempt}
    (hinv : Inv bench.disk c log) :
    ∃ after, (last (steps.foldlM (runStep flow r) {} host ⟨bench, some c⟩)).cache = some after ∧
      Inv (last (steps.foldlM (runStep flow r) {} host ⟨bench, some c⟩)).bench.disk after
        (Build.trail flow r host steps {} ⟨bench, some c⟩ ++ log) := by
  refine trail_induction (P := fun session log =>
    ∃ c, session.cache = some c ∧ Inv session.bench.disk c log) ?_ {} ⟨bench, some c⟩ log
    ⟨c, rfl, hinv⟩
  rintro step hstep report ⟨bench, -⟩ log ⟨c, rfl, hinv⟩
  obtain ⟨after, hafter⟩ := runStep_keeps_cache flow r report step host bench c
  exact ⟨after, hafter,
    h.step flow plan step allowed (hsteps step hstep) r host report bench c log after hinv hafter⟩

theorem history (h : Invariant u Inv) {disk : Disk} {c : Fingerprints} {log : List Attempt}
    (hist : History u disk c log) : Inv disk c log := by
  induction hist with
  | start disk path hstart => exact h.start disk path hstart
  | edit other earlier hedit ih => exact h.edit _ other _ _ hedit ih
  | build flow plan r host bench after earlier allowed starts ends ih =>
    subst starts
    obtain ⟨swept, hswept, hinv⟩ := h.trail allowed (fun _ hmem => hmem) r host ih
    obtain ⟨paths, hdisk, hcache⟩ := runPlan_last flow plan r host ⟨bench, some _⟩
    rw [hswept, ends] at hcache
    rw [hdisk, Option.some.inj hcache]
    exact h.target _ _ _ paths hinv

theorem underway (h : Invariant u Inv) {flow : Flow} {plan : Plan} {r : Reporter} {host : Host}
    {rest : List PlanStep} {report : BuildReport} {session : Session} {log : List Attempt}
    (hway : Underway u flow plan r host rest report session log) :
    ∃ c, session.cache = some c ∧ Inv session.bench.disk c log := by
  obtain ⟨bench, before, rest, earlier, allowed, starts, order, sofar⟩ := hway
  subst starts
  have hsteps : ∀ step ∈ before, step ∈ plan.steps := by
    intro step hstep
    rw [order]
    exact List.mem_append_left _ hstep
  have hinv := h.trail allowed hsteps r host (h.history earlier)
  rw [sofar] at hinv
  exact hinv

end Invariant

/-- Over every history the journal accounts for the records. -/
theorem accounts_invariant {u : Usage}
    (named : ∀ flow plan, u.builds flow plan → flow.Named) :
    Invariant u fun _ c log => Accounts c log where
  start _ path _ := accounts_empty path
  edit _ _ _ _ _ h := h
  step flow plan step allowed _ r host report bench c log after h hafter := by
    obtain ⟨found, hfound, haccounts⟩ :=
      accounts_step r host step report bench (named flow plan allowed) h
    cases hfound.symm.trans hafter
    exact haccounts
  target disk c log paths h :=
    h.congr (orderly_noteThere h.orderly disk targetConsumer paths) fun path stage hs => by
      rw [record?_noteThere, if_neg fun hnoted => hs hnoted.1]

/-- Every entry tells what happened to a step of one of the builds. -/
theorem entries_invariant (u : Usage) :
    Invariant u fun _ _ log => ∀ a ∈ log, ∃ flow plan stage, u.builds flow plan ∧
      a.step ∈ plan.steps ∧ a.Happened flow stage where
  start _ _ _ := by simp
  edit _ _ _ _ _ h := h
  step flow plan step allowed hstep r host report bench c log after h _ := by
    intro a ha
    rcases List.mem_append.mp ha with ha | ha
    · obtain ⟨rfl, -, -, stage, happened⟩ := attempt?_spec (Option.mem_toList.mp ha)
      exact ⟨flow, plan, stage, allowed, hstep, happened⟩
    · exact h a ha
  target _ _ _ _ h := h

/-- A step that is passed over. -/
def Skips (flow : Flow) (r : Reporter) (report : BuildReport) (step : PlanStep) (host : Host)
    (session : Session) : Prop :=
  ∃ after, runStep flow r report step host session =
    .ok { report with skipped := report.skipped ++ [step.stage] } after

section
variable {flow : Flow} {r : Reporter} {report : BuildReport} {step : PlanStep} {host : Host}
  {session : Session} {stage : Stage} {ctx : Context}

/-- A step is passed over only if the check found nothing to do. -/
theorem Skips.fresh (h : Skips flow r report step host session)
    (reached : Reached flow step session.bench.disk stage ctx) :
    (step.examine ctx stage.io.produces session.bench.disk session.cache).1 = false := by
  obtain ⟨after, hrun⟩ := h
  rw [← fate_eq_skipped_iff reached report, hrun]
  simp [fate]

/-- The stage of a step that is passed over has run before, and its last run succeeded. -/
theorem Underway.lastRun_of_skip {u : Usage} {plan : Plan} {rest : List PlanStep}
    {log : List Attempt} (named : ∀ flow plan, u.builds flow plan → flow.Named)
    (way : Underway u flow plan r host rest report session log)
    (skips : Skips flow r report step host session)
    (reached : Reached flow step session.bench.disk stage ctx)
    (notTarget : step.stage ≠ targetConsumer) :
    ∃ c run, session.cache = some c ∧ lastRun log step.stage = some run ∧
      run.fate = .succeeded ∧ Accounted c step.stage (some run) := by
  obtain ⟨c, hcache, haccounts⟩ := (accounts_invariant named).underway way
  have hfresh := skips.fresh reached
  rw [hcache] at hfresh
  have haccounted := haccounts.stages step.stage notTarget
  obtain ⟨path, hrecord⟩ := (hasConsumer_iff haccounts.orderly _).mp
    (PlanStep.examine_eq_false_iff.mp hfresh).1
  have hrun : ∃ run, lastRun log step.stage = some run ∧ run.fate = .succeeded := by
    by_contra hnone
    have hidle := haccounted.idle (fun a ha hfate => hnone ⟨a, ha, hfate⟩) path
    rw [hidle] at hrecord
    cases hrecord
  obtain ⟨run, hrun, hfate⟩ := hrun
  exact ⟨c, run, hcache, hrun, hfate, hrun ▸ haccounted⟩

end
end Toolflow
