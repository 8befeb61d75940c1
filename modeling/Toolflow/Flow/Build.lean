import Toolflow.Flow.Plan

/-! Building: the steps of a plan in order, each on a fresh context.

A step is skipped when an earlier run left records for its stage, no take differs from them and
every mandatory output exists. When a stage fails, or does not write what it has to, all records
it left are dropped, so that it runs again next time. -/
namespace Toolflow

structure BuildReport where
  executed : List String := []
  skipped : List String := []
deriving Repr, DecidableEq

/-- The bench and the fingerprints of a build. -/
structure Session where
  bench : Bench
  cache : Option Fingerprints

abbrev Build := ReaderT Host (EStateM Failure Session)

namespace Build

/-- Works at the bench. -/
def exec {α : Type} (x : Exec α) : Build α := fun host session =>
  match x host session.bench with
  | .ok a bench => .ok a { session with bench }
  | .error cause bench => .error cause { session with bench }

def disk : Build Disk := return (← get).bench.disk

def say (r : Reporter) (level : Int) (message : String) : Build Unit :=
  exec (Exec.print (r.line level message))

def ofExcept {α : Type} (x : Except Failure α) : Build α := exec (Exec.ofExcept x)

/-- Records a path for a consumer and answers whether it differed from the record. Without
fingerprints nothing is recorded. -/
def record (path consumer : String) : Build Bool := do
  match (← get).cache with
  | none => return true
  | some cache =>
    let (changed, cache) ← ofExcept (cache.update (← disk) path consumer)
    modify fun session => { session with cache := some cache }
    return changed

/-- Drops the records of a consumer. -/
def forget (consumer : String) : Build Unit :=
  modify fun session => { session with cache := session.cache.map (·.forget consumer) }

/-- Names a stage whose run failed. -/
def failingStage {α : Type} (stage : String) (cause : Failure) : Build α :=
  throw (.stage stage .exec cause)

/-- Whether a take calls for a run. Paths that are bound are recorded; those that are absent count
only if an earlier run has seen them. -/
def takeChanged (step : PlanStep) (ctx : Context) (take : String) (planned : Value) :
    Build Bool :=
  match ctx.takes.get? take with
  | some v => v.strings.foldlM (fun changed path => do
      let differs ← record path step.stage
      return changed || differs) false
  | none => planned.strings.foldlM (fun changed path => do
      match (← get).cache with
      | none => return changed
      | some cache =>
        if cache.probe (← disk) path step.stage = .untracked then return changed
        let differs ← record path step.stage
        return changed || differs) false

/-- Records a path as a product if it is there. Answers whether it is. -/
def recordProduct (path : String) : Build Bool := do
  let there := (← disk).exists? path
  if there then
    let _ ← record path Fingerprints.targetConsumer
  return there

/-- Whether a stage has to run: it left no records, a take changed, or an output is missing. All
takes and outputs are looked at, so that the records are complete afterwards. -/
def isStale (step : PlanStep) (ctx : Context) (produces : List Declared) : Build Bool := do
  match (← get).cache with
  | none => return true
  | some cache =>
    let known := cache.hasConsumer step.stage
    let changed ← step.inputs.takes.entries.foldlM (fun changed (take, planned) => do
      let differs ← takeChanged step ctx take planned
      return changed || differs) false
    let paths := (mandatoryOutputs produces step.outputs).flatMap (·.strings)
    let missing ← paths.foldlM (fun missing path => do
      let there ← recordProduct path
      return missing || !there) false
    return !known || changed || missing

/-- Records what a stage wrote. A mandatory output that is not there fails the stage. -/
def checkProduct (step : PlanStep) (product : Declared) : Build Unit := do
  let paths := ((step.outputs.get? product.name).map (·.strings)).getD []
  for path in paths do
    if (← disk).exists? path then
      let _ ← record path step.stage
    else if product.strictness ≠ .optional then
      forget step.stage
      failingStage step.stage (.fault (.productMissing product.name path))

/-- Runs the module of a stage, and drops the stage's records when it fails. -/
def execute (r : Reporter) (stage : Stage) (ctx : Context) : Build Unit := fun host session =>
  let bench := { session.bench with phases := 0 }
  match stage.module.execute ctx ⟨r, stage.io.phases⟩ host bench with
  | .ok _ bench => .ok () { session with bench }
  | .error cause bench =>
    (forget stage.name *> failingStage stage.name cause) host { session with bench }

/-- Runs one step, or skips it. -/
def runStep (flow : Flow) (r : Reporter) (report : BuildReport) (step : PlanStep) :
    Build BuildReport := do
  let stage ← ofExcept (flow.stage step.stage)
  let ctx ← match Context.build stage.module step.stage step.inputs step.env flow.roots
      (← disk) with
    | .ok ctx => pure ctx
    | .error cause => failingStage step.stage cause
  if ← isStale step ctx stage.io.produces then
    say r 1 s!"Executing stage `{step.stage}`:"
    execute r stage ctx
    stage.io.produces.forM (checkProduct step)
    say r 1 s!"Stage `{step.stage}` has finished its work!"
    return { report with executed := report.executed ++ [step.stage] }
  say r 0 s!"Skipping stage `{step.stage}` (cached)"
  return { report with skipped := report.skipped ++ [step.stage] }

/-- Runs the steps of a plan and names the files of the target. -/
def runPlan (flow : Flow) (plan : Plan) (r : Reporter) : Build BuildReport := do
  let report ← plan.steps.foldlM (runStep flow r) {}
  match plan.targetPath? with
  | none => throw (.fault (.targetUnresolved plan.target))
  | some v =>
    v.strings.forM fun path => do
      let _ ← recordProduct path
    say r 0 s!"Target `{plan.target}` -> {v.text}"
    return report

end Build
end Toolflow
