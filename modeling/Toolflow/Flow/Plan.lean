import Toolflow.Fingerprints
import Toolflow.Flow.Basic

/-! Plans: which stages have to run for a target, and in what order.

A dependency is produced by exactly one stage or bound in the configuration. Planning goes
backwards from the target. It builds the context of each producer after those of its takes, so
that later stages can refer to its outputs as `${:name}`, and predicts from the fingerprints
whether the stage will have to run. -/
namespace Toolflow

/-- One stage of a plan. -/
structure PlanStep where
  stage : String
  inputs : StageInputs
  /-- The stage's environment with the paths of earlier dependencies bound. -/
  env : Environment
  /-- The paths the stage will write, by product. -/
  outputs : ValueTable
  /-- Whether the stage is expected to run. -/
  required : Bool
deriving DecidableEq

/-- Where a dependency stands before the build. -/
inductive DependencyStatus where
  /-- Neither produced nor bound, or bound to files that are not there. -/
  | missing
  /-- Its producer gives no path for it. -/
  | unmapped
  /-- It will be made anew over files that exist. -/
  | rebuild
  /-- It will be made; there are no files yet. -/
  | scheduled
  /-- It is there, but not as its consumers saw it last. -/
  | changed
  | upToDate
deriving Repr, DecidableEq

def DependencyStatus.marker : DependencyStatus → String
  | .missing => "[X]"
  | .unmapped => "[U]"
  | .rebuild => "[R]"
  | .scheduled => "[S]"
  | .changed => "[N]"
  | .upToDate => "[O]"

structure Plan where
  target : String
  steps : List PlanStep
  /-- The paths of every dependency met while planning. -/
  paths : ValueTable
  /-- How many steps that have to run write each dependency. -/
  rebuilds : Table Nat
  missing : NameSet
  unmapped : NameSet
deriving DecidableEq

/-- The outputs that have to exist after a stage has run. -/
def mandatoryOutputs (produces : List Declared) (outputs : ValueTable) : List Value :=
  (produces.filter (·.strictness ≠ .optional)).filterMap fun d => outputs.get? d.name

namespace Flow

/-- The stage that produces each dependency; no two stages may produce the same. -/
def producers (f : Flow) : Except Failure (Table String) :=
  f.stages.entries.foldlM (fun producers (name, stage) =>
    stage.io.produces.foldlM (fun (producers : Table String) d =>
      match producers.get? d.name with
      | some other => refuse (.twoProducers d.name other name)
      | none => .ok (producers.insert d.name name)) producers) .empty

/-- The takes of the stage that produces a dependency. -/
def takesFor (f : Flow) (producers : Table String) (dep : String) : List String :=
  match (producers.get? dep).bind f.stages.get? with
  | some stage => stage.io.takes.map (·.name)
  | none => []

/-- Adds to `seen` the queued dependencies and all that their producers take in turn. -/
def demandFrom (f : Flow) (producers : Table String) : Nat → List String → NameSet → NameSet
  | 0, _, seen => seen
  | _ + 1, [], seen => seen
  | fuel + 1, dep :: queue, seen =>
    if seen.contains dep then demandFrom f producers fuel queue seen
    else demandFrom f producers fuel (takesFor f producers dep ++ queue) (seen.add dep)

/-- The number of takes of all stages. -/
def takeCount (f : Flow) : Nat := (f.stages.values.flatMap (·.io.takes)).length

/-- The target and every take that is reached from it through producers. At most one name for each
take and the target get their takes queued, which bounds the rounds. -/
def demanded (f : Flow) (producers : Table String) (target : String) : NameSet :=
  demandFrom f producers ((f.takeCount + 1) * (f.takeCount + 1) + 1) [target] .empty

end Flow

/-- What planning starts from. -/
structure PlanSources where
  flow : Flow
  cache : Option Fingerprints
  disk : Disk
  demanded : NameSet

/-- Where planning stands. -/
structure Planning where
  producers : Table String
  paths : ValueTable
  /-- The path variables of the dependencies met so far. -/
  pathEnv : Environment
  steps : List PlanStep
  planned : NameSet
  missing : NameSet
  unmapped : NameSet
  /-- The products of steps that have to run. -/
  rebuilt : NameSet

namespace Planning

def start (producers : Table String) : Planning :=
  ⟨producers, .empty, .empty, [], .empty, .empty, .empty, .empty⟩

/-- Notes the path of a dependency. -/
def bind (p : Planning) (cwd dep : String) (v : Value) : Planning :=
  { p with paths := p.paths.insert dep v, pathEnv := p.pathEnv.addPathVariants cwd dep v }

/-- Notes the outputs of a stage: those with a path are bound, the others have no producer. -/
def bindProduct (cwd : String) (outputs : Bindings) (p : Planning) (d : Declared) : Planning :=
  match outputs.get? d.name with
  | some v => p.bind cwd d.name v
  | none =>
    { p with producers := p.producers.erase d.name, unmapped := p.unmapped.add d.name }

end Planning

namespace PlanSources

/-- Whether a take differs from what the stage saw last, or will be made anew. -/
def takeChanged (s : PlanSources) (cache : Fingerprints) (stage : String) (inputs : StageInputs)
    (rebuilt : NameSet) (take : Declared) : Bool :=
  match inputs.takes.get? take.name with
  | none => false
  | some v =>
    rebuilt.contains take.name || v.strings.any fun path =>
      match cache.probe s.disk path stage with
      | .same => false
      -- an optional input that never existed changes nothing
      | .untracked => take.isRequired || s.disk.exists? path
      | .changed => true

/-- Whether a stage is expected to run. -/
def mustRun (s : PlanSources) (stage : Stage) (inputs : StageInputs) (outputs : ValueTable)
    (rebuilt : NameSet) : Bool :=
  match s.cache with
  | none => true
  | some cache =>
    !cache.hasConsumer stage.name
      || stage.io.takes.any (s.takeChanged cache stage.name inputs rebuilt)
      || (mandatoryOutputs stage.io.produces outputs).any (!s.disk.holds ·)

/-- What a stage is fed with, given the paths met so far. -/
def inputsOf (s : PlanSources) (stage : Stage) (paths : ValueTable) : StageInputs where
  takes := stage.io.takes.foldl (fun t take =>
    match paths.get? take.name with
    | some v => t.insert take.name v
    | none => t) .empty
  produces := stage.io.produces.foldl (fun t d =>
    match s.flow.dependencies.get? d.name with
    | some v => t.insert d.name v
    | none => t) .empty
  demanded := stage.io.produces.foldl (fun t d =>
    if s.demanded.contains d.name then t.add d.name else t) .empty

/-- Adds the step of a stage whose takes have all been met. -/
def addStep (s : PlanSources) (p : Planning) (stage : Stage) : Except Failure Planning := do
  let inputs := s.inputsOf stage p.paths
  let env := p.pathEnv.values.entries.foldl
    (fun (env : Environment) (name, v) => env.bindRaw name v) stage.env
  let ctx ← match Context.build stage.module stage.name inputs env s.flow.roots s.disk with
    | .ok ctx => .ok ctx
    | .error cause => .error (.stage stage.name .map cause)
  let outputs := stage.io.produces.foldl (fun (t : ValueTable) d =>
    match ctx.outputs.get? d.name with
    | some v => t.insert d.name v
    | none => t) .empty
  let p := stage.io.produces.foldl (Planning.bindProduct s.disk.cwd ctx.outputs) p
  let required := s.mustRun stage inputs outputs p.rebuilt
  return { p with
    rebuilt := if required then NameSet.union p.rebuilt outputs.keys else p.rebuilt
    steps := p.steps ++ [{ stage := stage.name, inputs, env, outputs, required }]
    planned := p.planned.add stage.name }

/-- Meets a dependency: plans its producer with `planStage`, or takes its binding. -/
def meet (s : PlanSources) (planStage : Planning → String → Except Failure Planning)
    (unmet : Fault) (required : Bool) (p : Planning) (dep : String) : Except Failure Planning := do
  if p.paths.contains dep then return p
  let p ← match p.producers.get? dep with
    | some stage => planStage p stage
    | none =>
      match s.flow.dependencies.get? dep with
      | some v => .ok (p.bind s.disk.cwd dep v)
      | none =>
        .ok (if p.unmapped.contains dep then p else { p with missing := p.missing.add dep })
  if required ∧ ¬ p.paths.contains dep then refuse unmet
  return p

/-- Plans a stage after the producers of its takes. `visiting` are the stages that wait for it,
outermost first. They are distinct, so fuel above the number of stages is never used up. -/
def planStage (s : PlanSources) : Nat → List String → Planning → String →
    Except Failure Planning
  | 0, _, p, _ => .ok p
  | fuel + 1, visiting, p, name => do
    if p.planned.contains name then return p
    if name ∈ visiting then
      refuse (.stageCycle (visiting.dropWhile (· ≠ name) ++ [name]))
    let stage ← s.flow.stage name
    let p ← stage.io.takes.foldlM (fun p take =>
      s.meet (planStage s fuel (visiting ++ [name])) (.unmetTake take.name name) take.isRequired
        p take.name) p
    s.addStep p stage

end PlanSources

/-- How many steps that have to run write each product. -/
def countRebuilds (steps : List PlanStep) : Table Nat :=
  (steps.filter (·.required)).foldl (fun counts step =>
    step.outputs.keys.foldl (fun (counts : Table Nat) name =>
      counts.insert name ((counts.get? name).getD 0 + 1)) counts) .empty

/-- Plans the stages that a target needs. -/
def Flow.plan (f : Flow) (target : String) (cache : Option Fingerprints) (disk : Disk) :
    Except Failure Plan := do
  let producers ← f.producers
  let s : PlanSources := { flow := f, cache, disk, demanded := f.demanded producers target }
  let p ← s.meet (s.planStage (f.stages.size + 1) []) (.unmetTarget target) true
    (Planning.start producers) target
  return {
    target
    steps := p.steps
    paths := p.paths
    rebuilds := countRebuilds p.steps
    missing := p.missing
    unmapped := p.unmapped }

namespace Plan

def targetPath? (p : Plan) : Option Value := p.paths.get? p.target

/-- Whether some step that takes a dependency has seen it otherwise. -/
def seenOtherwise (p : Plan) (dep : String) (v : Value) (cache : Fingerprints) (disk : Disk) :
    Bool :=
  p.steps.any fun step =>
    step.inputs.takes.contains dep
      && v.strings.any fun path => cache.probe disk path step.stage != .same

/-- The status of a dependency; without fingerprints everything counts as changed. -/
def status (p : Plan) (dep : String) (cache : Option Fingerprints) (disk : Disk) :
    DependencyStatus :=
  if p.unmapped.contains dep then .unmapped
  else match p.paths.get? dep with
    | none => .missing
    | some v =>
      if 0 < (p.rebuilds.get? dep).getD 0 then if disk.holds v then .rebuild else .scheduled
      else if ¬ disk.holds v then .missing
      else if cache.all fun cache => p.seenOtherwise dep v cache disk then .changed
      else .upToDate

/-- The dependencies a listing mentions, in name order. -/
def listed (p : Plan) : List String :=
  (NameSet.union (NameSet.ofList (p.paths.keys ++ p.missing.keys)) p.unmapped.keys).keys

end Plan
end Toolflow
