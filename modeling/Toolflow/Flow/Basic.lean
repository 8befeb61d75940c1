import Toolflow.Description.Basic
import Toolflow.Registry

/-! A flow: the resolved configuration of a platform for one part.

Values stack in layers, later ones on top: the platform's, the project's, those of the project's
section for the part, the command line's. The environment of a stage is built from the same stack
with the stage's own blocks in their places: behind the platform's values, behind the part's, and
last those of the command line for the stage. Every layer is used once. -/
namespace Toolflow

/-- A configured stage. -/
structure Stage where
  name : String
  /-- The module's reference as the platform writes it. -/
  reference : String
  module : ToolModule
  /-- The values set for this stage alone, unresolved. -/
  overrides : ValueTable
  env : Environment

namespace Stage

def io (s : Stage) : Interface := s.module.io

end Stage

structure Flow where
  part : String
  platform : String
  stages : Table Stage
  /-- Paths bound in the configuration, resolved and absolute. -/
  dependencies : ValueTable
  defaultTarget : Option String
  roots : Roots

namespace Flow

def stage (f : Flow) (name : String) : Except Failure Stage :=
  match f.stages.get? name with
  | some stage => .ok stage
  | none => refuse (.unknownStage name f.platform)

/-- The requested target, else the configured default. -/
def selectTarget (f : Flow) (requested : Option String) : Except Failure String :=
  match requested.or f.defaultTarget with
  | some target => .ok target
  | none => refuse .noTarget

end Flow

/-- All that a flow is composed of. -/
structure FlowSources where
  platformName : String
  part : String
  platform : Platform
  project : Project
  overrides : Overrides
  /-- Values bound below all layers. -/
  builtins : ValueTable
  roots : Roots

namespace FlowSources

def partSection (s : FlowSources) : PartSection := s.project.part s.part

/-- The layers every part of the flow sees. -/
def layers (s : FlowSources) : List ValueTable :=
  [s.platform.values, s.project.values, s.partSection.values, s.overrides.values]

/-- The layers of one stage. -/
def stageLayers (s : FlowSources) (name : String) (d : StageDescription) : List ValueTable :=
  [s.platform.values, d.values, s.project.values, s.partSection.values,
    (s.partSection.stageBlock name).values, s.overrides.values, (s.overrides.stageBlock name).values]

/-- The blocks that belong to one stage alone. -/
def stageOwn (s : FlowSources) (name : String) (d : StageDescription) : List ValueTable :=
  [d.values, (s.partSection.stageBlock name).values, (s.overrides.stageBlock name).values]

/-- Layers on top of the built-in values. -/
def layered (s : FlowSources) (ls : List ValueTable) : Except Failure Environment :=
  (Environment.ofValues s.builtins).layers ls

/-- Tables laid over each other; later entries win. -/
def merged (ls : List ValueTable) : ValueTable := ls.foldl Table.extend .empty

def composeStage (s : FlowSources) (registry : Registry) (name : String) (d : StageDescription) :
    Except Failure (Stage × Registry) := do
  let env ← during (.resolvingStage name) (s.layered (s.stageLayers name d))
  let (module, registry) ← registry.instantiate d.module
    { params := d.params, env, instanceName := name }
  return ({
    name, reference := d.module, module, overrides := merged (s.stageOwn name d), env }, registry)

/-- Composes the flow as seen from a working directory. -/
def compose (s : FlowSources) (registry : Registry) (cwd : String) : Except Failure Flow := do
  if s.platform.stages.isEmpty then refuse (.noStages s.platformName)
  let env ← during .resolvingFlow (s.layered s.layers)
  let (stages, _) ← s.platform.stages.entries.foldlM (fun (stages, registry) (name, d) => do
    let (stage, registry) ← s.composeStage registry name d
    return (Table.insert stages name stage, registry)) (Table.empty, registry)
  let bound := merged [s.platform.dependencies, s.project.dependencies, s.partSection.dependencies,
    s.overrides.dependencies]
  return {
    part := s.part
    platform := s.platformName
    stages
    dependencies := bound.map fun v => (env.resolve v).absolute cwd
    defaultTarget := s.partSection.defaultTarget.or s.project.defaultTarget
    roots := s.roots }

end FlowSources
end Toolflow
