import Toolflow.Registry

/-! What the stages that run VPR have in common: the values they read, the command line, and the
moving of what VPR writes under names of its own. -/
namespace Toolflow.Modules.Vpr

/-- The values every run of VPR reads. -/
def commonValues : List String :=
  ["arch_def", "rr_graph_lookahead_bin", "rr_graph_real_bin", "vpr_place_delay",
    "vpr_grid_layout_name", "vpr_options?"]

/-- The log that VPR writes into its working directory. -/
def logName : String := "vpr_stdout.log"

/-- `device`, then the given names, then the common ones; of names that occur twice the first
counts. -/
def values (extras : List String) : Except Failure (List Declared) :=
  (extras ++ commonValues).foldlM (fun known text => do
    let d ← Declared.parse text
    return if known.any (·.name = d.name) then known else known ++ [d]) [.required "device"]

/-- The declarations of values for extras that are well formed. -/
def declaredValues (extras : List String) : List Declared :=
  match values extras with
  | .ok ds => ds
  | .error _ => []

/-- Options as words: `{name: value}` gives `--name value`, an empty list a bare flag. -/
def optionWords (options : Value) : List String :=
  match options.map? with
  | some fields => fields.entries.flatMap fun (key, v) => ("--" ++ key) :: v.words
  | none => options.words

structure Settings where
  archDef : String
  eblif : String
  deviceName : String
  rrGraph : String
  lookahead : String
  placeDelay : String
  optional : List String
deriving Repr, DecidableEq

def Settings.ofContext (ctx : Context) (sdc : Option String) : Except Failure Settings := do
  let options := ((ctx.values.get? "vpr_options").map optionWords).getD []
  let optional := options ++ match sdc with
    | some path => ["--sdc_file", path]
    | none => []
  let archDef ← ctx.values.requireText "arch_def"
  let eblif ← ctx.takes.requirePath "eblif"
  let deviceName ← ctx.values.requireText "vpr_grid_layout_name"
  let rrGraph ← ctx.values.requireText "rr_graph_real_bin"
  let lookahead ← ctx.values.requireText "rr_graph_lookahead_bin"
  let placeDelay ← ctx.values.requireText "vpr_place_delay"
  return { archDef, eblif, deviceName, rrGraph, lookahead, placeDelay, optional }

inductive Job where
  | pack
  | place
  | route
  | analysis
deriving Repr, DecidableEq

def Job.name : Job → String
  | .pack => "pack"
  | .place => "place"
  | .route => "route"
  | .analysis => "analysis"

/-- The command line of a job. -/
def command (ctx : Context) (program : String) (job : Job) (s : Settings) (cwd : String) :
    Command where
  argv := [program, s.archDef, s.eblif, "--device", s.deviceName, "--read_rr_graph", s.rrGraph,
    "--read_router_lookahead", s.lookahead, "--read_placement_delay_lookup", s.placeDelay,
    "--" ++ job.name] ++ s.optional
  cwd := some cwd
  env := match ctx.env.str? "noisyWarnings" with
    | some log => Table.empty.insert "OUR_NOISY_WARNINGS" log
    | none => .empty

/-- Runs a job in a directory. -/
def run (ctx : Context) (job : Job) (s : Settings) (cwd : String) : Exec Unit := do
  let program ← Exec.locateTool ctx.roots.bin "vpr"
  discard <| Exec.during (.runningVpr job.name ctx.stage) (command ctx program job s cwd).run

/-- Gives a file another name, unless both name the same file. -/
def moveOutput (source target : String) : Exec Unit := do
  if ¬ Pathname.same source target then
    Exec.change (.moving source target) (·.rename source target)

/-- Moves VPR's log out of the directory it ran in. -/
def saveLog (dir target : String) : Exec Unit := do
  let log := Pathname.join dir logName
  Exec.change (.moving log target) (·.rename log target)

end Toolflow.Modules.Vpr
