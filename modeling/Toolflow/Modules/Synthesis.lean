import Toolflow.Modules.Parameters
import Toolflow.Registry

/-! Synthesis of HDL sources with Yosys, driven by the platform's TCL scripts.

The parameters `takes` and `produces` declare what the scripts use besides; `prod_meta` describes
products. The scripts `synth.f4pga.tcl` and `conv.f4pga.tcl` lie in `tcl_scripts` and read their
settings from the environment that `yosys_tcl_env` describes. -/
namespace Toolflow.Modules.Synthesis

/-- The environment of a definition: lists are joined with blanks, `null` leaves one out. -/
def scriptVariables (definition : Value) : Table String :=
  match definition.map? with
  | some fields => fields.filterMap fun _ v =>
      if v.isNull then none else some (" ".intercalate v.words)
  | none => .empty

/-- The path all products are named after: `top`, inside `build_dir` if that is bound. -/
def outputBase (ctx : Context) : Except Failure String := do
  let top ← ctx.values.requireText "top"
  return match ctx.takes.str? "build_dir" with
  | some dir => Pathname.join dir top
  | none => top

def outputs (extras : List String) (ctx : Context) : Except Failure ValueTable := do
  let base ← outputBase ctx
  let device ← ctx.values.requireText "device"
  let own : List (String × String) := [
    ("eblif", base ++ ".eblif"),
    ("fasm_extra", base ++ "_fasm_extra.fasm"),
    ("json", base ++ ".json"),
    ("synth_json", base ++ "_io.json"),
    ("synth_log", base ++ "_synth.log")]
  let dir := Pathname.directoryOf base
  let further := extras.map fun name => (name, Pathname.join dir s!"{device}_{name}.{name}")
  return Table.ofList ((own ++ further).map fun (name, path) => (name, .str path))

/-- The environment of the scripts; output paths stand there as `${:name}`. -/
def scriptEnvironment (ctx : Context) : Table String :=
  match ctx.values.get? "yosys_tcl_env" with
  | some definition =>
    let env := ctx.outputs.bound.entries.foldl
      (fun (env : Environment) (name, v) => env.bindRaw (":" ++ name) v) ctx.env
    scriptVariables (env.resolveFinal definition)
  | none => .empty

def yosys (ctx : Context) (environment : Table String) : Exec Command :=
  return { argv := [← Exec.locateTool ctx.roots.bin "yosys"], env := environment }

/-- The synthesis command. With reader flags the script reads the sources, else the command line
does. -/
def synthesize (ctx : Context) (environment : Table String) : Exec Command := do
  let scripts ← Exec.ofExcept (ctx.values.requirePath "tcl_scripts")
  let sources := (← Exec.ofExcept (ctx.takes.require "sources")).words
  let call := "tcl " ++ Pathname.join scripts "synth.f4pga.tcl"
  let (script, sources) := match ctx.values.get? "read_verilog_args" with
    | some flags =>
      let flags := " ".intercalate flags.words
      (String.join (sources.map fun source => s!"read_verilog {flags} {source}; ") ++ call, [])
    | none => (call, sources)
  let command := (← yosys ctx environment).args ["-p", script]
  let command := match ctx.outputs.str? "synth_log" with
    | some log => command.args ["-l", log]
    | none => command
  return command.args sources

def execute (ctx : Context) (progress : Progress) : Exec Unit := do
  let environment := scriptEnvironment ctx
  let some utils := environment.get? "UTILS_PATH" | Exec.refuse (.missingUtils ctx.stage)
  let command ← synthesize ctx environment
  if progress.isVerbose then
    let sources ← Exec.ofExcept (ctx.takes.require "sources")
    progress.phase s!"Synthesizing sources: {sources.text}..."
  else
    progress.phase "Synthesizing sources..."
  discard <| Exec.during (.synthesizing ctx.stage) command.run
  progress.phase "Splitting in/outs..."
  let json ← Exec.ofExcept (ctx.outputs.requirePath "json")
  let pins ← Exec.ofExcept (ctx.outputs.requirePath "synth_json")
  let python := (ctx.env.str? "python3").getD "python3"
  discard <| Exec.during (.splittingPins ctx.stage)
    (Command.ofWords [python, Pathname.join utils "split_inouts.py", "-i", json, "-o", pins]).run
  let extra ← Exec.ofExcept (ctx.outputs.requirePath "fasm_extra")
  if ¬ (← Exec.disk).isFile extra then
    Exec.change (.writing extra) (·.write extra .empty)
  progress.phase "Converting..."
  let scripts ← Exec.ofExcept (ctx.values.requirePath "tcl_scripts")
  let convert := s!"read_json {pins}; tcl " ++ Pathname.join scripts "conv.f4pga.tcl"
  let command := (← yosys ctx environment).args ["-p", convert]
  discard <| Exec.during (.converting ctx.stage) command.run

def baseInterface (name : String) : Interface :=
  Interface.describing {
    name
    phases := 3
    takes := [.required "sources", .optional "build_dir"]
    produces := [.required "eblif", .required "fasm_extra", .required "json",
      .required "synth_json", .onDemand "synth_log"]
    values := [.required "top", .required "device", .required "tcl_scripts",
      .optional "yosys_tcl_env", .optional "read_verilog_args"] }
  [("eblif", "Extended BLIF hierarchical sequential designs file\ngenerated by YOSYS"),
    ("json", "JSON file containing a design generated by YOSYS"),
    ("synth_log", "YOSYS synthesis log"),
    ("fasm_extra", "Extra FASM generated during sythesis stage. Needed in some designs.\nIn case it's not necessary, the file will be empty.")]

def make (args : ModuleArgs) : Except Failure ToolModule := do
  let takes ← Parameters.declared args.params "takes"
  let extras ← Parameters.declared args.params "produces"
  extras.forM fun d =>
    if d.strictness = .optional then refuse (.optionalExtra d.text) else .ok ()
  let base := baseInterface args.instanceName
  let described := match (Parameters.get? args.params "prod_meta").bind Value.map? with
    | some fields => fields.entries.map fun (name, v) => (name, v.text)
    | none => []
  let io := Interface.describing
    { base with takes := base.takes ++ takes, produces := base.produces ++ extras } described
  let mapped := (extras.filter Declared.isRequired).map (·.name)
  return { io, outputs := outputs mapped, execute }

end Toolflow.Modules.Synthesis
