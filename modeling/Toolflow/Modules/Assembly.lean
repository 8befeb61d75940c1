import Toolflow.Modules.Vpr

/-! Generates the FPGA assembly of a routed design. -/
namespace Toolflow.Modules.Assembly

def interface (name : String) : Interface :=
  Interface.describing {
    name
    phases := 2
    takes := [.required "eblif", .required "net", .required "place", .required "route",
      .optional "fasm_extra", .optional "sdc"]
    produces := [.required "fasm"]
    values := Vpr.declaredValues ["top", "pnr_corner?"] }
  [("fasm", "FPGA assembly file")]

/-- Where the assembly is written: beside the netlist and named after the top module. -/
def defaultFasm (ctx : Context) : Except Failure String := do
  let eblif ← ctx.takes.requirePath "eblif"
  let top ← ctx.values.requireText "top"
  return Pathname.join (Pathname.directoryOf eblif) (top ++ ".fasm")

def outputs (ctx : Context) : Except Failure ValueTable := do
  return Table.ofList [("fasm", .str (← defaultFasm ctx))]

def command (ctx : Context) (program : String) (s : Vpr.Settings) : Command :=
  let corner := match ctx.values.get? "pnr_corner" with
    | some v => ["--pnr_corner", v.text]
    | none => []
  let sdc := match ctx.takes.str? "sdc" with
    | some path => ["--sdc", path]
    | none => []
  Command.ofWords ([program, s.archDef, s.eblif, "--device", s.deviceName, "--read_rr_graph",
    s.rrGraph] ++ s.optional ++ corner ++ sdc)

/-- Appends the extra assembly on a line of its own. -/
def appendExtra (extra fasm : String) : Exec Unit := do
  let text ← Exec.look (.reading extra) (·.readText extra)
  discard <| Exec.look (.opening fasm) fun disk => do
    match ← disk.find fasm with
    | (_, .directory) => .error .isADirectory
    | found => .ok found
  Exec.change (.appending fasm) (·.append fasm ("\n" ++ text).toUTF8)

def execute (ctx : Context) (progress : Progress) : Exec Unit := do
  let eblif ← Exec.ofExcept (ctx.takes.requirePath "eblif")
  let dir := Pathname.directoryOf eblif
  let settings ← Exec.ofExcept (Vpr.Settings.ofContext ctx none)
  let program ← Exec.locateTool ctx.roots.bin "genfasm"
  let command := command ctx program settings
  if progress.isVerbose then
    progress.phase s!"Generating FASM...\n           {command.display}"
  else
    progress.phase "Generating FASM..."
  discard <| Exec.during (.generatingFasm ctx.stage) (command.inDirectory dir).run
  let fasm ← Exec.ofExcept (ctx.outputs.requirePath "fasm")
  Vpr.moveOutput (← Exec.ofExcept (defaultFasm ctx)) fasm
  match ctx.takes.str? "fasm_extra" with
  | some extra => do
    progress.phase "Appending extra FASM..."
    appendExtra extra fasm
  | none => progress.phase "No extra FASM to append"

def make (args : ModuleArgs) : Except Failure ToolModule :=
  .ok { io := interface args.instanceName, outputs, execute }

end Toolflow.Modules.Assembly
