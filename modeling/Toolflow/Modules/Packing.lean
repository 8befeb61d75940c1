import Toolflow.Modules.Vpr

/-! Packs a synthesized netlist with VPR. -/
namespace Toolflow.Modules.Packing

def timingReport : String := "pre_pack.report_timing.setup.rpt"

def utilizationReport : String := "packing_pin_util.rpt"

def interface (name : String) : Interface :=
  Interface.describing {
    name
    phases := 2
    takes := [.required "eblif", .optional "sdc"]
    produces := [.required "net", .required "util_rpt", .required "timing_rpt",
      .onDemand "pack_log"]
    values := Vpr.declaredValues [] }
  [("net", "Packed netlist"),
    ("util_rpt", "Pin utilization report"),
    ("timing_rpt", "Pre-pack timing report"),
    ("pack_log", "VPR log from packing")]

def outputs (ctx : Context) : Except Failure ValueTable := do
  let eblif ← ctx.takes.requirePath "eblif"
  let dir := Pathname.directoryOf eblif
  return Table.ofList [
    ("net", .str (Pathname.withExtension eblif "net")),
    ("util_rpt", .str (Pathname.join dir utilizationReport)),
    ("timing_rpt", .str (Pathname.join dir timingReport)),
    ("pack_log", .str (Pathname.join dir "pack.log"))]

/-- Moves the log if it is asked for and removes it otherwise. -/
def disposeLog (ctx : Context) (dir : String) : Exec Unit := do
  let log := Pathname.join dir Vpr.logName
  match ctx.outputs.str? "pack_log" with
  | some target => Vpr.moveOutput log target
  | none => if (← Exec.disk).exists? log then Exec.change (.removing log) (·.removeFile log)

def execute (ctx : Context) (progress : Progress) : Exec Unit := do
  let net ← Exec.ofExcept (ctx.outputs.requirePath "net")
  let dir := Pathname.directoryOf net
  progress.phase "Packing with VPR..."
  let settings ← Exec.ofExcept (Vpr.Settings.ofContext ctx (ctx.takes.str? "sdc"))
  Vpr.run ctx .pack settings dir
  progress.phase "Moving/deleting files..."
  disposeLog ctx dir
  if let some target := ctx.outputs.str? "timing_rpt" then
    Vpr.moveOutput (Pathname.join dir timingReport) target
  if let some target := ctx.outputs.str? "util_rpt" then
    Vpr.moveOutput (Pathname.join dir utilizationReport) target

def make (args : ModuleArgs) : Except Failure ToolModule :=
  .ok { io := interface args.instanceName, outputs, execute }

end Toolflow.Modules.Packing
