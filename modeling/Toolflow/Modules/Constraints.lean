import Toolflow.Modules.Vpr

/-! Derives placement constraints for a packed design from the placement of its pins. -/
namespace Toolflow.Modules.Constraints

def interface (name : String) : Interface :=
  Interface.describing {
    name
    phases := 2
    takes := [.required "eblif", .required "net", .required "io_place"]
    produces := [.required "place_constraints"]
    values := [.required "device", .required "part_name", .required "script",
      .optional "extra_opts"] }
  [("place_constraints", "Placement constraints for VPR")]

/-- Beside the packed netlist and named after it. -/
def outputs (ctx : Context) : Except Failure ValueTable := do
  let net ← ctx.takes.requirePath "net"
  return Table.ofList [("place_constraints", .str (Pathname.withExtension net "preplace"))]

/-- The device database: the configured one, else the one `prjxray-config` reports. -/
def databaseRoot (ctx : Context) : Exec String := do
  match ctx.env.str? "prjxray_db" with
  | some root => return root
  | none =>
    let report ← Exec.during .locatingDatabase (Command.ofProgram "prjxray-config").run
    return Text.trim (Text.ofUtf8 report)

def command (ctx : Context) (database : String) : Except Failure Command := do
  let device ← ctx.values.requireText "device"
  let arch := Pathname.join (Pathname.join (Pathname.join ctx.roots.share "arch") device)
    "arch.timing.xml"
  let python := (ctx.env.str? "python3").getD "python3"
  let script ← ctx.values.requireText "script"
  let net ← ctx.takes.requirePath "net"
  let eblif ← ctx.takes.requirePath "eblif"
  let pins ← ctx.takes.requirePath "io_place"
  let part ← ctx.values.requireText "part_name"
  let options := ((ctx.values.get? "extra_opts").map Vpr.optionWords).getD []
  return Command.ofWords ([python, script, "--net", net, "--arch", arch, "--blif", eblif,
    "--input", pins, "--db_root", database, "--part", part] ++ options)

def execute (ctx : Context) (progress : Progress) : Exec Unit := do
  progress.phase "Locating the device database..."
  let database ← databaseRoot ctx
  progress.phase "Saving place constraint data..."
  let command ← Exec.ofExcept (command ctx database)
  let stdout ← Exec.during (.constraining ctx.stage) command.run
  let target ← Exec.ofExcept (ctx.outputs.requirePath "place_constraints")
  Exec.change (.writing target) (·.write target stdout)

def make (args : ModuleArgs) : Except Failure ToolModule :=
  .ok { io := interface args.instanceName, outputs, execute }

end Toolflow.Modules.Constraints
