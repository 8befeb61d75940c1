import Toolflow.Modules.Vpr

/-! Routes a placed design with VPR. -/
namespace Toolflow.Modules.Routing

def interface (name : String) : Interface :=
  Interface.describing {
    name
    phases := 2
    takes := [.required "eblif", .required "place", .optional "sdc"]
    produces := [.required "route"]
    values := Vpr.declaredValues [] }
  [("route", "Routing result")]

/-- Where VPR writes the routing: beside the netlist and named after it. -/
def defaultRoute (eblif : String) : String := Pathname.withExtension eblif "route"

def outputs (ctx : Context) : Except Failure ValueTable := do
  return Table.ofList [("route", .str (defaultRoute (← ctx.takes.requirePath "eblif")))]

def execute (ctx : Context) (progress : Progress) : Exec Unit := do
  let eblif ← Exec.ofExcept (ctx.takes.requirePath "eblif")
  let dir := Pathname.directoryOf eblif
  progress.phase "Routing with VPR..."
  let settings ← Exec.ofExcept (Vpr.Settings.ofContext ctx (ctx.takes.str? "sdc"))
  Vpr.run ctx .route settings dir
  if ctx.isExplicit "route" then
    let target ← Exec.ofExcept (ctx.outputs.requirePath "route")
    Vpr.moveOutput (defaultRoute eblif) target
  progress.phase "Saving log..."
  Vpr.saveLog dir (Pathname.join dir "route.log")

def make (args : ModuleArgs) : Except Failure ToolModule :=
  .ok { io := interface args.instanceName, outputs, execute }

end Toolflow.Modules.Routing
