import Toolflow.Modules.Vpr

/-! Places a packed design with VPR. -/
namespace Toolflow.Modules.Placement

def interface (name : String) : Interface :=
  Interface.describing {
    name
    phases := 2
    takes := [.required "eblif", .optional "sdc", .optional "place_constraints",
      .optional "io_place"]
    produces := [.required "place"]
    values := Vpr.declaredValues [] }
  [("place", "Placement result")]

/-- Where VPR writes the placement: beside the netlist and named after it. -/
def defaultPlace (eblif : String) : String := Pathname.withExtension eblif "place"

def outputs (ctx : Context) : Except Failure ValueTable := do
  return Table.ofList [("place", .str (defaultPlace (← ctx.takes.requirePath "eblif")))]

/-- The constraints given to VPR, and whether they are an empty file yet to be made. -/
def constraints (ctx : Context) (eblif : String) : String × Bool :=
  match (ctx.takes.str? "place_constraints").or (ctx.takes.str? "io_place") with
  | some path => (path, false)
  | none =>
    let stem := (Pathname.fileStem? eblif).getD ""
    (Pathname.join (Pathname.directoryOf eblif) s!"{stem}_constraints.place", true)

def execute (ctx : Context) (progress : Progress) : Exec Unit := do
  let eblif ← Exec.ofExcept (ctx.takes.requirePath "eblif")
  let dir := Pathname.directoryOf eblif
  let (fixed, placeholder) := constraints ctx eblif
  if placeholder then Exec.change (.writing fixed) (·.write fixed .empty)
  progress.phase "Running VPR..."
  let settings ← Exec.ofExcept (Vpr.Settings.ofContext ctx (ctx.takes.str? "sdc"))
  Vpr.run ctx .place
    { settings with optional := settings.optional ++ ["--fix_clusters", fixed] } dir
  if ctx.isExplicit "place" then
    let target ← Exec.ofExcept (ctx.outputs.requirePath "place")
    Vpr.moveOutput (defaultPlace eblif) target
  progress.phase "Saving log..."
  Vpr.saveLog dir (Pathname.join dir "place.log")

def make (args : ModuleArgs) : Except Failure ToolModule :=
  .ok { io := interface args.instanceName, outputs, execute }

end Toolflow.Modules.Placement
