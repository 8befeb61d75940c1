import Toolflow.Modules.Vpr

/-! Timing analysis of a routed design with VPR, which also writes netlists of the result. -/
namespace Toolflow.Modules.Timing

def interface (name : String) : Interface :=
  Interface.describing {
    name
    phases := 2
    takes := [.required "eblif", .required "route", .optional "sdc"]
    produces := [.required "merged_post_implementation_v", .required "post_implementation_v",
      .required "analysis_log"]
    values := Vpr.declaredValues [] }
  [("merged_post_implementation_v", "Post-implementation netlist with merged nets"),
    ("post_implementation_v", "Post-implementation netlist"),
    ("analysis_log", "VPR log from timing analysis")]

/-- The netlists VPR writes: products and the endings of their names. -/
def netlists : List (String × String) :=
  [("merged_post_implementation_v", "_merged_post_implementation.v"),
    ("post_implementation_v", "_post_synthesis.v")]

/-- Where VPR writes a netlist: the path of the input without extension, and the ending. -/
def netlistPath (eblif ending : String) : String := Pathname.withExtension eblif "" ++ ending

def outputs (ctx : Context) : Except Failure ValueTable := do
  let eblif ← ctx.takes.requirePath "eblif"
  return Table.ofList (
    netlists.map (fun (name, ending) => (name, .str (netlistPath eblif ending)))
      ++ [("analysis_log", .str (Pathname.join (Pathname.directoryOf eblif) "analysis.log"))])

def execute (ctx : Context) (progress : Progress) : Exec Unit := do
  let eblif ← Exec.ofExcept (ctx.takes.requirePath "eblif")
  let dir := Pathname.directoryOf eblif
  progress.phase "Analysis with VPR..."
  let settings ← Exec.ofExcept (Vpr.Settings.ofContext ctx (ctx.takes.str? "sdc"))
  Vpr.run ctx .analysis settings dir
  netlists.forM fun (name, ending) => do
    if ctx.isExplicit name then
      let target ← Exec.ofExcept (ctx.outputs.requirePath name)
      Vpr.moveOutput (netlistPath eblif ending) target
  progress.phase "Saving log..."
  Vpr.saveLog dir (← Exec.ofExcept (ctx.outputs.requirePath "analysis_log"))

def make (args : ModuleArgs) : Except Failure ToolModule :=
  .ok { io := interface args.instanceName, outputs, execute }

end Toolflow.Modules.Timing
