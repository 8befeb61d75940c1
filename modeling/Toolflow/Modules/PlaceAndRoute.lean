import Toolflow.Modules.Parameters
import Toolflow.Registry

/-! Places and routes with nextpnr.

Parameters: `variant`, the architecture in the program's name; `interchange`, to read an
interchange netlist in the place of Yosys' JSON; `extra_opts`, words added to every run. -/
namespace Toolflow.Modules.PlaceAndRoute

structure Setup where
  variant : String
  /-- The take that carries the netlist, and the flag it is passed with. -/
  netlist : String × String
  extra : List String
deriving Repr, DecidableEq

/-- Values that name scripts, and the flags these are passed with. -/
def hooks : List (String × String) :=
  [("prepack_script", "--pre-pack"),
    ("preplace_script", "--pre-place"),
    ("preroute_script", "--pre-route"),
    ("postroute_script", "--post-route"),
    ("fail_script", "--on-fail")]

namespace Setup

def parse (params : Value) : Except Failure Setup := do
  let variant ← Parameters.string? params "variant"
  return {
    variant := variant.getD "generic"
    netlist := if Parameters.flag params "interchange" then ("ic_logical_netlist", "--netlist")
      else ("json", "--json")
    extra := ((Parameters.get? params "extra_opts").map Value.words).getD [] }

def interface (s : Setup) (name : String) : Interface :=
  Interface.describing {
    name
    phases := 2
    takes := [.required s.netlist.1]
    produces := [.onDemand "nextpnr_log"]
    values := [.required "top", .required "placer", .required "router"]
      ++ hooks.map (fun hook => .optional hook.1)
      ++ [.optional "thread_count", .optional "parallel"] }
  [("nextpnr_log", "nextpnr output")]

def outputs (s : Setup) (ctx : Context) : Except Failure ValueTable := do
  let netlist ← ctx.takes.requirePath s.netlist.1
  return Table.ofList
    [("nextpnr_log", .str (Pathname.join (Pathname.directoryOf netlist) "nextpnr.log"))]

/-- Whether a value switches an option on. -/
def isEnabled : Value → Bool
  | .bool b => b
  | .int n => n != 0
  | .str s => s == "1" || s == "true" || s == "True"
  | _ => false

def command (s : Setup) (ctx : Context) (program : String) : Except Failure Command := do
  let top ← ctx.values.requireText "top"
  let placer ← ctx.values.requireText "placer"
  let router ← ctx.values.requireText "router"
  let netlist ← ctx.takes.requirePath s.netlist.1
  let scripts := hooks.flatMap fun (name, flag) =>
    match ctx.values.get? name with
    | some v => [flag, v.text]
    | none => []
  let threads := match ctx.values.get? "thread_count" with
    | some v => ["--threads", v.text]
    | none => []
  let parallel :=
    if (ctx.values.get? "parallel").any isEnabled then ["--parallel-refine"] else []
  return Command.ofWords ([program, "--top", top, "--placer", placer, "--router", router,
    s.netlist.2, netlist] ++ scripts ++ threads ++ parallel ++ s.extra)

def execute (s : Setup) (ctx : Context) (progress : Progress) : Exec Unit := do
  let program ← Exec.locateTool ctx.roots.bin ("nextpnr-" ++ s.variant)
  let command ← Exec.ofExcept (s.command ctx program)
  if progress.isVerbose then
    progress.phase s!"Place-and-routing with nextpnr...\n {command.display}"
  else
    progress.phase "Place-and-routing with nextpnr..."
  let stdout ← Exec.during (.placingAndRouting ctx.stage) command.run
  progress.phase "Saving log..."
  if let some log := ctx.outputs.str? "nextpnr_log" then
    Exec.change (.writing log) (·.write log stdout)

end Setup

def make (args : ModuleArgs) : Except Failure ToolModule := do
  let setup ← Setup.parse args.params
  return {
    io := setup.interface args.instanceName
    outputs := setup.outputs
    execute := setup.execute }

end Toolflow.Modules.PlaceAndRoute
