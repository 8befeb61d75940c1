import Toolflow.Modules.Parameters
import Toolflow.Registry

/-! Wraps another module and gives its dependencies and values other names.

`rename_takes`, `rename_produces` and `rename_values` lead from the names of the module inside to
the names the flow sees; a name without an entry keeps its spelling. -/
namespace Toolflow.Modules.Renaming

structure Renames where
  takes : Table String
  produces : Table String
  values : Table String

def renameDeclared (renames : Table String) (d : Declared) : Declared :=
  match renames.get? d.name with
  | some outer => { d with name := outer }
  | none => d

/-- The entries of a table under their outer names. -/
def renameKeys {α : Type} (renames : Table String) (t : Table α) : Table α :=
  Table.ofList (t.entries.map fun (name, a) => ((renames.get? name).getD name, a))

def Renames.interface (r : Renames) (name : String) (inner : Interface) : Interface where
  name := name
  phases := inner.phases
  takes := inner.takes.map (renameDeclared r.takes)
  produces := inner.produces.map (renameDeclared r.produces)
  values := inner.values.map (renameDeclared r.values)
  descriptions := renameKeys r.produces inner.descriptions

/-- The context under the names of the module inside. -/
def Renames.innerView (r : Renames) (ctx : Context) : Context :=
  ctx.renamedBack r.takes r.values r.produces

def Renames.wrap (r : Renames) (name : String) (inner : ToolModule) : ToolModule where
  io := r.interface name inner.io
  outputs ctx := return renameKeys r.produces (← inner.outputs (r.innerView ctx))
  execute ctx progress := inner.execute (r.innerView ctx) progress

/-- The reference and the parameters of the module inside. -/
def wrapped (args : ModuleArgs) : Except Failure (String × Value) := do
  match ← Parameters.string? args.params "module" with
  | some reference => return (reference, (Parameters.get? args.params "params").getD .null)
  | none => refuse .missingWrapped

def make (inner : ToolModule) (args : ModuleArgs) : Except Failure ToolModule := do
  let takes ← Parameters.names args.params "rename_takes"
  let produces ← Parameters.names args.params "rename_produces"
  let values ← Parameters.names args.params "rename_values"
  return (Renames.mk takes produces values).wrap args.instanceName inner

end Toolflow.Modules.Renaming
