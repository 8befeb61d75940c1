import Toolflow.Registry

/-! Creates directories on demand: each parameter names a directory that is a product, so that it
is made when something needs it. -/
namespace Toolflow.Modules.Directories

def execute (ctx : Context) (progress : Progress) : Exec Unit :=
  ctx.outputs.bound.entries.forM fun (_, v) =>
    v.strings.forM fun dir => do
      progress.phase s!"Creating directory {dir}..."
      Exec.change (.creatingDirectory dir) (·.createDirectories dir)

def make (args : ModuleArgs) : Except Failure ToolModule := do
  let dirs ← match args.params with
    | .null => .ok .empty
    | .map fields => .ok fields
    | other => refuse (.directoriesNotTable other)
  return {
    io := {
      name := args.instanceName
      phases := dirs.size
      produces := dirs.keys.map .required }
    outputs := fun ctx => .ok (dirs.map ctx.env.resolve)
    execute }

end Toolflow.Modules.Directories
