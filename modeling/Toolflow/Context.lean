import Toolflow.Bench
import Toolflow.Environment
import Toolflow.Interface

/-! The context a module sees while it maps its outputs and while it runs.

A context binds every declared name: takes that are available, values, outputs the user bound, and
all outputs with the module's defaults filled in. An optional take counts only once its files are
on the disk, an output on demand only if something asks for it, and no binding of a context refers
to an unknown variable. -/
namespace Toolflow

/-- Directories of the install tree that every module is given. -/
structure Roots where
  share : String := ""
  bin : String := ""
  aux : String := ""
deriving Repr, DecidableEq

/-- What the flow feeds into a stage. -/
structure StageInputs where
  /-- Paths of the takes that are available. -/
  takes : ValueTable := .empty
  /-- Output paths the user bound. -/
  produces : ValueTable := .empty
  /-- Products that something downstream asks for. -/
  demanded : NameSet := .empty
deriving DecidableEq

/-- The bindings of one kind of a stage. Every declared name has an entry; `none` stands for one
that is not available. -/
structure Bindings where
  stage : String
  kind : BindingKind
  entries : Table (Option Value)
deriving DecidableEq

namespace Bindings

def empty (stage : String) (kind : BindingKind) : Bindings := ⟨stage, kind, .empty⟩

def set (b : Bindings) (name : String) (v : Option Value) : Bindings :=
  { b with entries := b.entries.insert name v }

def get? (b : Bindings) (name : String) : Option Value := (b.entries.get? name).join

def require (b : Bindings) (name : String) : Except Failure Value :=
  match b.get? name with
  | some v => .ok v
  | none => refuse (.notAvailable b.kind name b.stage)

def str? (b : Bindings) (name : String) : Option String := (b.get? name).bind Value.str?

/-- The text of a value that must be available. -/
def requireText (b : Bindings) (name : String) : Except Failure String :=
  return (← b.require name).text

/-- A binding that must be a single path. -/
def requirePath (b : Bindings) (name : String) : Except Failure String := do
  match ← b.require name with
  | .str path => .ok path
  | v => refuse (.notSinglePath b.kind name b.stage v)

/-- The entries that are available. -/
def bound (b : Bindings) : ValueTable := b.entries.filterMap fun _ v => v

/-- Gives entries their inner names back, where `renames` leads from inner to outer names. -/
def renamedBack (b : Bindings) (renames : Table String) : Bindings :=
  { b with entries := renames.entries.foldl (fun entries (inner, outer) =>
      match entries.get? outer with
      | some v => (entries.erase outer).insert inner v
      | none => entries) b.entries }

/-- Fails if a binding still refers to a variable. -/
def checkResolved (b : Bindings) : Except Failure Unit :=
  b.bound.entries.forM fun (name, v) =>
    match Environment.unresolved v with
    | [] => .ok ()
    | mentioned :: _ => refuse (.unknownVariable b.kind name b.stage mentioned v)

end Bindings

structure Context where
  stage : String
  takes : Bindings
  /-- Outputs the user bound. -/
  produces : Bindings
  /-- Outputs with the module's defaults. -/
  outputs : Bindings
  values : Bindings
  env : Environment
  roots : Roots
deriving DecidableEq

/-- A module: what it declares, where its outputs go by default, and what it does. -/
structure ToolModule where
  io : Interface
  /-- Default output paths for the inputs of a context. -/
  outputs : Context → Except Failure ValueTable
  execute : Context → Progress → Exec Unit

/-- Exposes `:name`, `:name[noext]` and `:name[dir]` for a dependency. -/
def Environment.addPathVariants (env : Environment) (cwd name : String) (v : Value) :
    Environment :=
  let bare := v.mapStrings fun path => .str (Pathname.withExtension path "")
  let dirs := v.mapStrings fun path =>
    .str (Pathname.absoluteText cwd ((Pathname.parent? path).getD ""))
  ((env.bindRaw (":" ++ name) v).bindRaw (":" ++ name ++ "[noext]") bare).bindRaw
    (":" ++ name ++ "[dir]") dirs

/-- Whether a value names at least one path and all its paths exist. -/
def Disk.holds (disk : Disk) (v : Value) : Bool :=
  let paths := v.strings
  !paths.isEmpty && paths.all disk.exists?

/-- Every path of a value seen from the working directory. -/
def Value.absolute (cwd : String) (v : Value) : Value :=
  v.mapStrings fun path => .str (Pathname.absoluteText cwd path)

namespace Context

/-- Binds one declared name; `accept` may turn down a value of an optional one. -/
def bindDeclared (stage : String) (kind : BindingKind) (found : String → Option Value)
    (env : Environment) (accept : Value → Bool) (b : Bindings) (d : Declared) :
    Except Failure Bindings :=
  match (found d.name).bind Value.present? with
  | some v =>
    let v := env.resolve v
    .ok (b.set d.name (if d.isRequired || accept v then some v else none))
  | none =>
    if d.isRequired then refuse (.notProvided kind d.name stage) else .ok (b.set d.name none)

/-- The path of one product: the user's, else the module's default, which for a product on demand
counts only if it is demanded. -/
def outputPath (ctx : Context) (defaults : ValueTable) (demanded : NameSet) (d : Declared) :
    Option Value :=
  match ctx.produces.get? d.name with
  | some v => some v
  | none =>
    if d.strictness ≠ .onDemand ∨ demanded.contains d.name then
      ((defaults.get? d.name).bind Value.present?).map ctx.env.resolve
    else none

def bindOutput (ctx : Context) (defaults : ValueTable) (demanded : NameSet) (cwd : String)
    (b : Bindings) (d : Declared) : Except Failure Bindings :=
  match ctx.outputPath defaults demanded d with
  | some v => .ok (b.set d.name (some (v.absolute cwd)))
  | none =>
    if d.isRequired then refuse (.noOutputPath ctx.stage d.name) else .ok (b.set d.name none)

/-- The context with everything bound but the outputs. -/
def ofInputs (io : Interface) (stage : String) (inputs : StageInputs) (env : Environment)
    (roots : Roots) (disk : Disk) : Except Failure Context := do
  let takes ← io.takes.foldlM
    (bindDeclared stage .dependency inputs.takes.get? env disk.holds) (.empty stage .dependency)
  let values ← io.values.foldlM
    (bindDeclared stage .value env.get? env fun _ => true) (.empty stage .value)
  let produces := io.produces.foldl (fun (b : Bindings) d =>
    b.set d.name (((inputs.produces.get? d.name).bind Value.present?).map env.resolve))
    (.empty stage .output)
  let full := takes.bound.entries.foldl
    (fun (env : Environment) (name, v) => env.addPathVariants disk.cwd name v) env
  return { stage, takes, produces, outputs := .empty stage .output, values, env := full, roots }

/-- Binds the inputs and the values, then asks the module where its outputs go. -/
def build (m : ToolModule) (stage : String) (inputs : StageInputs) (env : Environment)
    (roots : Roots) (disk : Disk) : Except Failure Context := do
  let ctx ← ofInputs m.io stage inputs env roots disk
  let defaults ← m.outputs ctx
  let outputs ← m.io.produces.foldlM (ctx.bindOutput defaults inputs.demanded disk.cwd)
    (.empty stage .output)
  ctx.takes.checkResolved
  outputs.checkResolved
  return { ctx with outputs }

/-- Whether the user bound the path of an output. -/
def isExplicit (ctx : Context) (name : String) : Bool := (ctx.produces.get? name).isSome

/-- The context under the names of a wrapped module. -/
def renamedBack (ctx : Context) (takes values produces : Table String) : Context :=
  { ctx with
    takes := ctx.takes.renamedBack takes
    values := ctx.values.renamedBack values
    produces := ctx.produces.renamedBack produces
    outputs := ctx.outputs.renamedBack produces }

end Context
end Toolflow
