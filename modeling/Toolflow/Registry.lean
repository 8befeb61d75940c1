import Toolflow.Context

/-! The registry of modules.

A module is registered under a collection and a name. A flow refers to it as `collection:name` or
by a path `…/<collection>_modules/<name>.<extension>`; both lead to the same entry, which is
remembered once it has been looked up. A factory either makes a module from its arguments, or
names another module and wraps it. -/
namespace Toolflow

/-- What a factory is given. -/
structure ModuleArgs where
  /-- The parameters of the stage, `null` when there are none. -/
  params : Value
  env : Environment
  instanceName : String
deriving DecidableEq

inductive Factory where
  | tool (make : ModuleArgs → Except Failure ToolModule)
  /-- `wrapped` gives the reference and the parameters of the module inside. -/
  | wrapper (wrapped : ModuleArgs → Except Failure (String × Value))
      (wrap : ToolModule → ModuleArgs → Except Failure ToolModule)

structure ModuleReference where
  collection : String
  name : String
deriving Repr, DecidableEq

namespace ModuleReference

/-- The text `collection:name`. -/
def key (r : ModuleReference) : String := r.collection ++ ":" ++ r.name

/-- The collection a directory `<collection>_modules` stands for. -/
def collectionOf? (dir : String) : Option String :=
  let cs := dir.toList
  let ending := "_modules".toList
  if ending.isSuffixOf cs ∧ ending.length < cs.length then
    some (String.ofList (cs.take (cs.length - ending.length)))
  else none

/-- Reads a reference. -/
def parse (reference : String) : Except Failure ModuleReference :=
  match reference.toList.splitOn ':' with
  | [collection, name] =>
    if collection.isEmpty ∨ name.isEmpty then refuse (.notOneColon reference)
    else .ok ⟨String.ofList collection, String.ofList name⟩
  | [_] =>
    let dir := (Pathname.parent? reference).bind Pathname.fileName?
    match dir.bind collectionOf?, Pathname.fileStem? reference with
    | some collection, some name => .ok ⟨collection, name⟩
    | _, _ => refuse (.unusableReference reference)
  | _ => refuse (.notOneColon reference)

end ModuleReference

structure Registry where
  collections : Table (Table Factory)
  /-- What has been looked up, by key. -/
  loaded : Table Factory

namespace Registry

def empty : Registry := ⟨.empty, .empty⟩

instance : Inhabited Registry := ⟨empty⟩

def register (r : Registry) (collection name : String) (factory : Factory) : Registry :=
  let modules := (r.collections.get? collection).getD .empty
  { r with collections := r.collections.insert collection (modules.insert name factory) }

/-- The registered factory of a reference. -/
def registered (r : Registry) (reference : ModuleReference) : Except Failure Factory :=
  match r.collections.get? reference.collection with
  | none => refuse (.unknownCollection reference.collection)
  | some modules =>
    match modules.get? reference.name with
    | some factory => .ok factory
    | none => refuse (.unknownModule reference.name reference.collection)

/-- Finds the factory of a reference and remembers it. -/
def lookup (r : Registry) (text : String) : Except Failure (Factory × Registry) := do
  let reference ← ModuleReference.parse text
  match r.loaded.get? reference.key with
  | some factory => return (factory, r)
  | none =>
    let factory ← r.registered reference
    return (factory, { r with loaded := r.loaded.insert reference.key factory })

/-- Makes a module; `fuel` bounds how deep modules may be wrapped. -/
def instantiateWithin : Nat → Registry → String → ModuleArgs →
    Except Failure (ToolModule × Registry)
  | 0, _, reference, _ => refuse (.endlessWrapping reference)
  | fuel + 1, r, reference, args => do
    let (factory, r) ← r.lookup reference
    during (.instantiating reference args.instanceName) do
      match factory with
      | .tool make => return (← make args, r)
      | .wrapper wrapped wrap =>
        let (inside, params) ← wrapped args
        let (m, r) ← instantiateWithin fuel r inside { args with params }
        return (← wrap m args, r)

/-- Makes the module of a stage. The parameters of a wrapped module lie inside those of the module
around it, so their depth bounds the wrapping. -/
def instantiate (r : Registry) (reference : String) (args : ModuleArgs) :
    Except Failure (ToolModule × Registry) :=
  instantiateWithin (args.params.depth + 2) r reference args

end Registry
end Toolflow
