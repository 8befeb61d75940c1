import Toolflow.Description.Basic
import Toolflow.Json.Reader

/-! Reading descriptions from JSON.

A record is an object, in which no known field may occur twice, or, where every field has a place,
an array of the fields in order. Fields that are missing are empty. In a project and its part
sections the keys that name no field are the names of parts and of stages. -/
namespace Toolflow.Description.OfJson

def table? : Json → Option ValueTable
  | .obj fields => some (Table.ofList (Json.fieldValues fields))
  | _ => none

def string? : Json → Option String
  | .str s => some s
  | _ => none

def optionalString? : Json → Option (Option String)
  | .null => some none
  | .str s => some (some s)
  | _ => none

/-- A table whose entries are read by `read`. -/
def tableOf? {α : Type} (read : Json → Option α) : Json → Option (Table α)
  | .obj fields => do
    return Table.ofList (← fields.mapM fun (name, j) => return (name, ← read j))
  | _ => none

/-- The field of a name, `none` if it is missing; it may not occur twice. -/
def field? (fields : List (String × Json)) (name : String) : Option (Option Json) :=
  match fields.filter (·.1 = name) with
  | [] => some none
  | [(_, j)] => some (some j)
  | _ => none

/-- Reads a field, or gives the default of a missing one. -/
def fieldOr? {α : Type} (fields : List (String × Json)) (name : String)
    (read : Json → Option α) (default : α) : Option α := do
  match ← field? fields name with
  | some j => read j
  | none => return default

/-- The fields of a record given by name or by place. -/
def record? (names : List String) : Json → Option (List (String × Json))
  | .obj fields => some fields
  | .arr items => if items.length ≤ names.length then some (names.zip items) else none
  | _ => none

/-- The entries whose keys are none of the given names. -/
def others (names : List String) (fields : List (String × Json)) : Json :=
  .obj (fields.filter fun field => !names.contains field.1)

def stage? (j : Json) : Option StageDescription := do
  let fields ← record? ["module", "params", "values"] j
  return {
    module := ← string? (← (← field? fields "module"))
    params := ← fieldOr? fields "params" (some ∘ Json.value) .null
    values := ← fieldOr? fields "values" table? .empty }

def platform? (j : Json) : Option Platform := do
  let fields ← record? ["stages", "values", "dependencies"] j
  return {
    stages := ← fieldOr? fields "stages" (tableOf? stage?) .empty
    values := ← fieldOr? fields "values" table? .empty
    dependencies := ← fieldOr? fields "dependencies" table? .empty }

def block? (j : Json) : Option Block := do
  let fields ← record? ["dependencies", "values"] j
  return {
    dependencies := ← fieldOr? fields "dependencies" table? .empty
    values := ← fieldOr? fields "values" table? .empty }

def partFields : List String := ["default_target", "dependencies", "values"]

def part? : Json → Option PartSection
  | .obj fields => do
    return {
      defaultTarget := ← fieldOr? fields "default_target" optionalString? none
      dependencies := ← fieldOr? fields "dependencies" table? .empty
      values := ← fieldOr? fields "values" table? .empty
      stages := ← tableOf? block? (others partFields fields) }
  | _ => none

def projectFields : List String :=
  ["default_part", "default_platform", "default_target", "dependencies", "values"]

def project? : Json → Option Project
  | .obj fields => do
    return {
      defaultPart := ← fieldOr? fields "default_part" optionalString? none
      defaultPlatform := ← fieldOr? fields "default_platform" optionalString? none
      defaultTarget := ← fieldOr? fields "default_target" optionalString? none
      dependencies := ← fieldOr? fields "dependencies" table? .empty
      values := ← fieldOr? fields "values" table? .empty
      parts := ← tableOf? part? (others projectFields fields) }
  | _ => none

/-- Reads a project file. -/
def loadProject (disk : Disk) (path : String) : Except Failure Project :=
  match disk.read path with
  | .error fault => during (.readingProject path) (.error (.file fault))
  | .ok content =>
    match Json.parseBytes? content >>= project? with
    | some project => .ok project
    | none => during (.parsingProject path) (.error .malformedJson)

end Toolflow.Description.OfJson
