import Toolflow.Description.Basic
import Toolflow.Yaml.Node

/-! Reading descriptions from YAML.

Where a string is expected the text of any scalar counts. No field of a record may occur twice,
and fields that are not known are passed over. -/
namespace Toolflow.Description.OfYaml

open Yaml

/-- How many levels a document may open. -/
def maxDepth : Nat := 128

/-- A table whose keys are texts. -/
def tableOf? {α : Type} (read : Node → Option α) (n : Node) : Option (Table α) := do
  let entries ← n.entries?
  return Table.ofList (← entries.mapM fun (key, value) => return (← key.text?, ← read value))

/-- A table of values that stands `level` levels deep. -/
def table? (level : Nat) (n : Node) : Option ValueTable :=
  tableOf? (Node.valueWithin (maxDepth - level - 1)) n

/-- The fields of a record by their names. -/
def record? (n : Node) : Option (List (String × Node)) := do
  (← n.entries?).mapM fun (key, value) => return (← key.text?, value)

/-- Reads a field, which may not occur twice, or gives the default of a missing one. -/
def fieldOr? {α : Type} (fields : List (String × Node)) (name : String)
    (read : Node → Option α) (default : Option α) : Option α :=
  match fields.filter (·.1 = name) with
  | [] => default
  | [(_, n)] => read n
  | _ => none

def stage? (n : Node) : Option StageDescription := do
  let fields ← record? n
  return {
    module := ← fieldOr? fields "module" Node.text? none
    params := ← fieldOr? fields "params" (Node.valueWithin (maxDepth - 3)) (some .null)
    values := ← fieldOr? fields "values" (table? 3) (some .empty) }

def platform? (n : Node) : Option Platform := do
  let fields ← record? n
  return {
    stages := ← fieldOr? fields "stages" (tableOf? stage?) (some .empty)
    values := ← fieldOr? fields "values" (table? 1) (some .empty)
    dependencies := ← fieldOr? fields "dependencies" (table? 1) (some .empty) }

def parts? (n : Node) : Option PartDatabase := do
  return ⟨← tableOf? (fun list => do (← list.items?).mapM Node.text?) n⟩

/-- Reads a text; one without a document counts as empty. -/
def parse? {α : Type} (read : Node → Option α) (text : String) : Option α := do
  read ((← Node.parse? text).getD (Read.emptyNode none))

def platformOfText (text : String) : Except Failure Platform :=
  match parse? platform? text with
  | some platform => .ok platform
  | none => .error .malformedYaml

def partsOfText (text : String) : Except Failure PartDatabase :=
  match parse? parts? text with
  | some parts => .ok parts
  | none => .error .malformedYaml

def loadPlatform (disk : Disk) (path : String) : Except Failure Platform :=
  match disk.readText path with
  | .error fault => during (.readingPlatform path) (.error (.file fault))
  | .ok text => during (.parsingPlatform path) (platformOfText text)

def loadParts (disk : Disk) (path : String) : Except Failure PartDatabase :=
  match disk.readText path with
  | .error fault => during (.readingParts path) (.error (.file fault))
  | .ok text => during (.parsingParts path) (partsOfText text)

end Toolflow.Description.OfYaml
