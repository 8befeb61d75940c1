import Toolflow.Disk
import Toolflow.Override

/-! The descriptions a flow is composed of: the platform, the project, and the parts that each
platform covers. -/
namespace Toolflow

/-- One stage of a platform. -/
structure StageDescription where
  module : String
  params : Value
  values : ValueTable
deriving DecidableEq

structure Platform where
  stages : Table StageDescription
  values : ValueTable
  dependencies : ValueTable
deriving DecidableEq

/-- The section of a project for one part. -/
structure PartSection where
  defaultTarget : Option String
  dependencies : ValueTable
  values : ValueTable
  stages : Table Block
deriving DecidableEq

structure Project where
  defaultPart : Option String
  /-- The platform of a part that the part database does not list. -/
  defaultPlatform : Option String
  defaultTarget : Option String
  dependencies : ValueTable
  values : ValueTable
  parts : Table PartSection
deriving DecidableEq

/-- The parts that each platform covers. -/
structure PartDatabase where
  platforms : Table (List String)
deriving DecidableEq

def PartSection.empty : PartSection := ⟨none, .empty, .empty, .empty⟩

def PartSection.stageBlock (p : PartSection) (stage : String) : Block :=
  (p.stages.get? stage).getD .empty

namespace Project

def empty : Project := ⟨none, none, none, .empty, .empty, .empty⟩

/-- The section of a part; a part that is not mentioned has an empty one. -/
def part (p : Project) (name : String) : PartSection := (p.parts.get? name).getD .empty

/-- The requested part, else the default one. -/
def selectPart (p : Project) (requested : Option String) : Except Failure String :=
  match requested.or p.defaultPart with
  | some part => .ok part
  | none => refuse .noPart

end Project

/-- Whether two texts agree but for the case of ASCII letters. -/
def sameIgnoringCase (s t : String) : Bool :=
  s.toList.map Char.toLower == t.toList.map Char.toLower

/-- The first platform that covers a part, whatever the case of its letters. -/
def PartDatabase.platformOf? (db : PartDatabase) (part : String) : Option String :=
  (db.platforms.entries.find? fun (_, parts) => parts.any (sameIgnoringCase · part)).map (·.1)

end Toolflow
