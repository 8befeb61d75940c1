import Toolflow.Bench
import Toolflow.Description.OfYaml
import Toolflow.Flow.Basic
import Toolflow.Install
import Toolflow.Modules.Builtin
import Toolflow.Text.Case

/-! Loading the flow of a part from an install tree.

The part database names the platform of the part; a part it does not list is built on the
project's default platform. -/
namespace Toolflow

/-- Where VPR keeps the warnings that are too many to show. -/
def noisyWarningsLog : String := "noisy_warnings.log"

namespace Install

/-- The root of the bitstream database, as far as an installed tool tells it. -/
def databaseRoot : Exec (Option String) := do
  match (← Exec.host).which? (← Exec.disk) "prjxray-config" with
  | none => return none
  | some program =>
    try
      let root := Text.trim (Text.ofUtf8 (← (Command.ofProgram program).run))
      return if root.isEmpty then none else some root
    catch _ => return none

/-- The values that every flow can refer to. -/
def builtinValues (i : Install) (part : String) : Exec ValueTable := do
  let python := ((← Exec.host).which? (← Exec.disk) "python3").getD "python3"
  let root ← if i.family = "xc7" then databaseRoot else pure none
  let values : ValueTable := Table.ofList [
    ("shareDir", .str i.share), ("binDir", .str i.bin), ("auxDir", .str i.aux),
    ("python3", .str python), ("noisyWarnings", .str noisyWarningsLog),
    ("part_name", .str (Text.lower part))]
  return match root with
    | some root => values.insert "prjxray_db" (.str root)
    | none => values

/-- The name and the description of the platform that a part is built on. -/
def platformFor (i : Install) (project : Project) (part : String) (disk : Disk) :
    Except Failure (String × Platform) := do
  let parts ← Description.OfYaml.loadParts disk i.partDatabase
  match (parts.platformOf? part).or project.defaultPlatform with
  | none => refuse (.unknownPart part)
  | some name =>
    let path := i.platform name
    if ¬ disk.isFile path then refuse (.unknownPlatform name path)
    return (name, ← Description.OfYaml.loadPlatform disk path)

end Install

/-- Loads the flow of the selected part. -/
def Flow.load (i : Install) (project : Project) (overrides : Overrides) (part : Option String) :
    Exec Flow := do
  let part ← Exec.ofExcept (project.selectPart part)
  let (platformName, platform) ← Exec.ofExcept (i.platformFor project part (← Exec.disk))
  let builtins ← i.builtinValues part
  let sources : FlowSources :=
    { platformName, part, platform, project, overrides, builtins, roots := i.roots }
  Exec.ofExcept (sources.compose Registry.builtin (← Exec.disk).cwd)

end Toolflow
