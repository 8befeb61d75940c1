import Toolflow.Command
import Toolflow.Shell.Evaluation

/-! Hosts whose programs are shell scripts and the tools of every host. -/
namespace Toolflow

/-- How many steps deep a program may run before it is killed. -/
def Shell.budget : Nat := 1000000

namespace Shell

/-- The names of the tools. -/
def toolNames : List String := "sh" :: "env" :: Tool.all.map (·.1)

/-- The directories of every host. -/
def systemDirectories : List String :=
  ["/", "/bin", "/dev", "/etc", "/tmp", "/usr", "/usr/bin", "/usr/lib", "/usr/share", "/var"]

/-- A disk with the tools installed. -/
def install (disk : Disk) : Disk :=
  let disk := systemDirectories.foldl (fun disk dir => disk.put dir .directory) disk
  let disk := ["/dev/null", "/dev/stdin", "/dev/stdout", "/dev/stderr"].foldl
    (fun disk path => disk.put path (.file ByteArray.empty false)) disk
  ["/bin", "/usr/bin"].foldl (fun disk dir =>
    toolNames.foldl (fun disk tool =>
      disk.put (Disk.child dir tool) (.file (Program.image tool) true)) disk) disk

/-- Where a command runs. -/
def startDirectory (c : Command) (disk : Disk) : Except FileFault String :=
  match c.cwd with
  | none => .ok disk.cwd
  | some dir =>
    match disk.find dir with
    | .ok (place, .directory) => .ok place
    | .ok _ => .error .notADirectory
    | .error fault => .error fault

/-- The state a program starts in: nothing to read, and a buffer for each of its outputs. -/
def initial (disk : Disk) (environment : Table String) (argv : List String) : State where
  disk
  buffers := #[ByteArray.empty, ByteArray.empty, ByteArray.empty]
  process := {
    id := 100
    vars := environment
    exported := NameSet.ofList environment.keys
    name := argv.headD ""
    args := []
    streams := [(0, .buffer 0), (1, .buffer 1), (2, .buffer 2)] }

/-- Runs a command to its end. -/
def run (environment : Table String) (c : Command) (disk : Disk) :
    Except FileFault Outcome × Disk :=
  let environment := environment.extend c.env
  let located := do
    let cwd ← startDirectory c disk
    let path ← Program.locate { disk with cwd } environment (c.argv.headD "")
    return (cwd, path)
  match located with
  | .error fault => (.error fault, disk)
  | .ok (cwd, path) =>
    let outcome (s : State) (ending : Ending) : Except FileFault Outcome × Disk :=
      (.ok {
        ending
        stdout := (s.buffers[1]?).getD ByteArray.empty
        stderr := (s.buffers[2]?).getD ByteArray.empty }, { s.disk with cwd := disk.cwd })
    match launch budget path c.argv environment
        (initial { disk with cwd } environment c.argv) with
    | .ok (.ok code) s => outcome s (.exit code)
    | .ok (.error fault) _ => (.error fault, disk)
    | .error (.exit code) s => outcome s (.exit code)
    | .error _ s => outcome s .signal

end Shell

/-- The host that runs scripts and tools with the given variables. -/
def Host.ofEnvironment (environment : Table String) : Host := ⟨environment, Shell.run environment⟩

end Toolflow
