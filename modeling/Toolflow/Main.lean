import Toolflow.CommandLine.Run
import Toolflow.Shell.Host

/-! The command line program.

What a build may touch is read into a disk: the working directory, the install tree, the directories
tools are looked for in, and the files the command line names. The run is a function on that disk,
and what it changed is written back. -/
namespace Toolflow.Main

/-- The variables a build and its tools see. -/
def variableNames : List String :=
  ["PATH", "HOME", "PWD", "USER", "LANG", "TMPDIR", "F4PGA_INSTALL_DIR", "F4PGA_SHARE_DIR",
    "FPGA_FAM"]

def readVariables : IO (Table String) := do
  let found ← variableNames.filterMapM fun name =>
    return (← IO.getEnv name).map (name, ·)
  return Table.ofList found

/-- A file runs if its first line says by what. -/
def isScript (content : ByteArray) : Bool := content.extract 0 2 == "#!".toUTF8

def withParents (disk : Disk) (place : String) : Disk :=
  match Pathname.parent? place with
  | some parent => (disk.createDirectories parent).toOption.getD disk
  | none => disk

/-- Adds a file, or a directory with all that lies below it. -/
partial def readTree (disk : Disk) (path : String) : IO Disk := do
  let place ← IO.FS.realPath path
  let disk := withParents disk place.toString
  if ← place.isDir then
    let mut disk := disk.put place.toString .directory
    for entry in ← place.readDir do
      disk ← readTree disk entry.path.toString
    return disk
  else
    let content ← IO.FS.readBinFile place
    return disk.put place.toString (.file content (isScript content))

/-- Adds what can be read of some paths. -/
def readPaths (disk : Disk) (paths : List String) : IO Disk :=
  paths.foldlM (fun disk path => readTree disk path <|> pure disk) disk

/-- The files that words, and the values words assign, are pathnames of. -/
def namedFiles (words : List String) : IO (List String) :=
  (words.flatMap (·.splitOn "=")).filterM fun path =>
    (return !(← (← IO.FS.realPath path).isDir)) <|> pure false

def sameEntry : Entry → Entry → Bool
  | .directory, .directory => true
  | .file a x, .file b y => a == b && x == y
  | _, _ => false

def writeEntry (place : String) : Entry → IO Unit
  | .directory => IO.FS.createDirAll place
  | .file content executable => do
    IO.FS.writeBinFile place content
    if executable then
      let all : IO.AccessRight := { read := true, write := true, execution := true }
      let others : IO.AccessRight := { read := true, execution := true }
      IO.setAccessRights place { user := all, group := others, other := others }

def removeEntry (place : String) : Entry → IO Unit
  | .directory => IO.FS.removeDir place
  | .file .. => IO.FS.removeFile place

/-- Makes the changes between two disks; what lies in a directory goes before the directory. -/
def writeChanges (before after : Disk) : IO Unit := do
  for (place, entry) in before.entries.entries.reverse do
    if (after.entries.get? place).isNone then removeEntry place entry
  for (place, entry) in after.entries.entries do
    unless (before.entries.get? place).any (sameEntry entry) do writeEntry place entry

/-- The directories of the search path that hold no tools of every host. -/
def searchedDirectories (environment : Table String) : List String :=
  (((environment.get? "PATH").getD "").splitOn ":").filter fun dir =>
    ¬ dir.isEmpty ∧ dir ∉ Shell.systemDirectories

def run (words : List String) : IO UInt32 := do
  let environment ← readVariables
  let cwd := (← IO.currentDir).toString
  let trees := ["F4PGA_INSTALL_DIR", "F4PGA_SHARE_DIR"].filterMap environment.get?
  let before ← readPaths (Shell.install Disk.empty)
    (cwd :: trees ++ searchedDirectories environment ++ (← namedFiles words))
  let before := { before with cwd }
  let report := CommandLine.run (Host.ofEnvironment environment) words before
  writeChanges before report.disk
  (← IO.getStdout).putStr report.stdout
  (← IO.getStderr).putStr report.stderr
  return UInt32.ofNat report.code

end Toolflow.Main

/-- Runs the words of the command line and exits with the code of the run. -/
def main (words : List String) : IO UInt32 := Toolflow.Main.run words
