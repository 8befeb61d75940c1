import Toolflow.Command
import Toolflow.Text.Blank

/-! The bench a stage works at: the disk, what has been printed, and the phases announced.

`Exec` computations run on a host and keep the bench's state also when they fail. -/
namespace Toolflow

structure Bench where
  disk : Disk
  printed : String := ""
  /-- How many phases the running module has announced. -/
  phases : Nat := 0

abbrev Exec := ReaderT Host (EStateM Failure Bench)

/-- Prints progress up to a level: below zero nothing, zero the results, above it more detail. -/
structure Reporter where
  level : Int
deriving Repr, DecidableEq

def Reporter.of (verbose : Nat) (silent : Bool) : Reporter := ⟨if silent then -1 else verbose⟩

/-- What a reporter prints for a message of the given level. -/
def Reporter.line (r : Reporter) (level : Int) (message : String) : String :=
  if level ≤ r.level then message ++ "\n" else ""

/-- The progress of one stage: the reporter and the number of phases its module declares. -/
structure Progress where
  reporter : Reporter
  total : Nat
deriving Repr, DecidableEq

def Progress.isVerbose (p : Progress) : Bool := 2 ≤ p.reporter.level

namespace Exec

def disk : Exec Disk := return (← get).disk

def host : Exec Host := read

/-- Fails for the given cause. -/
def refuse {α : Type} (cause : Fault) : Exec α := throw (.fault cause)

/-- Takes over the result of a pure computation. -/
def ofExcept {α : Type} : Except Failure α → Exec α
  | .ok a => return a
  | .error f => throw f

/-- Names the activity in which a computation failed. -/
def during {α : Type} (activity : Activity) (x : Exec α) : Exec α := fun host bench =>
  match x host bench with
  | .ok a bench => .ok a bench
  | .error cause bench => .error (.during activity cause) bench

/-- Looks at the disk. -/
def look {α : Type} (activity : Activity) (f : Disk → Except FileFault α) : Exec α := do
  match f (← disk) with
  | .ok a => return a
  | .error fault => throw (.during activity (.file fault))

/-- Changes the disk. -/
def change (activity : Activity) (f : Disk → Except FileFault Disk) : Exec Unit := do
  match f (← disk) with
  | .ok disk => modify fun bench => { bench with disk }
  | .error fault => throw (.during activity (.file fault))

def print (text : String) : Exec Unit :=
  modify fun bench => { bench with printed := bench.printed ++ text }

/-- The file that runs a tool, from the install tree if it has one. -/
def locateTool (binDir name : String) : Exec String :=
  return (← host).locateTool (← disk) binDir name

end Exec

/-- Announces the next phase. -/
def Progress.phase (p : Progress) (message : String) : Exec Unit := do
  modify fun bench => { bench with phases := bench.phases + 1 }
  let n := (← get).phases
  Exec.print (p.reporter.line 1 s!"    [{n}/{p.total}]: {message}")

/-- Runs a command to its end and gives what it wrote; any ending but exit code 0 is a failure
that carries the program's error report. -/
def Command.run (c : Command) : Exec ByteArray := do
  match c.argv with
  | [] => Exec.refuse .emptyCommand
  | program :: _ =>
    let (result, disk) := (← Exec.host).run c (← Exec.disk)
    modify fun bench => { bench with disk }
    match result with
    | .error fault => throw (.during (.starting program) (.file fault))
    | .ok outcome =>
      if outcome.ending = .exit 0 then return outcome.stdout
      else throw (.program program outcome.ending (Text.trim (Text.ofUtf8 outcome.stderr)))

end Toolflow
