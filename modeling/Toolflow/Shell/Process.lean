import Toolflow.Disk
import Toolflow.Shell.Script
import Toolflow.Text.Utf8

/-! Running processes: the disk they share, and what each of them has for itself.

Output goes to buffers, which stand for pipes, or to the end of a file. A process that starts
another one waits for it, so only one runs at a time. -/
namespace Toolflow.Shell

/-- Where a descriptor leads. -/
inductive Stream where
  | buffer (n : Nat)
  /-- The end of a file, given by its normal pathname. -/
  | file (place : String)
  | null
deriving Repr, DecidableEq

/-- What a process has for itself, apart from its working directory. -/
structure Process where
  id : Nat
  vars : Table String
  /-- The variables that programs are started with. -/
  exported : NameSet
  /-- The name a shell runs under. -/
  name : String
  args : List String
  streams : List (Nat × Stream)
  functions : Table Script := .empty
  /-- Whether a command that fails ends the shell. -/
  strict : Bool := false
  /-- Whether a variable that has no value may not be used. -/
  cautious : Bool := false
  /-- How many loops of the running function are being run. -/
  loops : Nat := 0
  /-- How the last command ended. -/
  status : Nat := 0
  /-- How the last script ended whose output a word took. -/
  outputStatus : Nat := 0
  /-- The line of the running command. -/
  line : Nat := 1
  /-- What to run at the end. -/
  onExit : Option String := none
  /-- The values that variables of the running function had before, where they had one. -/
  saved : List (String × Option String) := []

structure State where
  disk : Disk
  buffers : Array ByteArray
  process : Process

/-- Why a process or a part of it ends early. -/
inductive Stop where
  | exit (code : Nat)
  /-- A signal ends the process. -/
  | killed
  /-- The process has run for too long. -/
  | exhausted
  /-- Leaves a number of loops. -/
  | leave (loops : Nat)
  /-- Leaves all but the last of a number of loops, and goes on with that one. -/
  | next (loops : Nat)
  /-- Leaves a function. -/
  | answer (code : Nat)
deriving Repr, DecidableEq

abbrev Run := EStateM Stop State

namespace Run

def process : Run Process := return (← get).process

def disk : Run Disk := return (← get).disk

def setDisk (disk : Disk) : Run Unit := modify fun s => { s with disk }

def modifyProcess (f : Process → Process) : Run Unit :=
  modify fun s => { s with process := f s.process }

def stream (descriptor : Nat) : Run (Option Stream) :=
  return (← process).streams.lookup descriptor

/-- Writes bytes to a descriptor; to one that is closed nothing is written. -/
def write (descriptor : Nat) (bytes : ByteArray) : Run Unit := do
  match ← stream descriptor with
  | some (.buffer n) => modify fun s => { s with buffers := s.buffers.modify n (· ++ bytes) }
  | some (.file place) =>
    match (← disk).append place bytes with
    | .ok disk => setDisk disk
    | .error _ => return
  | some .null | none => return

def say (text : String) : Run Unit := write 1 text.toUTF8

def complain (text : String) : Run Unit := write 2 text.toUTF8

/-- Complains in the name of a program and fails. -/
def fail (program message : String) (code : Nat := 1) : Run Nat := do
  complain s!"{program}: {message}\n"
  return code

/-- What is left to read from the descriptor 0. -/
def input : Run ByteArray := do
  match ← stream 0 with
  | some (.buffer n) => return ((← get).buffers[n]?).getD ByteArray.empty
  | _ => return ByteArray.empty

/-- Leaves the given bytes to be read next. -/
def setInput (bytes : ByteArray) : Run Unit := do
  match ← stream 0 with
  | some (.buffer n) => modify fun s => { s with buffers := s.buffers.modify n fun _ => bytes }
  | _ => return

/-- Reads all that is left. -/
def readAll : Run ByteArray := do
  let bytes ← input
  setInput ByteArray.empty
  return bytes

/-- A new buffer with some content. -/
def buffer (content : ByteArray) : Run Nat :=
  modifyGet fun s => (s.buffers.size, { s with buffers := s.buffers.push content })

def content (n : Nat) : Run ByteArray := return ((← get).buffers[n]?).getD ByteArray.empty

def connect (descriptor : Nat) (stream : Option Stream) : Run Unit :=
  modifyProcess fun p =>
    let others := p.streams.filter (·.1 != descriptor)
    { p with streams := match stream with
      | some s => (descriptor, s) :: others
      | none => others }

/-- Runs a part in a process of its own: afterwards only the disk and the buffers have changed. -/
def apart {α : Type} (x : Run α) : Run α := fun s =>
  let restore (t : State) : State :=
    { t with process := s.process, disk := { t.disk with cwd := s.disk.cwd } }
  match x s with
  | .ok a t => .ok a (restore t)
  | .error stop t => .error stop (restore t)

/-- The code that a process ends with. What kills it goes on. -/
def ending (x : Run Nat) : Run Nat := fun s =>
  match x s with
  | .error (.exit code) t => .ok code t
  | .error (.answer code) t => .ok code t
  | .error (.leave _) t => .ok 0 t
  | .error (.next _) t => .ok 0 t
  | r => r

/-- Runs a part and then makes up the process from what it was before and what it has become. -/
def restoring {α : Type} (restore : Process → Process → Process) (x : Run α) : Run α := fun s =>
  let settle (t : State) : State := { t with process := restore s.process t.process }
  match x s with
  | .ok a t => .ok a (settle t)
  | .error stop t => .error stop (settle t)

end Run

end Toolflow.Shell
