import Toolflow.Disk
import Toolflow.Text.Utf8
import Toolflow.Text.Words

/-! Command lines and the host that runs them.

A host knows the environment variables of the process and what its programs do: running a command
takes a disk to another one and leaves an outcome, or a fault when the program cannot start. -/
namespace Toolflow

/-- A command line with the variables and the directory it runs in. -/
structure Command where
  argv : List String
  cwd : Option String := none
  env : Table String := .empty

/-- What a finished program leaves behind apart from its files. -/
structure Outcome where
  ending : Ending
  stdout : ByteArray
  stderr : ByteArray

structure Host where
  environment : Table String
  run : Command → Disk → Except FileFault Outcome × Disk

namespace Command

def ofProgram (program : String) : Command := { argv := [program] }

def ofWords (words : List String) : Command := { argv := words }

def arg (c : Command) (word : String) : Command := { c with argv := c.argv ++ [word] }

def args (c : Command) (words : List String) : Command := { c with argv := c.argv ++ words }

def inDirectory (c : Command) (dir : String) : Command := { c with cwd := some dir }

def setting (c : Command) (name text : String) : Command :=
  { c with env := c.env.insert name text }

/-- The command line as a shell would read it. -/
def display (c : Command) : String := Text.joinWords c.argv

end Command

namespace Host

/-- The directories that programs are looked for in. -/
def searchPath (environment : Table String) : List String :=
  match environment.get? "PATH" with
  | some path => path.splitOn ":"
  | none => []

def isExecutable (disk : Disk) (path : String) : Bool :=
  match disk.lookup? path with
  | some (.file _ executable) => executable
  | _ => false

/-- The file that runs under a program's name: a name with several components stands for itself,
any other is looked for along the search path. -/
def which? (host : Host) (disk : Disk) (name : String) : Option String :=
  if Pathname.isAbsolute name ∨ (Pathname.names name).length > 1
      ∨ (Pathname.splitHead name.toList).1 = ['.'] then
    let path := Pathname.join disk.cwd name
    if isExecutable disk path then some path else none
  else ((searchPath host.environment).map (Pathname.join · name)).find? (isExecutable disk)

/-- A tool of the install tree, else one on the search path, else the bare name. -/
def locateTool (host : Host) (disk : Disk) (binDir name : String) : String :=
  let installed := Pathname.join binDir name
  if disk.isFile installed then installed else (host.which? disk name).getD name

end Host
end Toolflow
