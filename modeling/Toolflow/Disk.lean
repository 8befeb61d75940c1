import Toolflow.Failure
import Toolflow.Pathname

/-! Files and directories as a process sees them.

A disk is a table from normal absolute pathnames (`/`, `/a`, `/a/b`) to entries, together with
the working directory. Pathnames are followed component by component: each step needs a directory
to start from, so `..` is the parent in the tree and not an operation on the text. Every operation
is a function from disks to disks, and answers the fault the system would report. -/
namespace Toolflow

inductive Entry where
  | directory
  | file (content : ByteArray) (executable : Bool)

structure Disk where
  entries : Table Entry
  cwd : String

namespace Disk

def empty : Disk := ⟨Table.empty.insert "/" .directory, "/"⟩

instance : Inhabited Disk := ⟨empty⟩

/-- The entry `name` of the directory `dir`. -/
def child (dir name : String) : String := if dir = "/" then "/" ++ name else dir ++ "/" ++ name

/-- The directory above a normal pathname; the root is above itself. -/
def above (path : String) : String := (Pathname.parent? path).getD "/"

/-- Follows components from a normal pathname. The last one need not exist. -/
def follow (entries : Table Entry) : String → List String → Except FileFault String
  | at_, [] => .ok at_
  | at_, name :: rest =>
    match entries.get? at_ with
    | some .directory => follow entries (if name = ".." then above at_ else child at_ name) rest
    | some (.file ..) => .error .notADirectory
    | none => .error .notFound

/-- Whether the text of a pathname ends in a separator or in `.`, and so means a directory. -/
def meansDirectory (path : String) : Bool := !Pathname.endsInName path.toList

/-- The normal pathname a text leads to; all of it but the last component exists. -/
def locate (disk : Disk) (path : String) : Except FileFault String :=
  if path.isEmpty then .error .notFound
  else follow disk.entries (if Pathname.isAbsolute path then "/" else disk.cwd)
    (Pathname.names path)

/-- The normal pathname and the entry a text leads to. -/
def find (disk : Disk) (path : String) : Except FileFault (String × Entry) := do
  let place ← disk.locate path
  match disk.entries.get? place with
  | some entry@(.file ..) =>
    if meansDirectory path then .error .notADirectory else .ok (place, entry)
  | some entry => .ok (place, entry)
  | none => .error .notFound

def lookup? (disk : Disk) (path : String) : Option Entry :=
  match disk.find path with
  | .ok (_, entry) => some entry
  | .error _ => none

def exists? (disk : Disk) (path : String) : Bool := (disk.lookup? path).isSome

def isDirectory (disk : Disk) (path : String) : Bool :=
  match disk.lookup? path with
  | some .directory => true
  | _ => false

def isFile (disk : Disk) (path : String) : Bool :=
  match disk.lookup? path with
  | some (.file ..) => true
  | _ => false

/-- The pathname without `..` and `.`, if it exists. -/
def canonical? (disk : Disk) (path : String) : Option String :=
  match disk.find path with
  | .ok (place, _) => some place
  | .error _ => none

def read (disk : Disk) (path : String) : Except FileFault ByteArray := do
  match ← disk.find path with
  | (_, .file content _) => .ok content
  | (_, .directory) => .error .isADirectory

/-- Reads a file that has to be text. -/
def readText (disk : Disk) (path : String) : Except FileFault String := do
  match String.fromUTF8? (← disk.read path) with
  | some text => .ok text
  | none => .error .invalidData

def put (disk : Disk) (place : String) (entry : Entry) : Disk :=
  { disk with entries := disk.entries.insert place entry }

/-- Creates a file or replaces the content of one. -/
def write (disk : Disk) (path : String) (content : ByteArray) : Except FileFault Disk := do
  let place ← disk.locate path
  match disk.entries.get? place with
  | some .directory => .error .isADirectory
  | some (.file _ executable) =>
    if meansDirectory path then .error .notADirectory
    else .ok (disk.put place (.file content executable))
  | none =>
    if meansDirectory path then .error .isADirectory
    else match disk.entries.get? (above place) with
      | some .directory => .ok (disk.put place (.file content false))
      | some (.file ..) => .error .notADirectory
      | none => .error .notFound

/-- Writes at the end of a file that exists. -/
def append (disk : Disk) (path : String) (content : ByteArray) : Except FileFault Disk := do
  match ← disk.find path with
  | (place, .file old executable) => .ok (disk.put place (.file (old ++ content) executable))
  | (_, .directory) => .error .isADirectory

def removeFile (disk : Disk) (path : String) : Except FileFault Disk := do
  match ← disk.find path with
  | (place, .file ..) => .ok { disk with entries := disk.entries.erase place }
  | (_, .directory) => .error .isADirectory

/-- Whether a normal pathname lies strictly below a directory. -/
def isBelow (dir place : String) : Bool :=
  place != dir && (if dir = "/" then "/" else dir ++ "/").toList.isPrefixOf place.toList

/-- Drops an entry with all that lies below it. -/
def dropTree (disk : Disk) (place : String) : Disk :=
  { disk with entries := disk.entries.filter fun p _ => p != place && !isBelow place p }

/-- Removes a file or a directory with its content; what does not exist is no fault. -/
def removeTree (disk : Disk) (path : String) : Disk :=
  match disk.find path with
  | .ok (place, _) => disk.dropTree place
  | .error _ => disk

def createDirectory (disk : Disk) (path : String) : Except FileFault Disk := do
  let place ← disk.locate path
  match disk.entries.get? place with
  | some _ => .error .alreadyExists
  | none =>
    match disk.entries.get? (above place) with
    | some .directory => .ok (disk.put place .directory)
    | some (.file ..) => .error .notADirectory
    | none => .error .notFound

/-- Creates a directory where none is yet. -/
def ensureDirectory (disk : Disk) (path : String) : Except FileFault Disk :=
  match disk.createDirectory path with
  | .ok disk => .ok disk
  | .error fault => if disk.isDirectory path then .ok disk else .error fault

/-- Creates a directory and, where they are missing, those that lead to it. Each step up shortens
the text, so fuel above its length is enough. -/
def createAbove : Nat → Disk → String → Except FileFault Disk
  | 0, disk, _ => .ok disk
  | fuel + 1, disk, path =>
    if path.isEmpty then .ok disk
    else match disk.createDirectory path with
      | .ok disk => .ok disk
      | .error .notFound => do
        match Pathname.parent? path with
        | some parent => (← createAbove fuel disk parent).ensureDirectory path
        | none => .error .notExecutable
      | .error fault => if disk.isDirectory path then .ok disk else .error fault

def createDirectories (disk : Disk) (path : String) : Except FileFault Disk :=
  createAbove (path.length + 1) disk path

/-- The names directly inside a directory given by its normal pathname, in name order. -/
def namesIn (disk : Disk) (dir : String) : List String :=
  disk.entries.keys.filterMap fun p =>
    if isBelow dir p ∧ above p = dir then Pathname.fileName? p else none

/-- Moves an entry with all that lies below it to another normal pathname. -/
def moveTree (disk : Disk) (source target : String) : Disk :=
  let moved := disk.entries.entries.filterMap fun (p, entry) =>
    if p = source then some (target, entry)
    else if isBelow source p then
      some (target ++ String.ofList (p.toList.drop source.length), entry)
    else none
  let kept := (disk.dropTree source).dropTree target
  moved.foldl (fun disk (p, entry) => disk.put p entry) kept

/-- Gives an entry another pathname, in the place of what stands there. -/
def rename (disk : Disk) (source target : String) : Except FileFault Disk := do
  let origin ← disk.locate source
  let destination ← disk.locate target
  let entry ← (·.2) <$> disk.find source
  match disk.entries.get? (above destination) with
  | some .directory =>
    match entry with
    | .file .. =>
      if meansDirectory target then .error .notADirectory
      else if origin = destination then .ok disk
      else match disk.entries.get? destination with
        | some .directory => .error .isADirectory
        | _ => .ok (disk.moveTree origin destination)
    | .directory =>
      if origin = destination then .ok disk
      else if isBelow origin destination then .error .invalidInput
      else match disk.entries.get? destination with
        | some (.file ..) => .error .notADirectory
        | some .directory =>
          if (disk.namesIn destination).isEmpty then .ok (disk.moveTree origin destination)
          else .error .directoryNotEmpty
        | none => .ok (disk.moveTree origin destination)
  | some (.file ..) => .error .notADirectory
  | none => .error .notFound

end Disk
end Toolflow
