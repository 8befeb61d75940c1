import Toolflow.Shell.Process

/-! Tools that work on files and directories. -/
namespace Toolflow.Shell.FileTools

open Run

/-- The letters of the options, and the other arguments. -/
def options (args : List String) : List Char × List String :=
  let before := args.takeWhile (· ≠ "--")
  let isOption (s : String) : Bool := s.length > 1 && s.toList.head? == some '-'
  let letters := (before.filter isOption).flatMap fun s => s.toList.drop 1
  (letters, before.filter (!isOption ·) ++ args.drop (before.length + 1))

/-- Runs an action for each argument; the answer is 1 when one of them failed. -/
def forEach (args : List String) (action : String → Run Nat) : Run Nat :=
  args.foldlM (fun code arg => do
    let next ← action arg
    return max code next) 0

/-- Takes over a changed disk, or complains. -/
def settle (program message : String) (result : Except FileFault Disk) : Run Nat := do
  match result with
  | .ok disk =>
    setDisk disk
    return 0
  | .error fault => fail program s!"{message}: {fault.text}"

def cat (args : List String) : Run Nat := do
  let (_, paths) := options args
  forEach (if paths.isEmpty then ["-"] else paths) fun path => do
    if path = "-" then
      write 1 (← readAll)
      return 0
    match (← disk).read path with
    | .ok content =>
      write 1 content
      return 0
    | .error fault => fail "cat" s!"{path}: {fault.text}"

/-- Where a source goes: into a directory under its own name, or to the target itself. -/
def destination (disk : Disk) (source target : String) : String :=
  if disk.isDirectory target then
    Pathname.join target ((Pathname.fileName? source).getD source)
  else target

/-- Copies a file, or a directory with all that lies below it. -/
def copy (disk : Disk) (source target : String) (recursive : Bool) : Run Nat := do
  match disk.find source with
  | .error fault => fail "cp" s!"cannot stat '{source}': {fault.text}"
  | .ok (place, .file content executable) =>
    let target := destination disk source target
    if disk.canonical? target = some place then
      fail "cp" s!"'{source}' and '{target}' are the same file"
    else
      let isNew := !disk.exists? target
      match disk.write target content with
      | .error fault => fail "cp" s!"cannot create regular file '{target}': {fault.text}"
      | .ok disk =>
        match disk.find target with
        | .ok (copied, .file content _) =>
          setDisk (if isNew then disk.put copied (.file content executable) else disk)
        | _ => setDisk disk
        return 0
  | .ok (place, .directory) =>
    if ¬ recursive then fail "cp" s!"-r not specified; omitting directory '{source}'"
    else
      let target := destination disk source target
      match disk.ensureDirectory target with
      | .error fault => fail "cp" s!"cannot create directory '{target}': {fault.text}"
      | .ok disk =>
        match disk.canonical? target with
        | none => return 1
        | some copied =>
          let below := disk.entries.entries.filter fun (p, _) => Disk.isBelow place p
          setDisk (below.foldl (fun disk (p, entry) =>
            disk.put (copied ++ String.ofList (p.toList.drop place.length)) entry) disk)
          return 0

def cp (args : List String) : Run Nat := do
  let (letters, paths) := options args
  let recursive := letters.any (· ∈ ['r', 'R', 'a'])
  match paths with
  | [] => fail "cp" "missing file operand"
  | [source] => fail "cp" s!"missing destination file operand after '{source}'"
  | _ =>
    let target := paths.getLastD ""
    if paths.length > 2 ∧ ¬ (← disk).isDirectory target then
      fail "cp" s!"target '{target}': Not a directory"
    else forEach paths.dropLast fun source => do
      copy (← disk) source target recursive

def mv (args : List String) : Run Nat := do
  let (_, paths) := options args
  match paths with
  | [] => fail "mv" "missing file operand"
  | [source] => fail "mv" s!"missing destination file operand after '{source}'"
  | _ =>
    let target := paths.getLastD ""
    forEach paths.dropLast fun source => do
      let disk ← disk
      if ¬ disk.exists? source then
        fail "mv" s!"cannot stat '{source}': {FileFault.text .notFound}"
      else
        let target := destination disk source target
        settle "mv" s!"cannot move '{source}' to '{target}'" (disk.rename source target)

def mkdir (args : List String) : Run Nat := do
  let (letters, paths) := options args
  forEach paths fun path => do
    let disk ← disk
    settle "mkdir" s!"cannot create directory '{path}'"
      (if letters.contains 'p' then disk.createDirectories path else disk.createDirectory path)

def rmdir (args : List String) : Run Nat := do
  let (_, paths) := options args
  forEach paths fun path => do
    let disk ← disk
    settle "rmdir" s!"failed to remove '{path}'"
      (match disk.find path with
      | .error fault => .error fault
      | .ok (_, .file ..) => .error .notADirectory
      | .ok (place, .directory) =>
        if (disk.namesIn place).isEmpty then .ok (disk.dropTree place)
        else .error .directoryNotEmpty)

def rm (args : List String) : Run Nat := do
  let (letters, paths) := options args
  let forced := letters.contains 'f'
  let recursive := letters.any (· ∈ ['r', 'R'])
  if paths.isEmpty ∧ ¬ forced then fail "rm" "missing operand"
  else forEach paths fun path => do
    let disk ← disk
    match disk.find path with
    | .error .notFound => if forced then return 0 else
        fail "rm" s!"cannot remove '{path}': {FileFault.text .notFound}"
    | .error fault => fail "rm" s!"cannot remove '{path}': {fault.text}"
    | .ok (place, .directory) =>
      if recursive then
        setDisk (disk.dropTree place)
        return 0
      else if letters.contains 'd' ∧ (disk.namesIn place).isEmpty then
        setDisk (disk.dropTree place)
        return 0
      else fail "rm" s!"cannot remove '{path}': {FileFault.text .isADirectory}"
    | .ok (place, .file ..) =>
      setDisk (disk.dropTree place)
      return 0

def touch (args : List String) : Run Nat := do
  let (letters, paths) := options args
  forEach paths fun path => do
    let disk ← disk
    if disk.exists? path ∨ letters.contains 'c' then return 0
    settle "touch" s!"cannot touch '{path}'" (disk.write path ByteArray.empty)

/-- Sets or clears the mark of executable files. -/
def chmod (args : List String) : Run Nat := do
  match args with
  | [] => fail "chmod" "missing operand"
  | mode :: paths =>
    let executable? : Option Bool :=
      match mode.toList.getLast? with
      | some 'x' => some (!mode.toList.contains '-')
      | some c => if c.isDigit then some (mode.toList.any fun d => d ∈ ['1', '3', '5', '7'])
        else none
      | none => none
    forEach paths fun path => do
      let disk ← disk
      match disk.find path with
      | .ok (place, .file content executable) =>
        setDisk (disk.put place (.file content (executable?.getD executable)))
        return 0
      | .ok (_, .directory) => return 0
      | .error fault => fail "chmod" s!"cannot access '{path}': {fault.text}"

def ls (args : List String) : Run Nat := do
  let (letters, paths) := options args
  let all := letters.any (· ∈ ['a', 'A'])
  let names (place : String) : Run String := do
    let visible := ((← disk).namesIn place).filter fun n => all || n.toList.head? != some '.'
    return String.join (visible.map (· ++ "\n"))
  let paths := if paths.isEmpty then ["."] else paths
  forEach paths fun path => do
    match (← disk).find path with
    | .error fault =>
      fail "ls" s!"cannot access '{path}': {fault.text}" 2
    | .ok (place, .directory) =>
      if letters.contains 'd' then say s!"{path}\n" else
        if paths.length > 1 then say s!"{path}:\n"
        say (← names place)
      return 0
    | .ok (_, .file ..) =>
      say s!"{path}\n"
      return 0

def tee (args : List String) : Run Nat := do
  let (letters, paths) := options args
  let bytes ← readAll
  write 1 bytes
  forEach paths fun path => do
    let disk ← disk
    let content := if letters.contains 'a' then
        match disk.read path with
        | .ok old => old ++ bytes
        | .error _ => bytes
      else bytes
    settle "tee" path (disk.write path content)

def pwd (_ : List String) : Run Nat := do
  say s!"{(← disk).cwd}\n"
  return 0

end Toolflow.Shell.FileTools
