import Toolflow.Shell.TextTools
import Toolflow.Shell.Test

/-! Programs: the files that can be started, and the tools that every host brings along.

A program file is either a script that names its interpreter in the first line, or the image of a
tool. -/
namespace Toolflow.Shell

open Run

namespace Program

def imageMark : String := "\x7fELF "

/-- The content of the file that holds a tool. -/
def image (tool : String) : ByteArray := (imageMark ++ tool).toUTF8

inductive Content where
  | tool (name : String)
  /-- A script with its interpreter and at most one argument for it. -/
  | script (interpreter : String) (arg : Option String)
  | other

/-- Takes the first line of a script apart. -/
def interpreterLine (line : List Char) : Content :=
  let isBlank (c : Char) : Bool := c == ' ' || c == '\t'
  let trimEnd (cs : List Char) : List Char := (cs.reverse.dropWhile isBlank).reverse
  let line := trimEnd (line.dropWhile isBlank)
  let interpreter := line.takeWhile (!isBlank ·)
  let arg := (line.drop interpreter.length).dropWhile isBlank
  if interpreter.isEmpty then .other
  else .script (String.ofList interpreter)
    (if arg.isEmpty then none else some (String.ofList arg))

def contentOf (content : ByteArray) : Content :=
  let cs := (Text.ofUtf8 (content.extract 0 256)).toList
  if imageMark.toList.isPrefixOf cs then .tool (String.ofList (cs.drop imageMark.length))
  else match cs with
    | '#' :: '!' :: rest => interpreterLine (rest.takeWhile (· ≠ '\n'))
    | _ => .other

def defaultSearchPath : List String := ["/bin", "/usr/bin"]

/-- The pathname a program is started from: a name with a separator stands for itself, any other
is looked for along the search path. -/
def locate (disk : Disk) (environment : Table String) (name : String) : Except FileFault String :=
  if name.toList.contains '/' then .ok name
  else if name.isEmpty then .error .notFound
  else
    let dirs := match environment.get? "PATH" with
      | some path => (path.splitOn ":").map fun (d : String) => if d.isEmpty then "." else d
      | none => defaultSearchPath
    let paths := (dirs.map (Pathname.join · name)).filter disk.isFile
    let isExecutable (path : String) : Bool :=
      match disk.lookup? path with
      | some (.file _ executable) => executable
      | _ => false
    match paths.find? isExecutable, paths with
    | some path, _ => .ok path
    | none, [] => .error .notFound
    | none, _ => .error .permissionDenied

/-- What is in the program file at a pathname, if it may be started. -/
def load (disk : Disk) (path : String) : Except FileFault Content :=
  match disk.find path with
  | .ok (_, .file content true) => .ok (contentOf content)
  | .ok _ => .error .permissionDenied
  | .error fault => .error fault

end Program

namespace Tool

/-- The tool `echo`: escapes are carried out behind `-e` only. -/
def echo (args : List String) : Run Nat := do
  let isOption (s : String) : Bool :=
    s.length > 1 && s.toList.head? == some '-' && (s.toList.drop 1).all (· ∈ ['n', 'e', 'E'])
  let flags := (args.takeWhile isOption).flatMap fun s => s.toList.drop 1
  let text := " ".intercalate (args.dropWhile isOption)
  let escapes := (flags.filter (· ≠ 'n')).getLast? = some 'e'
  let (out, ended) := if escapes then Format.expand text else (text.toUTF8, false)
  write 1 (if flags.contains 'n' ∨ ended then out else out ++ "\n".toUTF8)
  return 0

/-- Writes the arguments under a format. `complaint` tells of one that is no number. -/
def printf (complaint : String → String) (args : List String) : Run Nat := do
  let args := if args.head? = some "--" then args.drop 1 else args
  match args with
  | [] => fail "printf" "missing operand"
  | format :: rest =>
    let o := Format.printf format rest
    write 1 o.bytes
    o.wrong.forM fun w => complain (complaint w ++ "\n")
    return if o.wrong.isEmpty then 0 else 1

def bracket (args : List String) : Run Nat := do
  if args.getLast? = some "]" then Test.command "[" args.dropLast
  else fail "[" "missing ]" 2

def cmp (args : List String) : Run Nat := do
  let (letters, paths) := FileTools.options args
  match paths with
  | a :: b :: _ =>
    match (← disk).read a, (← disk).read b with
    | .ok x, .ok y =>
      if x == y then return 0
      if ¬ letters.contains 's' then
        let same := (x.toList.zip y.toList).takeWhile fun (p, q) => p == q
        let line := (same.filter (·.1.toNat = 10)).length + 1
        say s!"{a} {b} differ: char {same.length + 1}, line {line}\n"
      return 1
    | .error fault, _ => fail "cmp" s!"{a}: {fault.text}" 2
    | _, .error fault => fail "cmp" s!"{b}: {fault.text}" 2
  | _ => fail "cmp" "missing operand" 2

/-- Where programs are found that carry a name. -/
def which (args : List String) : Run Nat := do
  let p ← process
  FileTools.forEach args fun name => do
    match Program.locate (← disk) p.vars name with
    | .ok path =>
      say s!"{path}\n"
      return 0
    | .error _ => return 1

def printenv (_ : List String) : Run Nat := do
  (← process).vars.entries.forM fun (name, text) => say s!"{name}={text}\n"
  return 0

/-- The tools of every host, by name. -/
def all : List (String × (List String → Run Nat)) :=
  [("true", fun _ => return 0), ("false", fun _ => return 1), ("sleep", fun _ => return 0),
    ("sync", fun _ => return 0), ("echo", echo),
    ("printf", printf fun w => s!"printf: '{w}': expected a numeric value"),
    ("test", Test.command "test"),
    ("[", bracket), ("cmp", cmp), ("which", which), ("printenv", printenv),
    ("cat", FileTools.cat), ("cp", FileTools.cp), ("mv", FileTools.mv),
    ("mkdir", FileTools.mkdir), ("rmdir", FileTools.rmdir), ("rm", FileTools.rm),
    ("touch", FileTools.touch), ("chmod", FileTools.chmod), ("ls", FileTools.ls),
    ("tee", FileTools.tee), ("pwd", FileTools.pwd), ("tr", TextTools.tr), ("sed", TextTools.sed),
    ("head", TextTools.head), ("tail", TextTools.tail), ("wc", TextTools.wc),
    ("sort", TextTools.sort), ("uniq", TextTools.uniq), ("grep", TextTools.grep),
    ("cut", TextTools.cut), ("seq", TextTools.seq), ("basename", TextTools.basename),
    ("dirname", TextTools.dirname)]

end Tool
end Toolflow.Shell
