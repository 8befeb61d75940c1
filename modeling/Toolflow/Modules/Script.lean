import Toolflow.Modules.Parameters
import Toolflow.Registry

/-! Runs any script as a stage.

Parameters: `script`; `interpreter`, split as a shell would; `cwd`; `inputs`, where a key `#N` is a
positional argument, `$VAR` a variable of the environment and any other key an option; `outputs`,
from products to `{mode, file, target, optional}`. What the stage takes and which values it reads
is found by scanning the parameters for `${:take}` and `${value}`. -/
namespace Toolflow.Modules.Script

/-- A reference as the scan sees it. -/
structure Mention where
  isTake : Bool
  name : String
  isOptional : Bool
deriving Repr, DecidableEq

/-- The characters a scanned name may hold. -/
def isNameChar (c : Char) : Bool :=
  c != '$' && c != '{' && c != '}' && c != '[' && c != ']' && c != '?'

/-- Reads a token body as an optional `:`, a name, an optional selector in brackets, which may
hold brackets itself, and an optional `?`. -/
def mentionOf? (body : List Char) : Option Mention :=
  let (isTake, cs) := match body with
    | ':' :: rest => (true, rest)
    | cs => (false, cs)
  let name := String.ofList (cs.takeWhile isNameChar)
  let rest := cs.dropWhile isNameChar
  let (isOptional, selector) := match rest.getLast? with
    | some '?' => (true, rest.dropLast)
    | _ => (false, rest)
  if selector = [] ∨ (selector.head? = some '[' ∧ selector.getLast? = some ']') then
    some ⟨isTake, name, isOptional⟩
  else none

/-- The references of a text that the scan recognises, in order. -/
def mentions (text : String) : List Mention :=
  (Reference.pieces text.toList).filterMap fun
    | .token body => mentionOf? body
    | .char _ => none

/-- Adds a name to the declared ones. A single unconditional use makes it required. -/
def declare (known : List Declared) (name : String) (isOptional : Bool) : List Declared :=
  if known.any (·.name = name) then
    if isOptional then known
    else known.map fun d => if d.name = name then .required name else d
  else known ++ [if isOptional then .optional name else .required name]

/-- The takes and values that mentions declare; a mention without a name counts for nothing. -/
def declareAll (ms : List Mention) : List Declared × List Declared :=
  ms.foldl (fun (takes, values) m =>
    if m.name.isEmpty then (takes, values)
    else if m.isTake then (declare takes m.name m.isOptional, values)
    else (takes, declare values m.name m.isOptional)) ([], [])

inductive OutputMode where
  | file
  | stdout
deriving Repr, DecidableEq

structure Output where
  mode : OutputMode
  /-- What the script writes, for an output in file mode. -/
  file : Option Value
  /-- Where the product goes. -/
  target : Value
  isOptional : Bool
deriving DecidableEq

def Output.parse (name : String) (decl : Value) : Except Failure Output := do
  let mode ← match ← Parameters.string? decl "mode" with
    | none | some "file" => .ok OutputMode.file
    | some "stdout" => .ok OutputMode.stdout
    | some other => refuse (.unknownOutputMode name other)
  let some target := Parameters.get? decl "target" | refuse (.missingOutputTarget name)
  let file := Parameters.get? decl "file"
  if mode = .file ∧ file.isNone then refuse (.missingOutputFile name)
  return { mode, file, target, isOptional := Parameters.flag decl "optional" }

/-- A script stage as its parameters describe it. -/
structure Job where
  interpreter : List String
  script : Value
  cwd : Option Value
  inputs : ValueTable
  outputs : Table Output
deriving DecidableEq

namespace Job

/-- The texts the scan goes through, in its order. -/
def texts (s : Job) : List String :=
  s.script.strings ++ (s.cwd.elim [] Value.strings) ++ s.inputs.values.flatMap Value.strings
    ++ s.outputs.values.flatMap fun o => o.target.strings ++ o.file.elim [] Value.strings

def interface (s : Job) (name : String) : Interface :=
  let (takes, values) := declareAll (s.texts.flatMap mentions)
  { name
    phases := 2
    takes
    values
    produces := s.outputs.entries.map fun (name, o) =>
      if o.isOptional then .optional name else .required name }

/-- The number of a key `#N`. -/
def position? (key : String) : Option Nat :=
  match key.toList with
  | '#' :: digits =>
    let digits := if digits.head? = some '+' then digits.drop 1 else digits
    if digits = [] ∨ ¬ digits.all Char.isDigit then none
    else
      let n := Double.natOfDigits digits
      if n ≤ 18446744073709551615 then some n else none
  | _ => none

/-- The variable of a key `$VAR`. -/
def variableOf? (key : String) : Option String :=
  match key.toList with
  | '$' :: name => some (String.ofList name)
  | _ => none

/-- The words of an option: `false` and `null` leave it out, `true` makes it a bare flag. -/
def optionWords (key : String) (v : Value) : List String :=
  match v with
  | .null | .bool false => []
  | .bool true => ["--" ++ key]
  | v => ("--" ++ key) :: v.words

/-- Inputs in the order of their positions; inputs of one position keep their order. -/
def insertPosition (n : Nat) (words : List String) :
    List (Nat × List String) → List (Nat × List String)
  | [] => [(n, words)]
  | (m, ws) :: rest =>
    if n < m then (n, words) :: (m, ws) :: rest else (m, ws) :: insertPosition n words rest

/-- The command line: interpreter, script, options in key order, positional arguments by number. -/
def command (s : Job) (ctx : Context) : Except Failure Command := do
  let words := (ctx.env.resolveFinal s.script).words
  if words.isEmpty then refuse (.emptyScript ctx.stage)
  let inputs := s.inputs.entries.map fun (key, v) => (key, ctx.env.resolveFinal v)
  let options := inputs.flatMap fun (key, v) =>
    if (position? key).isSome ∨ (variableOf? key).isSome then [] else optionWords key v
  let positional := inputs.foldl (fun acc (key, v) =>
    match position? key with
    | some n => insertPosition n v.words acc
    | none => acc) []
  let env := inputs.foldl (fun (env : Table String) (key, v) =>
    match variableOf? key with
    | some name => env.insert name (" ".intercalate v.words)
    | none => env) .empty
  let cwd ← match s.cwd with
    | none => .ok none
    | some dir =>
      match (ctx.env.resolveFinal dir).str? with
      | some dir => .ok (some dir)
      | none => refuse (.directoryNotPath ctx.stage)
  return {
    argv := s.interpreter ++ words ++ options ++ positional.flatMap (·.2)
    cwd
    env }

/-- The directory that the script's files are looked for in. -/
def workingDirectory (s : Job) (ctx : Context) : String :=
  (s.cwd.bind fun dir => (ctx.env.resolveFinal dir).str?).getD "."

def defaults (s : Job) (ctx : Context) : ValueTable :=
  s.outputs.map fun o => ctx.env.resolve o.target

/-- Moves what the script wrote to its target; a file that is both stays. -/
def collect (produced target : String) (isOptional : Bool) : Exec Unit := do
  let disk ← Exec.disk
  if disk.exists? produced then
    let same := (disk.canonical? produced).isSome
      && disk.canonical? produced == disk.canonical? target
    if ¬ same then Exec.change (.moving produced target) (·.rename produced target)
  else if ¬ isOptional then Exec.refuse (.scriptDidNotWrite produced)

/-- Puts one output of the finished script where it belongs. -/
def deliver (s : Job) (ctx : Context) (stdout : ByteArray) (name : String) (o : Output) :
    Exec Unit := do
  let some target := ctx.outputs.str? name | return
  if let some parent := Pathname.parent? target then
    Exec.change (.creating parent) (·.createDirectories parent)
  match o.mode with
  | .stdout => Exec.change (.writing target) (·.write target stdout)
  | .file =>
    let some file := o.file.bind fun file => (ctx.env.resolveFinal file).str? | return
    collect (Pathname.join (s.workingDirectory ctx) file) target o.isOptional

def execute (s : Job) (ctx : Context) (progress : Progress) : Exec Unit := do
  let command ← Exec.ofExcept (s.command ctx)
  if progress.isVerbose then
    progress.phase s!"Running script...\n           {command.display}"
  else
    progress.phase "Running script..."
  let stdout ← Exec.during (.scripting ctx.stage) command.run
  progress.phase "Writing outputs..."
  s.outputs.entries.forM fun (name, o) => s.deliver ctx stdout name o

def toModule (s : Job) (name : String) : ToolModule where
  io := s.interface name
  outputs ctx := .ok (s.defaults ctx)
  execute := s.execute

/-- Reads the parameters. -/
def parse (params : Value) : Except Failure Job := do
  let some script := Parameters.get? params "script" | refuse .missingScript
  let interpreter ← match ← Parameters.string? params "interpreter" with
    | none => .ok []
    | some text =>
      match Text.split? text with
      | some words => .ok words
      | none => during (.splittingInterpreter text) (refuse .unclosedQuote)
  let inputs ← match Parameters.get? params "inputs" with
    | none => .ok .empty
    | some (.map fields) => .ok fields
    | some other => refuse (.parameterNotTableGot "inputs" other)
  -- the name is read before the outputs, so that its fault is found first
  discard <| Parameters.string? params "stage_name"
  let outputs ← match Parameters.get? params "outputs" with
    | none => .ok .empty
    | some (.map fields) => fields.entries.foldlM (fun (t : Table Output) (name, decl) => do
        return t.insert name (← Output.parse name decl)) .empty
    | some _ => refuse (.parameterNotTable "outputs")
  return { interpreter, script, cwd := Parameters.get? params "cwd", inputs, outputs }

end Job

def make (args : ModuleArgs) : Except Failure ToolModule := do
  let script ← Job.parse args.params
  let name ← Parameters.string? args.params "stage_name"
  return script.toModule (name.getD args.instanceName)

end Toolflow.Modules.Script
