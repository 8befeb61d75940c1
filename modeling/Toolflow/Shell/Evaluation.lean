import Toolflow.Shell.Fields
import Toolflow.Shell.Program
import Toolflow.Shell.Reader

/-! Running shell scripts and programs.

Scripts need not end, so running takes fuel; a process that uses it up is killed. A command counts
as tested where its failure decides what comes next; a strict shell ends with any other command
that fails. -/
namespace Toolflow.Shell

open Run

/-- Complains in the name of the running shell. -/
def shellComplain (message : String) : Run Unit := do
  let p ← process
  complain s!"{p.name}: {p.line}: {message}\n"

/-- The value of a parameter. -/
def Process.value? (p : Process) (name : String) : Option String :=
  match name with
  | "#" => some (toString p.args.length)
  | "?" => some (toString p.status)
  | "$" => some (toString p.id)
  | "-" => some ((if p.cautious then "u" else "") ++ (if p.strict then "e" else ""))
  | "!" => none
  | "0" => some p.name
  | "@" | "*" => if p.args.isEmpty then none else some (" ".intercalate p.args)
  | _ =>
    match name.toNat? with
    | some n => p.args[n - 1]?
    | none => p.vars.get? name

/-- The value of a parameter that is used as it is; one that has none counts as empty, unless the
shell is cautious. -/
def valueOf (name : String) : Run String := do
  let p ← process
  match p.value? name with
  | some text => return text
  | none =>
    if p.cautious ∧ name ∉ ["@", "*"] then
      shellComplain s!"{name}: parameter not set"
      throw (.exit 2)
    return ""

def setVariable (name text : String) : Run Unit :=
  modifyProcess fun p => { p with vars := p.vars.insert name text }

def Process.separators (p : Process) : List Char :=
  match p.vars.get? "IFS" with
  | some s => s.toList
  | none => [' ', '\t', '\n']

/-- The variables that programs are started with. -/
def Process.environment (p : Process) : Table String :=
  p.vars.filter fun name _ => p.exported.contains name

/-- Ends a strict shell when a command that is not tested has failed. -/
def checked (tested : Bool) (code : Nat) : Run Nat := do
  if code ≠ 0 ∧ ¬ tested ∧ (← process).strict then throw (.exit code)
  return code

/-- Keeps the streams as they were. -/
def keepingStreams {α : Type} (x : Run α) : Run α :=
  restoring (fun before after => { after with streams := before.streams }) x

/-- Devices that are no files. -/
def device? (place : String) : Run (Option (Option Stream)) := do
  match place with
  | "/dev/null" => return some (some .null)
  | "/dev/stdin" => return some (← stream 0)
  | "/dev/stdout" => return some (← stream 1)
  | "/dev/stderr" => return some (← stream 2)
  | _ => return none

def openToRead (path : String) : Run (Except String (Option Stream)) := do
  match (← disk).find path with
  | .error .notFound => return .error s!"cannot open {path}: No such file"
  | .error fault => return .error s!"cannot open {path}: {fault.text}"
  | .ok (_, .directory) => return .ok (some .null)
  | .ok (place, .file content _) =>
    match ← device? place with
    | some stream => return .ok stream
    | none => return .ok (some (.buffer (← buffer content)))

def openToWrite (path : String) (direction : Direction) : Run (Except String (Option Stream)) := do
  let disk ← disk
  match disk.locate path with
  | .error .notFound => return .error s!"cannot create {path}: Directory nonexistent"
  | .error fault => return .error s!"cannot create {path}: {fault.text}"
  | .ok place =>
    match ← device? place with
    | some stream => return .ok stream
    | none =>
      let keeps := direction ≠ .write && disk.isFile path
      match if keeps then .ok disk else disk.write path ByteArray.empty with
      | .ok disk =>
        setDisk disk
        return .ok (some (.file place))
      | .error .notFound => return .error s!"cannot create {path}: Directory nonexistent"
      | .error fault => return .error s!"cannot create {path}: {fault.text}"

/-- What stands for a number of leading arguments in `shift`. -/
def shiftBy (args : List String) : Nat := ((args.head?.bind (·.toNat?))).getD 1

/-- Reads a line and cuts it up among variables; the last one takes what is left. -/
def readLine (args : List String) : Run Nat := do
  let raw := args.contains "-r"
  let names := args.filter fun a => a.toList.head? ≠ some '-'
  let bytes ← input
  let line := bytes.toList.takeWhile (· ≠ 10)
  setInput (ByteArray.mk (bytes.toList.drop (line.length + 1)).toArray)
  let text := (Text.ofUtf8 (ByteArray.mk line.toArray)).toList
  let text := if raw then text else text.filter (· ≠ '\\')
  let separators := (← process).separators
  let rec give : List String → List Char → Run Unit
    | [], _ => return
    | [name], cs =>
      let trimmed := ((cs.dropWhile separators.contains).reverse.dropWhile
        separators.contains).reverse
      setVariable name (String.ofList trimmed)
    | name :: rest, cs => do
      let cs := cs.dropWhile separators.contains
      let first := cs.takeWhile (!separators.contains ·)
      setVariable name (String.ofList first)
      give rest (cs.drop (first.length + 1))
  give names text
  return if line.length < bytes.size then 0 else 1

def changeDirectory (args : List String) : Run Nat := do
  let p ← process
  let target := match args.head? with
    | some "-" => (p.vars.get? "OLDPWD").getD ""
    | some dir => dir
    | none => (p.vars.get? "HOME").getD "/"
  let disk ← disk
  match disk.find target with
  | .ok (place, .directory) =>
    setVariable "OLDPWD" disk.cwd
    setVariable "PWD" place
    setDisk { disk with cwd := place }
    return 0
  | _ =>
    shellComplain s!"cd: can't cd to {target}"
    return 2

/-- Exports variables, and assigns those that have a value behind `=`. -/
def exportVariables (args : List String) : Run Nat := do
  args.forM fun arg => do
    let name := String.ofList (arg.toList.takeWhile (· ≠ '='))
    if name.length < arg.length then
      setVariable name (String.ofList (arg.toList.drop (name.length + 1)))
    modifyProcess fun p => { p with exported := p.exported.add name }
  return 0

/-- Declares variables of the running function. -/
def declareLocal (args : List String) : Run Nat := do
  args.forM fun arg => do
    let name := String.ofList (arg.toList.takeWhile (· ≠ '='))
    modifyProcess fun p => { p with saved := (name, p.vars.get? name) :: p.saved }
    if name.length < arg.length then
      setVariable name (String.ofList (arg.toList.drop (name.length + 1)))
  return 0

/-- Switches options of the shell on or off. -/
def switch (on : Bool) (letters : List Char) : Run Unit :=
  modifyProcess fun p => { p with
    strict := if letters.contains 'e' then on else p.strict
    cautious := if letters.contains 'u' then on else p.cautious }

/-- Runs a round of a loop. The answer of the round tells whether the loop goes on, unless a command
leaves the loop or the round. -/
def inLoop (round : Run (Nat × Bool)) : Run (Nat × Bool) :=
  restoring (fun before after => { after with loops := before.loops }) do
    modifyProcess fun p => { p with loops := p.loops + 1 }
    try round
    catch
      | .leave n => if n ≤ 1 then return (0, false) else throw (.leave (n - 1))
      | .next n => if n ≤ 1 then return (0, true) else throw (.next (n - 1))
      | stop => throw stop

/-- Stops some of the loops that are being run; outside loops nothing happens. -/
def stopLoops (stop : Nat → Stop) (args : List String) : Run Nat := do
  let loops := min (shiftBy args) (← process).loops
  if loops = 0 then return 0 else throw (stop loops)

/-- Sets options of the shell and its arguments. -/
def setOptions : List String → Run Nat
  | [] => return 0
  | "--" :: rest => do
    modifyProcess fun p => { p with args := rest }
    return 0
  | a :: rest => do
    match a.toList with
    | '-' :: letters =>
      switch true letters
      setOptions rest
    | '+' :: letters =>
      switch false letters
      setOptions rest
    | _ =>
      modifyProcess fun p => { p with args := a :: rest }
      return 0

/-- Sends signals; the only process that can be reached is the shell itself. -/
def sendSignal (args : List String) : Run Nat := do
  let harmless := ["-0", "-CONT", "-CHLD", "-WINCH", "-URG"]
  let targets := args.filter fun a => a.toList.head? ≠ some '-'
  let targets := if args.head? = some "-s" then targets.drop 1 else targets
  let quiet := (args.head?.map harmless.contains).getD false
  let own := toString (← process).id
  targets.foldlM (fun code target => do
    if target = own then
      if quiet then return code
      throw .killed
    shellComplain "kill: No such process"
    return 1) 0

def isNumber (s : String) : Bool := !s.isEmpty && s.toList.all Char.isDigit

/-- Commands that are part of the shell and run nothing else. -/
def builtin? (name : String) : Option (List String → Run Nat) :=
  match name with
  | ":" | "true" | "times" | "wait" | "umask" | "ulimit" | "alias" | "unalias" | "hash" =>
    some fun _ => return 0
  | "false" => some fun _ => return 1
  | "echo" => some fun args => do
    write 1 (Format.echo args)
    return 0
  | "printf" => some fun args => do
    let name ← complaintName "printf"
    Tool.printf (fun w => s!"{name}: {w}: expected numeric value") args
  | "pwd" => some FileTools.pwd
  | "cd" | "chdir" => some changeDirectory
  | "test" => some fun args => do Test.command (← complaintName "test") args
  | "[" => some fun args => do
    if args.getLast? = some "]" then Test.command (← complaintName "[") args.dropLast
    else
      shellComplain "[: missing ]"
      return 2
  | "exit" => some fun args => do
    match args with
    | [] => throw (.exit (← process).status)
    | n :: _ =>
      if isNumber n then throw (.exit (n.toNat?.getD 0 % 256))
      shellComplain s!"exit: Illegal number: {n}"
      throw (.exit 2)
  | "return" => some fun args => do
    match args with
    | [] => throw (.answer (← process).status)
    | n :: _ =>
      if isNumber n then throw (.answer (n.toNat?.getD 0 % 256))
      shellComplain s!"return: Illegal number: {n}"
      throw (.exit 2)
  | "break" => some (stopLoops .leave)
  | "continue" => some (stopLoops .next)
  | "shift" => some fun args => do
    let n := shiftBy args
    if n > (← process).args.length then
      shellComplain "shift: can't shift that many"
      throw (.exit 2)
    modifyProcess fun p => { p with args := p.args.drop n }
    return 0
  | "set" => some setOptions
  | "export" | "readonly" => some exportVariables
  | "local" => some declareLocal
  | "unset" => some fun args => do
    args.forM fun name => modifyProcess fun p =>
      { p with
        vars := p.vars.erase name
        exported := p.exported.erase name
        functions := if args.contains "-f" then p.functions.erase name else p.functions }
    return 0
  | "read" => some readLine
  | "kill" => some sendSignal
  | "trap" => some fun args => do
    match args with
    | action :: signals =>
      if signals.any (· ∈ ["EXIT", "0"]) then
        modifyProcess fun p =>
          { p with onExit := if action = "-" then none else some action }
      return 0
    | [] => return 0
  | _ => none
where
  complaintName (name : String) : Run String := do
    let p ← process
    return s!"{p.name}: {p.line}: {name}"

/-- Builtin commands whose failures end the shell and whose assignments last. -/
def isSpecial (name : String) : Bool :=
  name ∈ [":", "break", "continue", "exit", "export", "readonly", "return", "set", "shift",
    "times", "trap", "unset", "eval", "exec", "."]

/-- What a command's name stands for, as `command -v` tells it. -/
def meaning? (p : Process) (disk : Disk) (name : String) : Option String :=
  if p.functions.contains name ∨ (builtin? name).isSome
      ∨ name ∈ ["eval", "exec", ".", "command"] then some name
  else match Program.locate disk p.vars name with
    | .ok path => if (disk.lookup? path).isSome then some path else none
    | .error _ => none

/-- The options in front of a shell's script. -/
structure Invocation where
  letters : List Char := []
  rest : List String

def invocation : List String → Invocation
  | [] => { rest := [] }
  | a :: rest =>
    match a.toList with
    | '-' :: letters =>
      if a = "--" ∨ a = "-" then { rest }
      else
        let i := invocation rest
        { i with letters := letters ++ i.letters }
    | '+' :: _ => invocation rest
    | _ => { rest := a :: rest }

/-- How a file's content would run that is neither an image nor names an interpreter. -/
def scriptText (content : ByteArray) : List Char := (Text.ofUtf8 content).toList

mutual

/-- What a part of a word expands to. -/
def expandPart : Nat → (quoted : Bool) → Part → Run (List Glyph)
  | 0, _, _ => throw .exhausted
  | fuel + 1, quoted, part => do
    match part with
    | .plain s => return Glyph.ofText quoted false s
    | .literal s => return if s.isEmpty then [.present] else Glyph.ofText true false s
    | .quoted parts =>
      let gs ← expandParts fuel true parts
      let vanishes := gs.isEmpty && parts.any fun
        | .parameter "@" => true
        | _ => false
      return if vanishes then [] else .present :: gs
    | .parameter name =>
      let p ← process
      if name = "@" ∨ (name = "*" ∧ ¬ quoted) then
        let texts := p.args.map fun a => Glyph.present :: Glyph.ofText quoted (!quoted) a
        let texts := if quoted then texts else texts.map (·.drop 1)
        return ([Glyph.boundary].intercalate texts)
      else if name = "*" then
        let separator := match p.vars.get? "IFS" with
          | some s => String.ofList (s.toList.take 1)
          | none => " "
        return Glyph.ofText true false (separator.intercalate p.args)
      else return Glyph.ofText quoted (!quoted) (← valueOf name)
    | .length name =>
      let p ← process
      let n ← if name = "@" ∨ name = "*" then pure p.args.length
        else do pure (← valueOf name).utf8ByteSize
      return Glyph.ofText quoted (!quoted) (toString n)
    | .fallback name kind colon word =>
      let p ← process
      let value := (p.value? name).filter fun s => !(colon && s.isEmpty)
      match kind, value with
      | .alternative, some _ => expandOperand fuel quoted word
      | .alternative, none => return []
      | _, some s =>
        if name = "@" then expandPart fuel quoted (.parameter name)
        else return Glyph.ofText quoted (!quoted) s
      | .replace, none => expandOperand fuel quoted word
      | .assign, none =>
        let text := Glyph.text (← expandParts fuel quoted word)
        setVariable name text
        return Glyph.ofText quoted (!quoted) text
      | .complain, none =>
        let text := Glyph.text (← expandParts fuel quoted word)
        let text := if text.isEmpty then "parameter not set" ++ (if colon then " or null" else "")
          else text
        shellComplain s!"{name}: {text}"
        throw (.exit 2)
    | .cut name atEnd longest pattern =>
      let text := (← valueOf name).toList
      let marked := Glyph.marked (← expandParts fuel false pattern)
      let text := if atEnd then Pattern.cutEnd longest marked text
        else Pattern.cutStart longest marked text
      return Glyph.ofText quoted (!quoted) (String.ofList text)
    | .output script =>
      let bytes ← capture fuel script
      let text := ((Text.ofUtf8 bytes).toList.reverse.dropWhile (· = '\n')).reverse
      return Glyph.ofText quoted (!quoted) (String.ofList text)
    | .arithmetic parts =>
      let text := Glyph.text (← expandParts fuel true parts)
      match Arithmetic.eval text (← process).vars with
      | .ok (n, vars) =>
        modifyProcess fun p => { p with vars }
        return Glyph.ofText quoted (!quoted) (toString n)
      | .error mistake =>
        shellComplain s!"arithmetic expression: {mistake.message}: \"{text}\""
        throw (.exit 2)

def expandParts : Nat → (quoted : Bool) → List Part → Run (List Glyph)
  | 0, _, _ => throw .exhausted
  | _ + 1, _, [] => return []
  | fuel + 1, quoted, part :: rest => do
    let gs ← expandPart fuel quoted part
    return gs ++ (← expandParts fuel quoted rest)

/-- The word in place of a parameter: outside quotes its plain text splits like an expansion. -/
def expandOperand : Nat → (quoted : Bool) → List Part → Run (List Glyph)
  | 0, _, _ => throw .exhausted
  | fuel + 1, quoted, word => do
    let gs ← expandParts fuel quoted word
    return if quoted then gs else gs.map fun
      | .char c q _ => .char c q true
      | g => g

/-- The output of a script that runs in a process of its own. -/
def capture : Nat → Script → Run ByteArray
  | 0, _ => throw .exhausted
  | fuel + 1, script => do
    let n ← buffer ByteArray.empty
    let code ← apart (do
      connect 1 (some (.buffer n))
      ending (eval fuel false script))
    modifyProcess fun p => { p with outputStatus := code }
    content n

/-- The text of a word that is not split. -/
def wordText : Nat → List Part → Run String
  | 0, _ => throw .exhausted
  | fuel + 1, w => return Glyph.text (← expandParts fuel false w)

/-- The texts of the fields of words. -/
def wordFields : Nat → List (List Part) → Run (List String)
  | 0, _ => throw .exhausted
  | _ + 1, [] => return []
  | fuel + 1, w :: rest => do
    let gs ← expandParts fuel false w
    let fields := Glyph.fields (← process).separators {} gs
    let disk ← disk
    return fields.flatMap (fieldTexts disk) ++ (← wordFields fuel rest)

/-- Carries out redirections in order; the answer tells whether all of them could be. -/
def redirect : Nat → List Redirection → Run Bool
  | 0, _ => throw .exhausted
  | _ + 1, [] => return true
  | fuel + 1, r :: rest => do
    match r with
    | .document n parts =>
      let text := Glyph.text (← expandParts fuel true parts)
      connect n (some (.buffer (← buffer text.toUTF8)))
      redirect fuel rest
    | .connected n direction target =>
      let target ← wordText fuel target
      let opened ← match direction with
        | .read => openToRead target
        | .write | .append | .readWrite => openToWrite target direction
        | .duplicate =>
          if target = "-" then pure (.ok none)
          else match target.toNat? with
            | none => pure (.error "Bad fd number")
            | some m =>
              match ← stream m with
              | some s => pure (.ok (some s))
              | none => pure (.error s!"{m}: Bad file descriptor")
      match opened with
      | .ok stream =>
        connect n stream
        redirect fuel rest
      | .error message =>
        shellComplain message
        return false

/-- Runs a script and notes how it ended. -/
def eval : Nat → (tested : Bool) → Script → Run Nat
  | 0, _, _ => throw .exhausted
  | fuel + 1, tested, script => do
    let code ← evalNode fuel tested script
    modifyProcess fun p => { p with status := code }
    return code

/-- Runs a branch; one without commands succeeds. -/
def branch : Nat → (tested : Bool) → Script → Run Nat
  | 0, _, _ => throw .exhausted
  | fuel + 1, tested, script => do
    match script with
    | .nothing => return 0
    | _ => eval fuel tested script

def evalNode : Nat → (tested : Bool) → Script → Run Nat
  | 0, _, _ => throw .exhausted
  | fuel + 1, tested, script => do
    match script with
    | .nothing => return (← process).status
    | .simple line assignments words rs =>
      modifyProcess fun p => { p with line }
      let code ← simple fuel tested assignments words rs
      checked tested code
    | .redirected line body rs =>
      keepingStreams do
        modifyProcess fun p => { p with line }
        if ← redirect fuel rs then eval fuel tested body else checked tested 2
    | .subshell body =>
      let code ← apart (ending (eval fuel tested body))
      checked tested code
    | .background body =>
      let _ ← apart (ending (eval fuel tested body))
      return 0
    | .conditional condition consequence alternative =>
      if (← eval fuel true condition) = 0 then branch fuel tested consequence
      else branch fuel tested alternative
    | .loop whileTrue condition body => repeatBody fuel tested whileTrue condition body 0
    | .each name words body =>
      let texts ← match words with
        | some words => wordFields fuel words
        | none => pure (← process).args
      eachWord fuel tested name body texts 0
    | .cases subject clauses =>
      let text ← wordText fuel subject
      firstClause fuel tested text.toList clauses
    | .define name body =>
      modifyProcess fun p => { p with functions := p.functions.insert name body }
      return 0
    | .sequence first second =>
      let _ ← eval fuel tested first
      eval fuel tested second
    | .both first second =>
      let code ← eval fuel true first
      if code = 0 then eval fuel tested second else return code
    | .either first second =>
      let code ← eval fuel true first
      if code = 0 then return 0 else eval fuel tested second
    | .not body =>
      return if (← eval fuel true body) = 0 then 1 else 0
    | .pipe first second =>
      let n ← buffer ByteArray.empty
      let _ ← apart (do
        connect 1 (some (.buffer n))
        ending (eval fuel tested first))
      let code ← apart (do
        connect 0 (some (.buffer n))
        ending (eval fuel tested second))
      checked tested code

def repeatBody : Nat → (tested whileTrue : Bool) → Script → Script → Nat → Run Nat
  | 0, _, _, _, _, _ => throw .exhausted
  | fuel + 1, tested, whileTrue, condition, body, code => do
    let (code, goesOn) ← inLoop do
      if ((← eval fuel true condition) == 0) != whileTrue then return (code, false)
      return (← eval fuel tested body, true)
    if goesOn then repeatBody fuel tested whileTrue condition body code else return code

def eachWord : Nat → (tested : Bool) → String → Script → List String → Nat → Run Nat
  | 0, _, _, _, _, _ => throw .exhausted
  | _ + 1, _, _, _, [], code => return code
  | fuel + 1, tested, name, body, text :: rest, _ => do
    setVariable name text
    let (code, goesOn) ← inLoop do return (← eval fuel tested body, true)
    if goesOn then eachWord fuel tested name body rest code else return code

/-- Runs the first clause one of whose patterns matches. -/
def firstClause : Nat → (tested : Bool) → List Char → List (List (List Part) × Script) → Run Nat
  | 0, _, _, _ => throw .exhausted
  | _ + 1, _, _, [] => return 0
  | fuel + 1, tested, text, (patterns, body) :: rest => do
    if ← anyPattern fuel text patterns then branch fuel tested body
    else firstClause fuel tested text rest

def anyPattern : Nat → List Char → List (List Part) → Run Bool
  | 0, _, _ => throw .exhausted
  | _ + 1, _, [] => return false
  | fuel + 1, text, p :: rest => do
    let marked := Glyph.marked (← expandParts fuel false p)
    if Pattern.matchesText marked text then return true
    anyPattern fuel text rest

/-- The texts that assignments assign. -/
def assigned : Nat → List (String × List Part) → Run (List (String × String))
  | 0, _ => throw .exhausted
  | _ + 1, [] => return []
  | fuel + 1, (name, w) :: rest => do
    let text ← wordText fuel w
    return (name, text) :: (← assigned fuel rest)

/-- Assigns one after the other, so that a later word sees what an earlier one has set. -/
def assignAll : Nat → List (String × List Part) → Run Unit
  | 0, _ => throw .exhausted
  | _ + 1, [] => return
  | fuel + 1, (name, w) :: rest => do
    setVariable name (← wordText fuel w)
    assignAll fuel rest

def simple : Nat → (tested : Bool) → List (String × List Part) → List (List Part) →
    List Redirection → Run Nat
  | 0, _, _, _, _ => throw .exhausted
  | fuel + 1, tested, assignments, words, rs => do
    modifyProcess fun p => { p with outputStatus := 0 }
    let fields ← wordFields fuel words
    match fields with
    | [] =>
      let opened ← keepingStreams (redirect fuel rs)
      if ¬ opened then return 2
      assignAll fuel assignments
      return (← process).outputStatus
    | name :: args =>
      if name = "exec" then
        if ¬ (← redirect fuel rs) then throw (.exit 2)
        assignAll fuel assignments
        match args with
        | [] => return 0
        | program :: _ =>
          let code ← runProgram fuel "exec: " program args
          throw (.exit code)
      keepingStreams do
        if ¬ (← redirect fuel rs) then
          if isSpecial name then throw (.exit 2)
          return 2
        if isSpecial name ∧ ¬ (← process).functions.contains name then
          assignAll fuel assignments
          invoke fuel tested name args
        else
          let settings ← assigned fuel assignments
          let before := (← process)
          let assignedNames := settings.map (·.1)
          restoring (fun _ after =>
            { after with
              vars := assignedNames.foldl (fun (t : Table String) n =>
                match before.vars.get? n with
                | some s => t.insert n s
                | none => t.erase n) after.vars
              exported := assignedNames.foldl (fun (t : NameSet) n =>
                if before.exported.contains n then t else t.erase n) after.exported }) do
            settings.forM fun (n, text) => do
              setVariable n text
              modifyProcess fun p => { p with exported := p.exported.add n }
            invoke fuel tested name args

/-- Runs a command by its name: a function, a part of the shell, or a program. -/
def invoke : Nat → (tested : Bool) → String → List String → Run Nat
  | 0, _, _, _ => throw .exhausted
  | fuel + 1, tested, name, args => do
    let p ← process
    match p.functions.get? name with
    | some body => call fuel tested body args
    | none =>
      match name with
      | "eval" => runText fuel tested { rest := (" ".intercalate args).toList, line := p.line }
      | "." =>
        match (← disk).read (args.headD "") with
        | .ok content => runText fuel tested { rest := scriptText content, line := 1 }
        | .error _ =>
          shellComplain (".: cannot open " ++ args.headD "" ++ ": No such file")
          throw (.exit 2)
      | "command" =>
        match args with
        | "-v" :: n :: _ =>
          match meaning? p (← disk) n with
          | some text =>
            say s!"{text}\n"
            return 0
          | none => return 127
        | n :: rest =>
          match builtin? n with
          | some builtin => builtin rest
          | none => runProgram fuel "" n (n :: rest)
        | [] => return 0
      | _ =>
        match builtin? name with
        | some builtin => builtin args
        | none => runProgram fuel "" name (name :: args)

/-- Calls a function. -/
def call : Nat → (tested : Bool) → Script → List String → Run Nat
  | 0, _, _, _ => throw .exhausted
  | fuel + 1, tested, body, args => do
    restoring (fun before after =>
      { after with
        args := before.args
        saved := before.saved
        loops := before.loops
        vars := after.saved.foldl (fun (t : Table String) (n, text) =>
          match text with
          | some text => t.insert n text
          | none => t.erase n) after.vars }) do
      modifyProcess fun p => { p with args, saved := [], loops := 0 }
      try eval fuel tested body
      catch
        | .answer code => return code
        | stop => throw stop

/-- Runs a program from a shell, which tells what went wrong and first names the command that asked
for the program. -/
def runProgram : Nat → (asker : String) → String → List String → Run Nat
  | 0, _, _, _ => throw .exhausted
  | fuel + 1, asker, name, argv => do
    let p ← process
    let found := Program.locate (← disk) p.vars name
    let result ← match found with
      | .error fault => pure (Except.error fault)
      | .ok path =>
        try launch fuel path argv p.environment
        catch
          | .killed =>
            complain "Killed\n"
            pure (.ok 137)
          | stop => throw stop
    match result with
    | .ok code => return code
    | .error .notFound =>
      shellComplain s!"{asker}{name}: not found"
      return 127
    | .error .notExecutable =>
      match (← disk).read ((found.toOption).getD name) with
      | .ok content =>
        apart (do
          modifyProcess fun p => { p with
            name, args := argv.drop 1, strict := false, cautious := false, loops := 0 }
          ending (runText fuel false { rest := scriptText content, line := 1 }))
      | .error _ => return 126
    | .error fault =>
      shellComplain s!"{asker}{name}: {fault.text}"
      return 126

/-- Runs the program file at a pathname in a process of its own. -/
def launch : Nat → String → List String → Table String → Run (Except FileFault Nat)
  | 0, _, _, _ => throw .exhausted
  | fuel + 1, path, argv, environment => do
    match Program.load (← disk) path with
    | .error fault => return .error fault
    | .ok .other => return .error .notExecutable
    | .ok (.script interpreter arg) =>
      launch fuel interpreter (interpreter :: arg.toList ++ path :: argv.drop 1) environment
    | .ok (.tool tool) =>
      let code ← apart (do
        modifyProcess fun p => {
          id := p.id + 1
          vars := environment
          exported := NameSet.ofList environment.keys
          name := argv.headD tool
          args := []
          streams := p.streams }
        ending (runTool fuel tool (argv.drop 1)))
      return .ok code

/-- Runs a tool in the present process. -/
def runTool : Nat → String → List String → Run Nat
  | 0, _, _ => throw .exhausted
  | fuel + 1, tool, args => do
    match tool with
    | "sh" => shell fuel args
    | "env" =>
      let p ← process
      let args := if args.head? = some "-i" then args.drop 1 else args
      let settings := args.takeWhile fun (a : String) => a.toList.contains '='
      settings.forM fun (a : String) => do
        let name := a.toList.takeWhile (· ≠ '=')
        setVariable (String.ofList name) (String.ofList (a.toList.drop (name.length + 1)))
      match args.drop settings.length with
      | [] => Tool.printenv []
      | name :: rest =>
        let vars := (← process).vars
        let result ← match Program.locate (← disk) vars name with
          | .ok path => launch fuel path (name :: rest) vars
          | .error fault => pure (.error fault)
        match result with
        | .ok code => return code
        | .error fault =>
          complain s!"{p.name}: '{name}': {fault.text}\n"
          return if fault = .notFound then 127 else 126
    | _ =>
      match Tool.all.lookup tool with
      | some run => run args
      | none => return 127

/-- The shell itself. -/
def shell : Nat → List String → Run Nat
  | 0, _ => throw .exhausted
  | fuel + 1, args => do
    let i := invocation args
    setVariable "PWD" (← disk).cwd
    setVariable "IFS" " \t\n"
    switch true i.letters
    let own := (← process).name
    let text ←
      if i.letters.contains 'c' then
        match i.rest with
        | [] =>
          complain s!"{own}: 0: -c requires an argument\n"
          throw (.exit 2)
        | text :: rest =>
          modifyProcess fun p => { p with name := rest.headD own, args := rest.drop 1 }
          pure text.toList
      else if i.letters.contains 's' then do
        modifyProcess fun p => { p with args := i.rest }
        pure (scriptText (← readAll))
      else match i.rest with
        | [] => pure (scriptText (← readAll))
        | path :: rest =>
          match (← disk).read path with
          | .ok content =>
            modifyProcess fun p => { p with name := path, args := rest }
            pure (scriptText content)
          | .error fault =>
            let reason := if fault = .notFound then "No such file" else fault.text
            complain s!"{own}: 0: cannot open {path}: {reason}\n"
            throw (.exit 2)
    let code ← ending (runText fuel false { rest := text, line := 1 })
    match (← process).onExit with
    | none => return code
    | some action =>
      modifyProcess fun p => { p with status := code, onExit := none }
      let _ ← runText fuel false { rest := action.toList, line := 1 }
      return code

/-- Runs the command lines of a text one after the other. -/
def runText : Nat → (tested : Bool) → Cursor → Run Nat
  | 0, _, _ => throw .exhausted
  | fuel + 1, tested, c => do
    match Script.next? c with
    | none =>
      modifyProcess fun p => { p with line := c.line }
      shellComplain "Syntax error"
      throw (.exit 2)
    | some (none, _) => return (← process).status
    | some (some script, c) =>
      let _ ← eval fuel tested script
      runText fuel tested c

end

end Toolflow.Shell
