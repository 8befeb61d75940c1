/-! The arguments of the command line.

Options stand in front of the command they belong to or behind it. A short option can share its
word with others, and its value can follow in the same word or the next. The first thing that is
wrong, or asks for help, decides. -/
namespace Toolflow.CommandLine

structure BuildOptions where
  flow : Option String := none
  part : Option String := none
  target : Option String := none
  dependencies : List String := []
  values : List String := []
  pretend : Bool := false
  info : Bool := false
  stageInfo : Option String := none
  noCache : Bool := false
deriving Repr, DecidableEq

structure ShowOptions where
  flow : String
  part : Option String := none
  stage : Option String := none
deriving Repr, DecidableEq

inductive Task where
  | build (options : BuildOptions)
  | show (options : ShowOptions)
deriving Repr, DecidableEq

structure Request where
  verbose : Nat
  silent : Bool
  task : Task
deriving Repr, DecidableEq

/-- Why there is no request. -/
inductive Answer where
  | help
  | version
  | misuse
deriving Repr, DecidableEq

/-- What an option does with its value and with its repetition. -/
inductive OptionKind where
  | flag
  | counter
  | single
  /-- A value that must not be empty. -/
  | path
  | many
  | help
  | version
deriving Repr, DecidableEq

structure OptionRule where
  short : Char
  long : String
  kind : OptionKind
deriving Repr, DecidableEq

/-- An option that was given, by its long name, and its value. -/
abbrev Given := String × String

def OptionRule.takesValue (r : OptionRule) : Bool :=
  match r.kind with
  | .single | .path | .many => true
  | _ => false

/-- Whether an option may be given again. -/
def OptionRule.repeats (r : OptionRule) : Bool :=
  match r.kind with
  | .counter | .many => true
  | _ => false

/-- Adds an option to those given so far. -/
def give (given : List Given) (r : OptionRule) (value : String) : Except Answer (List Given) :=
  match r.kind with
  | .help => .error .help
  | .version => .error .version
  | _ =>
    if ¬ r.repeats ∧ given.any (·.1 = r.long) then .error .misuse
    else if r.kind = .path ∧ value.isEmpty then .error .misuse
    else .ok (given ++ [(r.long, value)])

/-- Whether a word is taken for an option, and so for no value. -/
def isOption (word : String) : Bool := word.length > 1 && word.toList.head? == some '-'

/-- Takes the value of an option from the next word. -/
def nextValue : List String → Except Answer (String × List String)
  | [] => .error .misuse
  | word :: rest => if isOption word then .error .misuse else .ok (word, rest)

/-- Reads the short options of one word, behind its dash. -/
def readShort (rules : List OptionRule) (given : List Given) (rest : List String) :
    List Char → Except Answer (List Given × List String)
  | [] => .ok (given, rest)
  | c :: cs =>
    match rules.find? (·.short = c) with
    | none => .error .misuse
    | some r =>
      if r.takesValue then
        match cs with
        | [] => do
          let (value, rest) ← nextValue rest
          return (← give given r value, rest)
        | '=' :: value => do return (← give given r (String.ofList value), rest)
        | _ => do return (← give given r (String.ofList cs), rest)
      else do
        readShort rules (← give given r "") rest cs

/-- Reads one long option, behind its dashes. -/
def readLong (rules : List OptionRule) (given : List Given) (rest : List String)
    (cs : List Char) : Except Answer (List Given × List String) :=
  let name := cs.takeWhile (· ≠ '=')
  match rules.find? (·.long.toList = name) with
  | none => .error .misuse
  | some r =>
    match r.takesValue, cs.drop name.length with
    | true, '=' :: value => do return (← give given r (String.ofList value), rest)
    | true, _ => do
      let (value, rest) ← nextValue rest
      return (← give given r value, rest)
    | false, [] => do return (← give given r "", rest)
    | false, _ => .error .misuse

/-- Reads options up to the first word that is none. A round takes a word, so fuel above their
number is enough. -/
def readOptions (rules : List OptionRule) : Nat → List Given → List String →
    Except Answer (List Given × List String)
  | 0, given, words => .ok (given, words)
  | _ + 1, given, [] => .ok (given, [])
  | fuel + 1, given, word :: rest =>
    match word.toList with
    | ['-', '-'] => if rest.isEmpty then .ok (given, []) else .error .misuse
    | '-' :: '-' :: cs => do
      let (given, rest) ← readLong rules given rest cs
      readOptions rules fuel given rest
    | '-' :: c :: cs => do
      let (given, rest) ← readShort rules given rest (c :: cs)
      readOptions rules fuel given rest
    | _ => .ok (given, word :: rest)

def helpRule : OptionRule := ⟨'h', "help", .help⟩

def rootRules : List OptionRule :=
  [⟨'v', "verbose", .counter⟩, ⟨'s', "silent", .flag⟩, helpRule, ⟨'V', "version", .version⟩]

def buildRules : List OptionRule :=
  [⟨'f', "flow", .path⟩, ⟨'p', "part", .single⟩, ⟨'t', "target", .single⟩, ⟨'D', "dep", .many⟩,
    ⟨'V', "val", .many⟩, ⟨'P', "pretend", .flag⟩, ⟨'i', "info", .flag⟩,
    ⟨'S', "stageinfo", .single⟩, ⟨'c', "nocache", .flag⟩, helpRule]

def showRules : List OptionRule :=
  [⟨'f', "flow", .path⟩, ⟨'p', "part", .single⟩, ⟨'s', "stage", .single⟩, helpRule]

/-- The value of an option that is given at most once. -/
def value? (given : List Given) (name : String) : Option String := given.lookup name

def valuesOf (given : List Given) (name : String) : List String :=
  (given.filter (·.1 = name)).map (·.2)

def isGiven (given : List Given) (name : String) : Bool := given.any (·.1 = name)

/-- Reads all words as options. -/
def onlyOptions (rules : List OptionRule) (words : List String) : Except Answer (List Given) := do
  let (given, rest) ← readOptions rules (words.length + 1) [] words
  if rest.isEmpty then return given else throw .misuse

def readBuild (words : List String) : Except Answer Task := do
  let given ← onlyOptions buildRules words
  return .build {
    flow := value? given "flow"
    part := value? given "part"
    target := value? given "target"
    dependencies := valuesOf given "dep"
    values := valuesOf given "val"
    pretend := isGiven given "pretend"
    info := isGiven given "info"
    stageInfo := value? given "stageinfo"
    noCache := isGiven given "nocache" }

def readShow (words : List String) : Except Answer Task := do
  let given ← onlyOptions showRules words
  match value? given "flow" with
  | some flow => return .show { flow, part := value? given "part", stage := value? given "stage" }
  | none => throw .misuse

/-- What asking for help about commands leads to. -/
def readHelp : List String → Answer
  | [] | ["build"] | ["showd"] | ["help"] => .help
  | _ => .misuse

def readTask : List String → Except Answer Task
  | "build" :: rest => readBuild rest
  | "showd" :: rest => readShow rest
  | "help" :: rest => .error (readHelp rest)
  | _ => .error .misuse

/-- The most that counting an option can give. -/
def maxCount : Nat := 255

/-- Reads the words of a command line. -/
def Request.ofWords (words : List String) : Except Answer Request := do
  let (given, rest) ← readOptions rootRules (words.length + 1) [] words
  let task ← readTask rest
  let silent := isGiven given "silent"
  if silent ∧ isGiven given "verbose" then throw .misuse
  return { verbose := min (valuesOf given "verbose").length maxCount, silent, task }

end Toolflow.CommandLine
