import Toolflow.Failure

/-! Overrides given on the command line: `[stage.]name=value`.

A value is `[a,b]`, `{key:value,…}`, one of the words `\True`, `\False` and `\N` with an integer,
or a plain text in which `\` takes the next character as it is. Separators count only outside
brackets and braces and where no `\` stands before them. -/
namespace Toolflow

/-- Dependency bindings and values that belong together. -/
structure Block where
  dependencies : ValueTable
  values : ValueTable
deriving DecidableEq

def Block.empty : Block := ⟨.empty, .empty⟩

instance : Inhabited Block := ⟨Block.empty⟩

/-- Everything the command line overrides. -/
structure Overrides where
  dependencies : ValueTable
  values : ValueTable
  stages : Table Block
deriving DecidableEq

structure Assignment where
  stage : Option String
  name : String
  value : Value
deriving DecidableEq

namespace Override

/-- The first part and the other parts of a text cut at the separators outside all brackets;
`depth` counts the brackets open on the left. -/
def splitFrom (separator : Char) : Nat → List Char → List Char × List (List Char)
  | _, [] => ([], [])
  | depth, '\\' :: c :: rest =>
    let (part, parts) := splitFrom separator depth rest
    ('\\' :: c :: part, parts)
  | depth, c :: rest =>
    if c = '[' ∨ c = '{' then
      let (part, parts) := splitFrom separator (depth + 1) rest
      (c :: part, parts)
    else if c = ']' ∨ c = '}' then
      let (part, parts) := splitFrom separator (depth - 1) rest
      (c :: part, parts)
    else if c = separator ∧ depth = 0 then
      let (part, parts) := splitFrom separator 0 rest
      ([], part :: parts)
    else
      let (part, parts) := splitFrom separator depth rest
      (c :: part, parts)

/-- The parts of a text between its separators; there is always one. -/
def split (separator : Char) (cs : List Char) : List (List Char) :=
  let (part, parts) := splitFrom separator 0 cs
  part :: parts

/-- Takes away the `\` in front of each escaped character. -/
def unescape : List Char → List Char
  | [] => []
  | ['\\'] => []
  | '\\' :: c :: rest => c :: unescape rest
  | c :: rest => c :: unescape rest

/-- The text between an opening bracket, already taken off, and the closer at the end. -/
def inside (closer : Char) (whole rest : List Char) : Except Failure (List Char) :=
  if rest.getLast? = some closer then .ok rest.dropLast
  else refuse (.missingCloser closer (String.ofList whole))

/-- A text that is neither a list nor a table. -/
def readScalar (cs : List Char) : Except Failure Value :=
  match cs with
  | ['\\', 'T', 'r', 'u', 'e'] => .ok (.bool true)
  | ['\\', 'F', 'a', 'l', 's', 'e'] => .ok (.bool false)
  | '\\' :: 'N' :: digits =>
    match Integer.readInt64 digits with
    | .ok n => .ok (.int n)
    | .error f => during (.readingNumber (String.ofList cs)) (refuse (.integer f))
  | cs => .ok (.str (String.ofList (unescape cs)))

/-- Adds the entry `key:value` of a table, its value read by `read`. -/
def readEntry (read : List Char → Except Failure Value) (fields : ValueTable)
    (entry : List Char) : Except Failure ValueTable :=
  match split ':' entry with
  | [key, value] => do return fields.insert (String.ofList (unescape key)) (← read value)
  | [_] => refuse (.missingEntryValue (String.ofList entry))
  | _ => refuse (.extraColon (String.ofList entry))

/-- Reads a value. What stands inside brackets is shorter than the whole, so fuel equal to the
length is enough. -/
def readWithin : Nat → List Char → Except Failure Value
  | 0, cs => readScalar cs
  | fuel + 1, cs =>
    match cs with
    | '[' :: rest => do
      let inner ← inside ']' cs rest
      if inner.isEmpty then return .list []
      return .list (← (split ',' inner).mapM (readWithin fuel))
    | '{' :: rest => do
      let inner ← inside '}' cs rest
      if inner.isEmpty then return .map .empty
      return .map (← (split ',' inner).foldlM (readEntry (readWithin fuel)) .empty)
    | cs => readScalar cs

def readChars (cs : List Char) : Except Failure Value := readWithin cs.length cs

/-- Reads the right-hand side of an override. -/
def readValue (text : String) : Except Failure Value := readChars text.toList

/-- The components of a dotted name; there is always one. -/
def components : List Char → List (List Char)
  | [] => [[]]
  | c :: rest =>
    if c = '.' then [] :: components rest
    else match components rest with
      | [] => [[c]]
      | part :: parts => (c :: part) :: parts

/-- Reads `[stage.]name=value`. -/
def readAssignment (text : String) : Except Failure Assignment :=
  match split '=' text.toList with
  | [path, value] => do
    let parts := components path
    let name := parts.getLastD []
    if name.isEmpty then refuse .missingName
    let stage ← match parts.dropLast with
      | [] => .ok none
      | [stage] =>
        if stage.isEmpty then refuse (.tooManyDots (String.ofList path))
        else .ok (some (String.ofList stage))
      | _ => refuse (.tooManyDots (String.ofList path))
    return ⟨stage, String.ofList name, ← readChars value⟩
  | _ => refuse (.notOneEquals text)

end Override

namespace Overrides

def empty : Overrides := ⟨.empty, .empty, .empty⟩

instance : Inhabited Overrides := ⟨empty⟩

def stageBlock (o : Overrides) (stage : String) : Block := (o.stages.get? stage).getD .empty

/-- Adds a dependency binding; a later one of the same name and scope wins. -/
def addDependency (o : Overrides) (a : Assignment) : Overrides :=
  match a.stage with
  | some stage =>
    let block := o.stageBlock stage
    let block := { block with dependencies := block.dependencies.insert a.name a.value }
    { o with stages := o.stages.insert stage block }
  | none => { o with dependencies := o.dependencies.insert a.name a.value }

/-- Adds a value; a later one of the same name and scope wins. -/
def addValue (o : Overrides) (a : Assignment) : Overrides :=
  match a.stage with
  | some stage =>
    let block := o.stageBlock stage
    let block := { block with values := block.values.insert a.name a.value }
    { o with stages := o.stages.insert stage block }
  | none => { o with values := o.values.insert a.name a.value }

/-- Collects the texts of all dependency bindings, then those of all values. -/
def ofTexts (dependencies values : List String) : Except Failure Overrides := do
  let o ← dependencies.foldlM (fun o text =>
    return o.addDependency (← during (.parsingDependency text) (Override.readAssignment text))) empty
  values.foldlM (fun o text =>
    return o.addValue (← during (.parsingSetting text) (Override.readAssignment text))) o

end Overrides
end Toolflow
