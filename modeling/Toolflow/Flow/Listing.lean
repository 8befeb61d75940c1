import Toolflow.Flow.Plan

/-! Listings of a flow, a stage, a plan and a project's bindings, one line an entry. -/
namespace Toolflow

/-- The lines, each with its end. -/
def linesText (ls : List String) : String := String.join (ls.map (· ++ "\n"))

/-- Fills a text up with blanks to a number of characters. -/
def padRight (width : Nat) (s : String) : String :=
  s ++ String.ofList (List.replicate (width - s.length) ' ')

/-- How firmly a product can be counted on. -/
def Strictness.guarantee : Strictness → String
  | .required => "guaranteed"
  | .optional => "not guaranteed"
  | .onDemand => "on-demand"

def Strictness.inputLabel : Strictness → String
  | .required => "required"
  | .optional | .onDemand => "optional"

namespace Flow

/-- Every product with its stage, in the order of the stages. -/
def products (f : Flow) : List (Stage × Declared) :=
  f.stages.values.flatMap fun stage => stage.io.produces.map (stage, ·)

/-- The products of a flow; the column of names is as wide as the longest has bytes. -/
def productListing (f : Flow) : String :=
  let width := (f.products.map fun (_, product) => product.name.utf8ByteSize).foldl max 0
  linesText ("Platform dependencies/targets:" :: f.products.map fun (stage, product) =>
    s!"    {padRight width product.name}  stage: `{stage.name}`, " ++
      s!"{product.strictness.guarantee}: {stage.io.describe product.name}")

end Flow

namespace Stage

/-- The names of one strictness, if there are any. -/
def groupLine (label : Strictness → String) (names : List Declared) (s : Strictness) :
    Option String :=
  match names.filter (·.strictness = s) with
  | [] => none
  | matching => some (s!"    {label s}: " ++ ", ".intercalate (matching.map (·.name)))

def group (title : String) (names : List Declared) (label : Strictness → String) : List String :=
  s!"  {title}:" ::
    if names.isEmpty then ["    (none)"]
    else [.required, .optional, .onDemand].filterMap (groupLine label names)

/-- One line for each value. -/
def valueLines (values : ValueTable) : List String :=
  values.entries.map fun (name, v) => s!"    {name} = {v.text}"

/-- What a stage takes, reads and produces, and the values set for it alone. -/
def listing (s : Stage) : String :=
  linesText (s!"Stage `{s.name}` (module `{s.reference}`):" ::
    group "Inputs" s.io.takes Strictness.inputLabel ++
    group "Values" s.io.values Strictness.inputLabel ++
    group "Outputs" s.io.produces Strictness.guarantee ++
    if s.overrides.isEmpty then [] else "  Overrides:" :: valueLines s.overrides)

end Stage

/-- The status and the path of every dependency of a plan. -/
def Plan.statusListing (p : Plan) (cache : Option Fingerprints) (disk : Disk) : String :=
  linesText ("Project status:" :: p.listed.map fun dep =>
    let path := ((p.paths.get? dep).map (·.text)).getD "<missing>"
    s!"    {(p.status dep cache disk).marker} {dep}: {path}")

/-- The bindings a project sets for a part, and the values of one stage's block if asked for. -/
def Project.bindingListing (p : Project) (part : String) (stage : Option String) : String :=
  let own := p.part part
  let bindings := (p.dependencies.extend own.dependencies).entries.map fun (name, v) =>
    if own.dependencies.contains name then s!"{name} = {v.text}  [part `{part}`]"
    else s!"{name} = {v.text}"
  let block := match stage with
    | none => []
    | some stage =>
      let values := (own.stageBlock stage).values
      s!"Value overrides of stage `{stage}`:" ::
        if values.isEmpty then ["    (none)"] else Stage.valueLines values
  linesText (bindings ++ block)

end Toolflow
