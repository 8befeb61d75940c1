import Toolflow.Interface

/-! Reading the parameters of a module; `null` stands for a parameter that is not given. -/
namespace Toolflow.Parameters

def get? (params : Value) (key : String) : Option Value :=
  ((params.map?).bind (·.get? key)).bind Value.present?

/-- A parameter that has to be a string. -/
def string? (params : Value) (key : String) : Except Failure (Option String) :=
  match get? params key with
  | none => .ok none
  | some (.str s) => .ok (some s)
  | some other => refuse (.parameterNotString key other)

/-- A parameter that leads from names to names. -/
def names (params : Value) (key : String) : Except Failure (Table String) :=
  match get? params key with
  | none => .ok .empty
  | some (.map fields) => fields.entries.foldlM (fun (t : Table String) (name, v) =>
      match v.str? with
      | some s => .ok (t.insert name s)
      | none => refuse (.parameterEntryNotString key name)) .empty
  | some _ => refuse (.parameterNotTable key)

/-- A parameter that lists declared names. -/
def declared (params : Value) (key : String) : Except Failure (List Declared) :=
  match get? params key with
  | none => .ok []
  | some (.list items) => items.mapM fun item =>
      match item.str? with
      | some s => Declared.parse s
      | none => refuse (.parameterNotName key item)
  | some other => refuse (.parameterNotList key other)

/-- Whether a parameter is the boolean `true`. -/
def flag (params : Value) (key : String) : Bool := get? params key = some (.bool true)

end Toolflow.Parameters
