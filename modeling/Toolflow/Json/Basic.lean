import Toolflow.Integer
import Toolflow.Value

/-! JSON documents, with the fields of objects in the order of the text. -/
namespace Toolflow

inductive Json where
  | null
  | bool (b : Bool)
  /-- An integer between -2^63 and 2^64 - 1. -/
  | int (n : Int)
  /-- Any other number; it is finite. -/
  | float (x : Double)
  | str (s : String)
  | arr (items : List Json)
  | obj (fields : List (String × Json))

namespace Json

instance : Inhabited Json := ⟨.null⟩

mutual
/-- The value a document stands for; of fields with one name the last counts, and an integer
beyond 64 signed bits is a float. -/
def value : Json → Value
  | .null => .null
  | .bool b => .bool b
  | .int n => if Integer.fitsInt64 n then .int n else .float (Double.ofNat n.toNat)
  | .float x => .float x
  | .str s => .str s
  | .arr items => .list (itemValues items)
  | .obj fields => .map (Table.ofList (fieldValues fields))

def itemValues : List Json → List Value
  | [] => []
  | j :: rest => value j :: itemValues rest

def fieldValues : List (String × Json) → List (String × Value)
  | [] => []
  | (k, j) :: rest => (k, value j) :: fieldValues rest
end

end Json
end Toolflow
