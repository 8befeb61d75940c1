import Toolflow.Double
import Toolflow.Table

/-! Configuration values: scalars, lists and tables of values.

Every deep change of a value goes through `mapStrings`, which may put any value in the place of a
string; `strings` lists what it visits, in the order of the visit. -/
namespace Toolflow

inductive Value where
  | null
  | bool (b : Bool)
  | int (n : Int)
  | float (x : Double)
  | str (s : String)
  | list (items : List Value)
  | map (fields : Table Value)

abbrev ValueTable := Table Value

namespace Value

instance : Inhabited Value := ⟨.null⟩

mutual
def decEq : (v w : Value) → Decidable (v = w)
  | .null, .null => isTrue rfl
  | .bool a, .bool b => decidable_of_iff (a = b) (by simp)
  | .int a, .int b => decidable_of_iff (a = b) (by simp)
  | .float a, .float b => decidable_of_iff (a = b) (by simp)
  | .str a, .str b => decidable_of_iff (a = b) (by simp)
  | .list a, .list b =>
    have := decEqItems a b
    decidable_of_iff (a = b) (by simp)
  | .map ⟨a⟩, .map ⟨b⟩ =>
    have := decEqEntries a b
    decidable_of_iff (a = b) (by simp)
  | .null, .bool _ | .null, .int _ | .null, .float _ | .null, .str _ | .null, .list _
  | .null, .map _ => isFalse (by simp)
  | .bool _, .null | .bool _, .int _ | .bool _, .float _ | .bool _, .str _ | .bool _, .list _
  | .bool _, .map _ => isFalse (by simp)
  | .int _, .null | .int _, .bool _ | .int _, .float _ | .int _, .str _ | .int _, .list _
  | .int _, .map _ => isFalse (by simp)
  | .float _, .null | .float _, .bool _ | .float _, .int _ | .float _, .str _ | .float _, .list _
  | .float _, .map _ => isFalse (by simp)
  | .str _, .null | .str _, .bool _ | .str _, .int _ | .str _, .float _ | .str _, .list _
  | .str _, .map _ => isFalse (by simp)
  | .list _, .null | .list _, .bool _ | .list _, .int _ | .list _, .float _ | .list _, .str _
  | .list _, .map _ => isFalse (by simp)
  | .map _, .null | .map _, .bool _ | .map _, .int _ | .map _, .float _ | .map _, .str _
  | .map _, .list _ => isFalse (by simp)

def decEqItems : (v w : List Value) → Decidable (v = w)
  | [], [] => isTrue rfl
  | [], _ :: _ => isFalse (by simp)
  | _ :: _, [] => isFalse (by simp)
  | a :: v, b :: w =>
    have := decEq a b
    have := decEqItems v w
    decidable_of_iff (a = b ∧ v = w) (by simp)

def decEqEntries : (v w : List (String × Value)) → Decidable (v = w)
  | [], [] => isTrue rfl
  | [], _ :: _ => isFalse (by simp)
  | _ :: _, [] => isFalse (by simp)
  | (k, a) :: v, (l, b) :: w =>
    have := decEq a b
    have := decEqEntries v w
    decidable_of_iff (k = l ∧ a = b ∧ v = w) (by simp [and_assoc])
end

instance : DecidableEq Value := decEq

def isNull : Value → Bool
  | .null => true
  | _ => false

def str? : Value → Option String
  | .str s => some s
  | _ => none

def map? : Value → Option ValueTable
  | .map t => some t
  | _ => none

/-- The text of a scalar as it is spliced into strings and command lines. -/
def scalarText? : Value → Option String
  | .str s => some s
  | .bool b => some (if b then "True" else "False")
  | .int n => some (toString n)
  | .float x => some x.text
  | .null | .list _ | .map _ => none

mutual
/-- Puts `f s` in the place of every string `s`. -/
def mapStrings (f : String → Value) : Value → Value
  | .str s => f s
  | .list items => .list (mapItems f items)
  | .map ⟨entries⟩ => .map ⟨mapEntries f entries⟩
  | v => v

def mapItems (f : String → Value) : List Value → List Value
  | [] => []
  | v :: rest => mapStrings f v :: mapItems f rest

def mapEntries (f : String → Value) : List (String × Value) → List (String × Value)
  | [] => []
  | (k, v) :: rest => (k, mapStrings f v) :: mapEntries f rest
end

mutual
/-- The strings of a value, depth first. -/
def strings : Value → List String
  | .str s => [s]
  | .list items => itemStrings items
  | .map ⟨entries⟩ => entryStrings entries
  | _ => []

def itemStrings : List Value → List String
  | [] => []
  | v :: rest => strings v ++ itemStrings rest

def entryStrings : List (String × Value) → List String
  | [] => []
  | (_, v) :: rest => strings v ++ entryStrings rest
end

mutual
/-- The words of a command line: lists and tables expand, scalars give their text. -/
def words : Value → List String
  | .null => []
  | .list items => itemWords items
  | .map ⟨entries⟩ => entryWords entries
  | v => v.scalarText?.toList

def itemWords : List Value → List String
  | [] => []
  | v :: rest => words v ++ itemWords rest

def entryWords : List (String × Value) → List String
  | [] => []
  | (_, v) :: rest => words v ++ entryWords rest
end

mutual
/-- The text of a value as messages and listings show it. -/
def text : Value → String
  | .null => "null"
  | .list items => "[" ++ ", ".intercalate (itemTexts items) ++ "]"
  | .map ⟨entries⟩ => "\x7b" ++ ", ".intercalate (entryTexts entries) ++ "\x7d"
  | v => v.scalarText?.getD ""

def itemTexts : List Value → List String
  | [] => []
  | v :: rest => text v :: itemTexts rest

def entryTexts : List (String × Value) → List String
  | [] => []
  | (k, v) :: rest => (k ++ ": " ++ text v) :: entryTexts rest
end

mutual
/-- How deep lists and tables are nested. -/
def depth : Value → Nat
  | .list items => itemsDepth items + 1
  | .map ⟨entries⟩ => entriesDepth entries + 1
  | _ => 0

def itemsDepth : List Value → Nat
  | [] => 0
  | v :: rest => max (depth v) (itemsDepth rest)

def entriesDepth : List (String × Value) → Nat
  | [] => 0
  | (_, v) :: rest => max (depth v) (entriesDepth rest)
end

/-- The value unless it is `null`. -/
def present? (v : Value) : Option Value := if v.isNull then none else some v

def ofStrings (texts : List String) : Value := .list (texts.map .str)

end Value
end Toolflow
