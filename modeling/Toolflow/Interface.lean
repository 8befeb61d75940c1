import Toolflow.Failure

/-! What a module declares: the dependencies it takes and produces and the values it reads.

A declared name is written with a mark for how strictly it is meant: none, `?` for one that may be
absent, `!` for a product made only on demand. -/
namespace Toolflow

inductive Strictness where
  | required
  | optional
  | onDemand
deriving Repr, DecidableEq

def Strictness.mark : Strictness → String
  | .required => ""
  | .optional => "?"
  | .onDemand => "!"

structure Declared where
  name : String
  strictness : Strictness
deriving Repr, DecidableEq

namespace Declared

def required (name : String) : Declared := ⟨name, .required⟩

def optional (name : String) : Declared := ⟨name, .optional⟩

def onDemand (name : String) : Declared := ⟨name, .onDemand⟩

def isRequired (d : Declared) : Bool := d.strictness = .required

/-- The name with its mark. -/
def text (d : Declared) : String := d.name ++ d.strictness.mark

/-- Takes the mark off the end of a text. -/
def ofText (s : String) : Declared :=
  let cs := s.toList
  match cs.getLast? with
  | some '?' => ⟨String.ofList cs.dropLast, .optional⟩
  | some '!' => ⟨String.ofList cs.dropLast, .onDemand⟩
  | _ => ⟨s, .required⟩

/-- Reads a declared name, which must not be empty. -/
def parse (s : String) : Except Failure Declared :=
  let d := ofText s
  if d.name.isEmpty then refuse (.emptyName s) else .ok d

end Declared

structure Interface where
  name : String
  /-- How many phases a run announces. -/
  phases : Nat := 0
  takes : List Declared := []
  produces : List Declared := []
  values : List Declared := []
  /-- Descriptions of products. -/
  descriptions : Table String := .empty

namespace Interface

/-- The declared product of a name. -/
def product? (io : Interface) (name : String) : Option Declared :=
  io.produces.find? (·.name = name)

/-- The description of a product, with a placeholder for one that has none. -/
def describe (io : Interface) (name : String) : String :=
  (io.descriptions.get? name).getD "<no description>"

def describing (io : Interface) (entries : List (String × String)) : Interface :=
  { io with descriptions := entries.foldl (fun t e => t.insert e.1 e.2) io.descriptions }

end Interface
end Toolflow
