import Toolflow.Failure
import Toolflow.Reference

/-! Environments: bindings of variable names, and the substitution of references.

A text is resolved by filling all its tokens at once, each from the binding of its name; what a
binding brings in is not looked at again. A list binding fans the text out into one text per
item; among several list bindings the leftmost varies fastest. Configuration layers are stacked
unresolved and settled once, in an order in which every binding comes after those it refers to. -/
namespace Toolflow

structure Environment where
  values : ValueTable
deriving DecidableEq

/-- What stands in the place of a token. -/
inductive Filling where
  /-- The token stays as it is. -/
  | keep
  | one (text : List Char)
  /-- One text for each of these. -/
  | each (texts : List (List Char))
deriving Repr, DecidableEq

namespace Filling

def fansOut : Filling → Bool
  | .each _ => true
  | _ => false

/-- The texts a token with this filling can become. -/
def choices (body : List Char) : Filling → List (List Char)
  | .keep => [(Piece.token body).chars]
  | .one text => [text]
  | .each texts => texts

end Filling

namespace Environment

def empty : Environment := ⟨.empty⟩

instance : Inhabited Environment := ⟨empty⟩

def get? (env : Environment) (name : String) : Option Value := env.values.get? name

/-- The string bound to a name; other values count as none. -/
def str? (env : Environment) (name : String) : Option String := (env.get? name).bind Value.str?

/-- Binds a value as it stands. -/
def bindRaw (env : Environment) (name : String) (v : Value) : Environment :=
  ⟨env.values.insert name v⟩

/-- The filling of a token. A name that is unbound, or bound to `null`, is filled with nothing in
the `final` pass and waits otherwise; a table has no text, so its token always waits. -/
def filling (env : Environment) (final : Bool) (body : List Char) : Filling :=
  match env.get? (Reference.nameOf body) with
  | none | some .null => if final then .one [] else .keep
  | some (.list items) => .each (items.filterMap fun v => v.scalarText?.map String.toList)
  | some v => match v.scalarText? with
    | some text => .one text.toList
    | none => .keep

/-- Every text that the pieces can become, the leftmost choice varying fastest. -/
def expand (fill : List Char → Filling) : List Piece → List (List Char)
  | [] => [[]]
  | .char c :: rest => (expand fill rest).map (c :: ·)
  | .token body :: rest =>
    (expand fill rest).flatMap fun tail => ((fill body).choices body).map (· ++ tail)

/-- Whether some token of the pieces stands for several texts. -/
def fansOut (fill : List Char → Filling) (ps : List Piece) : Bool :=
  ps.any fun
    | .token body => (fill body).fansOut
    | .char _ => false

/-- Fills all tokens of the pieces: a list of texts if one of them fans out, else a text. -/
def substitute (fill : List Char → Filling) (ps : List Piece) : Value :=
  let texts := expand fill ps
  if fansOut fill ps then Value.ofStrings (texts.map String.ofList)
  else .str (String.ofList (texts.headD []))

def resolveText (env : Environment) (final : Bool) (text : String) : Value :=
  substitute (env.filling final) (Reference.pieces text.toList)

/-- Substitutes what is known and leaves the rest for later. -/
def resolve (env : Environment) (v : Value) : Value := v.mapStrings (env.resolveText false)

/-- Substitutes what is known and drops the other references. -/
def resolveFinal (env : Environment) (v : Value) : Value := v.mapStrings (env.resolveText true)

/-- Binds a value after resolving it against the bindings so far. -/
def bind (env : Environment) (name : String) (v : Value) : Environment :=
  env.bindRaw name (env.resolve v)

def addValues (env : Environment) (values : ValueTable) : Environment :=
  values.entries.foldl (fun env e => env.bind e.1 e.2) env

/-- Binds the values in name order, each resolved against those before it. -/
def ofValues (values : ValueTable) : Environment := empty.addValues values

/-- Binds the values as they stand. -/
def ofRaw (values : ValueTable) : Environment :=
  values.entries.foldl (fun env e => env.bindRaw e.1 e.2) empty

/-- Adds one entry of a layer. An entry that mentions its own name extends what it replaces. -/
def stackEntry (env : Environment) (name : String) (v : Value) : Environment :=
  match env.get? name with
  | some below =>
    if name ∈ Reference.namesIn v then
      env.bindRaw name ((empty.bindRaw name below).resolve v)
    else env.bindRaw name v
  | none => env.bindRaw name v

/-- Adds the entries of a layer, unresolved. -/
def stack (env : Environment) (layer : ValueTable) : Environment :=
  layer.entries.foldl (fun env e => env.stackEntry e.1 e.2) env

/-- The bound names that a value refers to. -/
def boundNames (env : Environment) (v : Value) : NameSet :=
  NameSet.ofList ((Reference.namesIn v).filter env.values.contains)

/-- For each binding that refers to bound names, those names. -/
def dependencies (env : Environment) : Table NameSet :=
  env.values.filterMap fun _ v =>
    let names := env.boundNames v
    if names.isEmpty then none else some names

/-- Where a walk through the bindings stands: the names behind it, in the order of leaving. -/
structure Visit where
  done : NameSet
  order : List String

/-- Walks to a name after all names it refers to. `path` leads to it from the start of the walk;
as its names are distinct, `fuel` above the number of bindings is never used up. -/
def visit (graph : Table NameSet) : Nat → List String → Visit → String → Except Failure Visit
  | 0, _, at_, _ => .ok at_
  | fuel + 1, path, at_, name =>
    if at_.done.contains name then .ok at_
    else if name ∈ path then
      refuse (.circularReference (path.dropWhile (· ≠ name) ++ [name]))
    else do
      let next := ((graph.get? name).getD ∅).keys
      let after ← next.foldlM (visit graph fuel (path ++ [name])) at_
      return ⟨after.done.add name, after.order ++ [name]⟩

/-- An order in which each name of the graph comes after those it refers to. -/
def settlingOrder (graph : Table NameSet) (bindings : Nat) : Except Failure (List String) := do
  let visited ← graph.keys.foldlM (visit graph (bindings + 2) []) ⟨∅, []⟩
  return visited.order

/-- Resolves one binding against the present ones. -/
def settleName (env : Environment) (name : String) : Environment :=
  match env.get? name with
  | some v => env.bindRaw name (env.resolve v)
  | none => env

/-- Resolves in place every binding that refers to bound names, dependencies first. -/
def settleInPlace : EStateM Failure Environment Unit := do
  let env ← get
  let order ← MonadExcept.ofExcept (settlingOrder env.dependencies env.values.size)
  order.forM fun name => modify (·.settleName name)

/-- The environment with its bindings settled. -/
def settle (env : Environment) : Except Failure Environment :=
  match settleInPlace.run env with
  | .ok _ after => .ok after
  | .error cause _ => .error cause

/-- Stacks layers, later ones on top, without settling. -/
def stackAll (env : Environment) (ls : List ValueTable) : Environment := ls.foldl stack env

/-- Stacks layers and settles the result. -/
def layers (env : Environment) (ls : List ValueTable) : Except Failure Environment :=
  (env.stackAll ls).settle

/-- The references still present in a value. -/
def unresolved (v : Value) : List String := Reference.namesIn v

end Environment
end Toolflow
