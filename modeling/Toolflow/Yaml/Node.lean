import Toolflow.Integer
import Toolflow.Value
import Toolflow.Yaml.Token

/-! YAML documents as trees, and the values their nodes stand for.

`parse?` reads a text of at most one document. A plain scalar stands for what the core schema
makes of it, with numbers also in base 2; an alias stands for a copy of the anchored node. -/
namespace Toolflow.Yaml

inductive Node where
  | scalar (text : String) (isPlain : Bool) (tag : Option String)
  | sequence (items : List Node) (tag : Option String)
  | mapping (entries : List (Node × Node)) (tag : Option String)
  /-- An alias inside the node that it means; it has no value. -/
  | cyclic

instance : Inhabited Node := ⟨.scalar "" true none⟩

/-- What is read of a document: the tokens that are left, the nodes that have anchors, the one that
began last first, and the meaning of tag handles. -/
structure Reader where
  tokens : List Token
  anchors : List (String × Node) := []
  handles : List (String × String) := []

abbrev Read := StateT Reader Option

namespace Read

def fail {α : Type} : Read α := fun _ => none

def peek : Read (Option Token) := return (← get).tokens.head?

def drop : Read Unit := modify fun r => { r with tokens := r.tokens.drop 1 }

/-- Passes a token that has to be here. -/
def expect (t : Token) : Read Unit := do
  if (← peek) = some t then drop else fail

/-- Passes a token if it is here. -/
def accept (t : Token) : Read Bool := do
  if (← peek) = some t then
    drop
    return true
  else return false

/-- Whether the next token is one of these. -/
def isAt (ts : List Token) : Read Bool := return (← peek).any ts.contains

/-- The full tag of a handle and a suffix. -/
def tagOf (handle suffix : String) : Read String := do
  if handle.isEmpty then return suffix
  match (← get).handles.lookup handle with
  | some start => return start ++ suffix
  | none =>
    if handle = "!" then return "!" ++ suffix
    else if handle = "!!" then return "tag:yaml.org,2002:" ++ suffix
    else fail

/-- The anchor and the tag in front of a node, in either order. -/
def properties : Nat → Option String → Option String → Read (Option String × Option String)
  | 0, anchor, tag => return (anchor, tag)
  | fuel + 1, anchor, tag => do
    match ← peek with
    | some (.anchor name) =>
      if anchor.isSome then return (anchor, tag)
      drop
      properties fuel (some name) tag
    | some (.tag handle suffix) =>
      if tag.isSome then return (anchor, tag)
      drop
      properties fuel anchor (some (← tagOf handle suffix))
    | _ => return (anchor, tag)

def emptyNode (tag : Option String) : Node := .scalar "" true tag

/-- Where a node may stand: in a block collection, there also as a sequence without indentation,
or in a flow collection. -/
inductive Place where
  | block
  | indentless
  | flow
deriving Repr, DecidableEq

mutual
/-- Reads a node. -/
def node : Nat → Place → Read Node
  | 0, _ => fail
  | fuel + 1, place => do
    if let some (.alias name) ← peek then
      drop
      match (← get).anchors.lookup name with
      | some target => return target
      | none => fail
    else
      let (anchor, tag) ← properties 2 none none
      let known := (← get).anchors.length
      if let some name := anchor then
        modify fun r => { r with anchors := (name, .cyclic) :: r.anchors }
      let result ← content fuel place tag (anchor.isSome || tag.isSome)
      if let some name := anchor then
        modify fun r =>
          { r with anchors := r.anchors.set (r.anchors.length - known - 1) (name, result) }
      return result

/-- Reads a node behind its properties. -/
def content : Nat → Place → Option String → Bool → Read Node
  | 0, _, _, _ => fail
  | fuel + 1, place, tag, hasProperties => do
    match ← peek with
    | some .blockEntry =>
      if place = .indentless then return .sequence (← indentlessItems fuel) tag
      else if hasProperties then return emptyNode tag
      else fail
    | some (.scalar text isPlain) =>
      drop
      return .scalar text isPlain tag
    | some .flowSequenceStart =>
      drop
      return .sequence (← flowItems fuel true) tag
    | some .flowMappingStart =>
      drop
      return .mapping (← flowEntries fuel true) tag
    | some .blockSequenceStart =>
      if place = .flow then fail
      drop
      return .sequence (← blockItems fuel) tag
    | some .blockMappingStart =>
      if place = .flow then fail
      drop
      return .mapping (← blockEntries fuel) tag
    | _ => if hasProperties then return emptyNode tag else fail

/-- Reads a node, or an empty one where one of these tokens follows. -/
def nodeUnless : Nat → Place → List Token → Read Node
  | 0, _, _ => fail
  | fuel + 1, place, ends => do
    if ← isAt ends then return emptyNode none else node fuel place

def blockItems : Nat → Read (List Node)
  | 0 => fail
  | fuel + 1 => do
    if ← accept .blockEntry then
      let item ← nodeUnless fuel .block [.blockEntry, .blockEnd]
      return item :: (← blockItems fuel)
    else
      expect .blockEnd
      return []

def indentlessItems : Nat → Read (List Node)
  | 0 => fail
  | fuel + 1 => do
    if ← accept .blockEntry then
      let item ← nodeUnless fuel .block [.blockEntry, .key, .value, .blockEnd]
      return item :: (← indentlessItems fuel)
    else return []

def blockEntries : Nat → Read (List (Node × Node))
  | 0 => fail
  | fuel + 1 => do
    if ← accept .key then
      let key ← nodeUnless fuel .indentless [.key, .value, .blockEnd]
      let value ← if ← accept .value then
          nodeUnless fuel .indentless [.key, .value, .blockEnd]
        else pure (emptyNode none)
      return (key, value) :: (← blockEntries fuel)
    else
      expect .blockEnd
      return []

def flowItems : Nat → Bool → Read (List Node)
  | 0, _ => fail
  | fuel + 1, isFirst => do
    if ← accept .flowSequenceEnd then return []
    if ¬ isFirst then
      expect .flowEntry
      if ← accept .flowSequenceEnd then return []
    if ← accept .key then
      let key ← nodeUnless fuel .flow [.value, .flowEntry, .flowSequenceEnd]
      let value ← if ← accept .value then
          nodeUnless fuel .flow [.flowEntry, .flowSequenceEnd]
        else pure (emptyNode none)
      return .mapping [(key, value)] none :: (← flowItems fuel false)
    else
      let item ← node fuel .flow
      return item :: (← flowItems fuel false)

def flowEntries : Nat → Bool → Read (List (Node × Node))
  | 0, _ => fail
  | fuel + 1, isFirst => do
    if ← accept .flowMappingEnd then return []
    if ¬ isFirst then
      expect .flowEntry
      if ← accept .flowMappingEnd then return []
    if ← accept .key then
      let key ← nodeUnless fuel .flow [.value, .flowEntry, .flowMappingEnd]
      let value ← if ← accept .value then
          nodeUnless fuel .flow [.flowEntry, .flowMappingEnd]
        else pure (emptyNode none)
      return (key, value) :: (← flowEntries fuel false)
    else
      let key ← node fuel .flow
      return (key, emptyNode none) :: (← flowEntries fuel false)
end

/-- The directives in front of a document; a version or a handle is given at most once. -/
def directives : Nat → Bool → Read Bool
  | 0, seen => return seen
  | fuel + 1, seen => do
    match ← peek with
    | some .versionDirective =>
      drop
      if ← isAt [.versionDirective] then fail
      directives fuel true
    | some (.tagDirective handle start) =>
      if ((← get).handles.lookup handle).isSome then fail
      drop
      modify fun r => { r with handles := (handle, start) :: r.handles }
      directives fuel true
    | _ => return seen

def dropEnds : Nat → Read Unit
  | 0 => pure ()
  | fuel + 1 => do if ← accept .documentEnd then dropEnds fuel

/-- Reads the only document, if there is one. -/
def document (fuel : Nat) : Read (Option Node) := do
  if ← isAt [.streamEnd] then return none
  let hasDirectives ← directives fuel false
  let isExplicit ← accept .documentStart
  if hasDirectives ∧ ¬ isExplicit then fail
  let isEmpty ← match ← peek with
    | some .versionDirective | some (.tagDirective ..) | some .documentStart
    | some .documentEnd | some .streamEnd => pure isExplicit
    | _ => pure false
  let root ← if isEmpty then pure (emptyNode none) else node fuel .block
  dropEnds fuel
  expect .streamEnd
  return some root

end Read

namespace Node

/-- Reads a text: nothing for one without a document, and a fault for more than one. -/
def parse? (text : String) : Option (Option Node) := do
  let tokens ← tokens? text
  let (root, _) ← (Read.document (4 * tokens.length + 8)).run { tokens }
  return root

/-- Digits alone after an optional sign, beginning with a zero that is not the only one. -/
def isZeroLed (cs : List Char) : Bool :=
  let cs := match cs with
    | '-' :: rest | '+' :: rest => rest
    | cs => cs
  1 < cs.length && cs.head? == some '0' && cs.all Char.isDigit

def digitIn? (base : Nat) (c : Char) : Option Nat :=
  let n := if c.isDigit then some (c.toNat - '0'.toNat)
    else if 'a' ≤ c ∧ c ≤ 'f' then some (c.toNat - 'a'.toNat + 10)
    else if 'A' ≤ c ∧ c ≤ 'F' then some (c.toNat - 'A'.toNat + 10)
    else none
  n.filter (· < base)

def natIn? (base : Nat) (cs : List Char) : Option Nat :=
  if cs.isEmpty then none
  else cs.foldlM (fun n c => return n * base + (← digitIn? base c)) 0

/-- A number with the mark of its base, `0x`, `0o` or `0b`, or without one in base ten. -/
def magnitude? : List Char → Option Nat
  | '0' :: 'x' :: rest => natIn? 16 rest
  | '0' :: 'o' :: rest => natIn? 8 rest
  | '0' :: 'b' :: rest => natIn? 2 rest
  | cs => natIn? 10 cs

/-- The integer a plain scalar stands for. -/
def int? (cs : List Char) : Option Int :=
  if isZeroLed cs then none
  else match cs with
    | '-' :: rest => (magnitude? rest).map fun n => -(n : Int)
    | '+' :: rest => (magnitude? rest).map fun n => (n : Int)
    | cs => (magnitude? cs).map fun n => (n : Int)

/-- The finite or special number a plain scalar stands for. -/
def float? (cs : List Char) : Option Double :=
  let unsigned := match cs with
    | '+' :: rest => rest
    | cs => cs
  if cs.head? = some '+' ∧ (unsigned.head? = some '+' ∨ unsigned.head? = some '-') then none
  else if [".inf", ".Inf", ".INF"].contains (String.ofList unsigned) then some (.infinite false)
  else if ["-.inf", "-.Inf", "-.INF"].contains (String.ofList cs) then some (.infinite true)
  else if [".nan", ".NaN", ".NAN"].contains (String.ofList cs) then some .nan
  else (Double.ofText? unsigned).filter Double.isFinite

def isNullText (s : String) : Bool := ["null", "Null", "NULL", "~"].contains s

def bool? (s : String) : Option Bool :=
  if ["true", "True", "TRUE"].contains s then some true
  else if ["false", "False", "FALSE"].contains s then some false
  else none

/-- An integer as a value: beyond 64 signed bits it is a float, beyond 64 bits it has none; beyond
128 bits the text is no integer to begin with. -/
def ofInt (n : Int) : Option Value :=
  if Integer.fitsInt64 n then some (.int n)
  else if 0 ≤ n ∧ n ≤ Integer.maxUInt64 then some (.float (Double.ofNat n.toNat))
  else none

def is128 (n : Int) : Bool := -(Nat.pow 2 127 : Int) ≤ n && n < (Nat.pow 2 128 : Int)

/-- The value of a plain scalar. -/
def plainValue (s : String) : Option Value :=
  let cs := s.toList
  if s.isEmpty ∨ isNullText s then some .null
  else match bool? s with
    | some b => some (.bool b)
    | none =>
      match (int? cs).filter is128 with
      | some n => ofInt n
      | none =>
        if isZeroLed cs then some (.str s)
        else some ((float? cs).elim (.str s) .float)

/-- The value of a scalar. Tags of the core schema settle the kind; tags of other kinds that are
local to the document mean nothing here and have no value. -/
def scalarValue (s : String) (isPlain : Bool) (tag : Option String) : Option Value :=
  match tag with
  | none => if isPlain then plainValue s else some (.str s)
  | some tag =>
    if tag.toList.head? = some '!' then none
    else if tag = "tag:yaml.org,2002:bool" then (bool? s).map .bool
    else if tag = "tag:yaml.org,2002:int" then ((int? s.toList).filter is128).bind ofInt
    else if tag = "tag:yaml.org,2002:float" then (float? s.toList).map .float
    else if tag = "tag:yaml.org,2002:null" then if isNullText s then some .null else none
    else some (.str s)

def isLocalTag (tag : Option String) : Bool := tag.any fun t => t.toList.head? == some '!'

mutual
/-- The value of a node, with the number of levels it may still open. The keys of a mapping have
to be strings, and of entries with one key the last counts. -/
def valueWithin : Nat → Node → Option Value
  | _, .scalar s isPlain tag => scalarValue s isPlain tag
  | _, .cyclic => none
  | 0, _ => none
  | depth + 1, .sequence items tag =>
    if isLocalTag tag then none else (itemValues depth items).map .list
  | depth + 1, .mapping entries tag =>
    if isLocalTag tag then none
    else (entryValues depth entries).map fun fields => .map (Table.ofList fields)

def itemValues : Nat → List Node → Option (List Value)
  | _, [] => some []
  | depth, n :: rest => do return (← valueWithin depth n) :: (← itemValues depth rest)

def entryValues : Nat → List (Node × Node) → Option (List (String × Value))
  | _, [] => some []
  | depth, (k, n) :: rest => do
    match ← valueWithin depth k with
    | .str key => return (key, ← valueWithin depth n) :: (← entryValues depth rest)
    | _ => none
end

/-- The text of a scalar, whatever its kind. -/
def text? : Node → Option String
  | .scalar s _ _ => some s
  | _ => none

/-- The entries of a mapping; an empty node counts as an empty one. -/
def entries? : Node → Option (List (Node × Node))
  | .mapping entries _ => some entries
  | .scalar "" true _ => some []
  | _ => none

/-- The items of a sequence; an empty node counts as an empty one. -/
def items? : Node → Option (List Node)
  | .sequence items _ => some items
  | .scalar "" true _ => some []
  | _ => none

end Node
end Toolflow.Yaml
