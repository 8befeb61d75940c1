import Toolflow.Checksum
import Toolflow.Disk
import Toolflow.Json.Printer
import Toolflow.Json.Reader

/-! Fingerprints of files, one record for each pair of a path and a consumer.

A consumer is a stage that read or wrote the path, or `targetConsumer` for products. A record
holds the fingerprint the consumer saw last. Besides the records a cache remembers what `update`
found during this run, and whether the records differ from those on the disk. -/
namespace Toolflow

/-- How a file compares with the record of a consumer. -/
inductive FileStatus where
  | changed
  | same
  | untracked
deriving Repr, DecidableEq

structure Fingerprints where
  /-- Where the records are kept. -/
  path : String
  records : Table (Table String)
  statuses : Table (Table FileStatus)
  dirty : Bool

namespace Fingerprints

def cacheFile : String := ".f4cache"

/-- The consumer of products and of requested targets. -/
def targetConsumer : String := "__target"

def empty (path : String) : Fingerprints := ⟨path, .empty, .empty, false⟩

/-- The fingerprint of a path: `0` for a directory, else the checksum of the file in decimal. -/
def fingerprint (disk : Disk) (path : String) : Except Failure String :=
  if disk.isDirectory path then .ok "0"
  else match disk.read path with
    | .ok content => .ok (toString (Checksum.adler32 content))
    | .error fault => .error (.during (.reading path) (.file fault))

/-- The entry of a two-level table. -/
def lookup? {α : Type} (t : Table (Table α)) (path consumer : String) : Option α :=
  (t.get? path).bind (·.get? consumer)

def setEntry {α : Type} (t : Table (Table α)) (path consumer : String) (a : α) :
    Table (Table α) :=
  t.insert path (((t.get? path).getD .empty).insert consumer a)

/-- Takes an entry away, and the path's own table when it was the last one. -/
def eraseEntry {α : Type} (t : Table (Table α)) (path consumer : String) : Table (Table α) :=
  match t.get? path with
  | some inner =>
    let inner := inner.erase consumer
    if inner.isEmpty then t.erase path else t.insert path inner
  | none => t

/-- Takes the entries of a consumer away from every path. -/
def eraseConsumer {α : Type} (t : Table (Table α)) (consumer : String) : Table (Table α) :=
  t.filterMap fun _ inner =>
    let inner := inner.erase consumer
    if inner.isEmpty then none else some inner

def record? (c : Fingerprints) (path consumer : String) : Option String :=
  lookup? c.records path consumer

/-- Whether any path has a record of the consumer. -/
def hasConsumer (c : Fingerprints) (consumer : String) : Bool :=
  c.records.values.any (·.contains consumer)

/-- Drops the record of a path that is gone. -/
def drop (c : Fingerprints) (path consumer : String) : Fingerprints :=
  { c with
    records := eraseEntry c.records path consumer
    statuses := eraseEntry c.statuses path consumer
    dirty := c.dirty || (c.record? path consumer).isSome }

/-- Takes the fingerprint of a path and records it. Answers whether it differs from the record
before, which is also so where there was none, or where the path is gone. -/
def update (c : Fingerprints) (disk : Disk) (path consumer : String) :
    Except Failure (Bool × Fingerprints) := do
  if ¬ disk.exists? path then return (true, c.drop path consumer)
  let hash ← fingerprint disk path
  if c.record? path consumer = some hash then
    return (false, { c with statuses := setEntry c.statuses path consumer .same })
  return (true, { c with
    records := setEntry c.records path consumer hash
    statuses := setEntry c.statuses path consumer .changed
    dirty := true })

/-- What `update` found during this run. -/
def status (c : Fingerprints) (path consumer : String) : FileStatus :=
  (lookup? c.statuses path consumer).getD .untracked

/-- Compares a path with its record and records nothing. -/
def probe (c : Fingerprints) (disk : Disk) (path consumer : String) : FileStatus :=
  match c.record? path consumer with
  | none => .untracked
  | some stored =>
    match fingerprint disk path with
    | .ok hash => if hash = stored then .same else .changed
    | .error _ => .changed

/-- Drops every record of a consumer. -/
def forget (c : Fingerprints) (consumer : String) : Fingerprints :=
  { c with
    records := eraseConsumer c.records consumer
    statuses := eraseConsumer c.statuses consumer
    dirty := c.dirty || c.hasConsumer consumer }

/-- A stored fingerprint: a text, or a number that fits 64 bits. -/
def storedHash? : Json → Option String
  | .str s => some s
  | .int n => if 0 ≤ n then some (toString n) else none
  | _ => none

def storedConsumers? : Json → Option (Table String)
  | .obj fields => do
    return Table.ofList (← fields.mapM fun (consumer, hash) => return (consumer, ← storedHash? hash))
  | _ => none

def storedRecords? : Json → Option (Table (Table String))
  | .obj fields => do
    return Table.ofList (← fields.mapM fun (path, inner) => return (path, ← storedConsumers? inner))
  | _ => none

/-- Reads the records kept at `path`; where they cannot be read there are none. -/
def load (disk : Disk) (path : String) : Fingerprints :=
  let stored : Option (Table (Table String)) :=
    match disk.read path with
    | .ok content => Json.parseBytes? content >>= storedRecords?
    | .error _ => none
  { empty path with records := stored.getD .empty }

/-- The name under which the records are written before they take their place. -/
def temporaryName : String := ".tmp.f4cache"

/-- Keeps the records if they changed: they are written under another name in the same directory
and then moved, so that the file is never half written. -/
def save (c : Fingerprints) (disk : Disk) : Except Failure (Fingerprints × Disk) := do
  if ¬ c.dirty then return (c, disk)
  let dir := match Pathname.parent? c.path with
    | some dir => if dir.isEmpty then "." else dir
    | none => "."
  let temporary := Pathname.join dir temporaryName
  let written ← match disk.write temporary (Json.render c.records).toUTF8 with
    | .ok disk => .ok disk
    | .error fault => .error (.during (.openingTemporary dir) (.file fault))
  match written.rename temporary c.path with
  | .ok disk => return ({ c with dirty := false }, disk)
  | .error fault => .error (.during (.writingRecords c.path) (.file fault))

end Fingerprints
end Toolflow
