/-! Tables: finite maps from names to entries, kept in name order.

Names are ordered by code point. A look-up answers the first entry of its name, so the laws of
`insert`, `erase` and `extend` hold of any table; `Ascending` says when the listing has no
repeated name, which every table built from `empty` satisfies. -/
namespace Toolflow

structure Table (α : Type u) where
  entries : List (String × α)
deriving Repr, DecidableEq

namespace Table
variable {α β : Type u}

def empty : Table α := ⟨[]⟩

instance : EmptyCollection (Table α) := ⟨empty⟩

instance : Inhabited (Table α) := ⟨empty⟩

def isEmpty (t : Table α) : Bool := t.entries.isEmpty

def size (t : Table α) : Nat := t.entries.length

/-- The first entry called `name`. -/
def lookup (name : String) : List (String × α) → Option α
  | [] => none
  | (n, a) :: rest => if n = name then some a else lookup name rest

def get? (t : Table α) (name : String) : Option α := lookup name t.entries

def contains (t : Table α) (name : String) : Bool := (t.get? name).isSome

def keys (t : Table α) : List String := t.entries.map (·.1)

def values (t : Table α) : List α := t.entries.map (·.2)

/-- Put an entry in front of the first name that is not smaller, replacing an equal one. -/
def place (name : String) (a : α) : List (String × α) → List (String × α)
  | [] => [(name, a)]
  | (n, b) :: rest =>
    if n = name then (name, a) :: rest
    else if name < n then (name, a) :: (n, b) :: rest
    else (n, b) :: place name a rest

def insert (t : Table α) (name : String) (a : α) : Table α := ⟨place name a t.entries⟩

def erase (t : Table α) (name : String) : Table α := ⟨t.entries.filter (·.1 != name)⟩

def ofList (entries : List (String × α)) : Table α :=
  entries.foldl (fun t e => t.insert e.1 e.2) empty

/-- The entries of `other` laid on top of `t`. -/
def extend (t other : Table α) : Table α :=
  other.entries.foldl (fun t e => t.insert e.1 e.2) t

def map (f : α → β) (t : Table α) : Table β := ⟨t.entries.map fun e => (e.1, f e.2)⟩

def filter (keep : String → α → Bool) (t : Table α) : Table α :=
  ⟨t.entries.filter fun e => keep e.1 e.2⟩

def filterMap (f : String → α → Option β) (t : Table α) : Table β :=
  ⟨t.entries.filterMap fun e => (f e.1 e.2).map (e.1, ·)⟩

/-- Names strictly increase along the listing. -/
def Ascending (t : Table α) : Prop := t.keys.Pairwise (· < ·)

@[simp] theorem get?_empty (name : String) : (empty : Table α).get? name = none := rfl

theorem lookup_place_self (name : String) (a : α) (l : List (String × α)) :
    lookup name (place name a l) = some a := by
  induction l with
  | nil => simp [place, lookup]
  | cons e rest ih =>
    obtain ⟨n, b⟩ := e
    by_cases h : n = name
    · simp [place, lookup, h]
    · by_cases hlt : name < n <;> simp [place, lookup, h, hlt, ih]

theorem lookup_place_of_ne {name other : String} (a : α) (l : List (String × α))
    (hne : other ≠ name) : lookup other (place name a l) = lookup other l := by
  induction l with
  | nil => simp [place, lookup, hne.symm]
  | cons e rest ih =>
    obtain ⟨n, b⟩ := e
    by_cases h : n = name
    · subst h; simp [place, lookup, hne.symm]
    · by_cases hlt : name < n <;> simp [place, lookup, h, hlt, ih, hne.symm]

@[simp] theorem get?_insert_self (t : Table α) (name : String) (a : α) :
    (t.insert name a).get? name = some a := lookup_place_self ..

theorem get?_insert_of_ne (t : Table α) {name other : String} (a : α) (h : other ≠ name) :
    (t.insert name a).get? other = t.get? other := lookup_place_of_ne a _ h

theorem get?_insert (t : Table α) (name other : String) (a : α) :
    (t.insert name a).get? other = if other = name then some a else t.get? other := by
  by_cases h : other = name
  · subst h; simp
  · simp [h, get?_insert_of_ne]

theorem get?_erase (t : Table α) (name other : String) :
    (t.erase name).get? other = if other = name then none else t.get? other := by
  obtain ⟨l⟩ := t
  simp only [erase, get?]
  induction l with
  | nil => simp [lookup]
  | cons e rest ih =>
    obtain ⟨n, b⟩ := e
    by_cases hn : n = name
    · subst hn
      by_cases ho : other = n
      · subst ho; simpa [lookup] using ih
      · simpa [lookup, Ne.symm ho, ho] using ih
    · by_cases ho : n = other
      · subst ho; simp [lookup, hn]
      · simpa [lookup, hn, ho] using ih

end Table

/-- A set of names, listed in name order. -/
abbrev NameSet := Table Unit

namespace NameSet

def add (s : NameSet) (name : String) : NameSet := s.insert name ()

def ofList (names : List String) : NameSet := names.foldl add Table.empty

/-- Both sets together. -/
def union (s : NameSet) (names : List String) : NameSet := names.foldl add s

end NameSet
end Toolflow
