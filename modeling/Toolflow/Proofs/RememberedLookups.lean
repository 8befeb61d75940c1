import Mathlib.Data.Finset.Card
import Toolflow.Modules.Builtin
import Toolflow.Proofs.Lookups

/-! What a registry remembers.

A registry is built by registrations and then looked up any number of times. After any lookups it
holds exactly the modules that were found, one entry for each, and under the entry the factory that
is registered; so every reference is answered as if nothing had been looked up before. -/
namespace Toolflow

/-- A name that is new makes a table longer by one. -/
theorem Table.size_insert_of_get?_eq_none {α : Type} {t : Table α} {name : String} (a : α)
    (h : t.get? name = none) : (t.insert name a).size = t.size + 1 := by
  obtain ⟨l⟩ := t
  show (place name a l).length = l.length + 1
  induction l with
  | nil => rfl
  | cons e rest ih =>
    obtain ⟨n, b⟩ := e
    by_cases hn : n = name
    · simp [get?, lookup, hn] at h
    · have hrest : lookup name rest = none := by simpa [get?, lookup, hn] using h
      rw [place, if_neg hn]
      split
      · rfl
      · rw [List.length_cons, ih hrest, List.length_cons]

namespace ModuleReference
open Pathname

/-- The text of a reference is read as the reference. -/
theorem parse_key {r : ModuleReference} (plain : r.Plain) (hcollection : r.collection ≠ "")
    (hname : r.name ≠ "") : parse r.key = .ok r := by
  have hsplit : r.key.toList.splitOn ':' = [r.collection.toList, r.name.toList] := by
    have hchars : r.key.toList = r.collection.toList ++ ':' :: r.name.toList := by simp [key]
    rw [hchars, List.splitOn_append_cons_self_of_not_mem plain.collection,
      List.splitOn_eq_singleton plain.name]
  unfold parse
  rw [hsplit]
  simp [hcollection, hname]

theorem collectionOf?_append {collection : String} (h : collection ≠ "") :
    collectionOf? (collection ++ "_modules") = some collection := by
  have hlength : 0 < collection.toList.length :=
    List.length_pos_of_ne_nil (String.toList_eq_nil_iff.not.mpr h)
  unfold collectionOf?
  simp only [String.toList_append, List.length_append]
  rw [if_pos ⟨by simp, by omega⟩, Nat.add_sub_cancel, List.take_left', String.ofList_toList]
  rfl

/-- A path into the directory of a collection is read as the module it names. -/
theorem parse_path {path collection name : String} (colonless : ':' ∉ path.toList)
    (hcollection : collection ≠ "")
    (hdir : (parent? path).bind fileName? = some (collection ++ "_modules"))
    (hname : fileStem? path = some name) : parse path = .ok ⟨collection, name⟩ := by
  unfold parse
  rw [List.splitOn_eq_singleton colonless]
  simp only [hdir, hname, Option.bind_some, collectionOf?_append hcollection]

end ModuleReference

namespace Registry

/-- The registry that registrations build, the first of them first. -/
def ofRegistrations (registrations : List (String × String × Factory)) : Registry :=
  registrations.foldl (fun r (collection, name, factory) => r.register collection name factory)
    empty

/-- The registry after a lookup. One that fails changes nothing. -/
def afterLookup (r : Registry) (text : String) : Registry :=
  match r.lookup text with
  | .ok (_, next) => next
  | .error _ => r

/-- The module that a text refers to, if it is registered. -/
def found? (r : Registry) (text : String) : Option ModuleReference :=
  match ModuleReference.parse text with
  | .ok reference => (r.registered reference).toOption.map fun _ => reference
  | .error _ => none

theorem loaded_ofRegistrations (registrations : List (String × String × Factory)) :
    (ofRegistrations registrations).loaded = .empty := by
  have hfold : ∀ r : Registry, (registrations.foldl (fun r (collection, name, factory) =>
      r.register collection name factory) r).loaded = r.loaded := by
    induction registrations with
    | nil => exact fun _ => rfl
    | cons e rest ih => exact fun r => ih _
  exact hfold empty

/-- A registry knows the registrations of another and remembers the given modules: those and no
others, each with the factory that is registered. -/
structure Remembers (fresh r : Registry) (known : Finset ModuleReference) : Prop where
  collections : r.collections = fresh.collections
  loaded : ∀ reference : ModuleReference, reference.Plain →
    r.loaded.get? reference.key =
      if reference ∈ known then (fresh.registered reference).toOption else none
  found : ∀ reference ∈ known, ∃ factory, fresh.registered reference = .ok factory
  size : r.loaded.size = known.card

theorem Remembers.registered {fresh r : Registry} {known : Finset ModuleReference}
    (h : Remembers fresh r known) (reference : ModuleReference) :
    r.registered reference = fresh.registered reference := by
  unfold Registry.registered
  rw [h.collections]

theorem remembers_ofRegistrations (registrations : List (String × String × Factory)) :
    Remembers (ofRegistrations registrations) (ofRegistrations registrations) ∅ where
  collections := rfl
  loaded reference _ := by simp [loaded_ofRegistrations]
  found reference h := absurd h (Finset.notMem_empty reference)
  size := by simp [loaded_ofRegistrations, Table.size, Table.empty]

theorem afterLookup_eq_of_ok {r next : Registry} {text : String} {factory : Factory}
    (h : r.lookup text = .ok (factory, next)) : r.afterLookup text = next := by
  unfold afterLookup
  rw [h]

theorem afterLookup_eq_of_error {r : Registry} {text : String} {cause : Failure}
    (h : r.lookup text = .error cause) : r.afterLookup text = r := by
  unfold afterLookup
  rw [h]

/-- A module that is found for the first time is remembered from then on. -/
theorem Remembers.remember {fresh r : Registry} {known : Finset ModuleReference}
    (h : Remembers fresh r known) {reference : ModuleReference} {factory : Factory}
    (plain : reference.Plain) (new : reference ∉ known)
    (hfactory : fresh.registered reference = .ok factory) :
    Remembers fresh { r with loaded := r.loaded.insert reference.key factory }
      (insert reference known) where
  collections := h.collections
  loaded other hother := by
    by_cases hsame : other = reference
    · subst hsame
      rw [Table.get?_insert_self, if_pos (Finset.mem_insert_self ..), hfactory]
      rfl
    · have hkey : other.key ≠ reference.key := fun heq => hsame (hother.key_inj plain heq)
      rw [Table.get?_insert_of_ne _ _ hkey, h.loaded other hother]
      simp [hsame]
  found other hother := by
    rcases Finset.mem_insert.mp hother with rfl | hold
    · exact ⟨factory, hfactory⟩
    · exact h.found other hold
  size := by
    have hfree : r.loaded.get? reference.key = none := by rw [h.loaded reference plain, if_neg new]
    rw [Table.size_insert_of_get?_eq_none factory hfree, h.size, Finset.card_insert_of_notMem new]

/-- A lookup answers what is registered, and the module that it finds is remembered. -/
theorem Remembers.lookup {fresh r : Registry} {known : Finset ModuleReference}
    (h : Remembers fresh r known) (text : String) :
    (r.lookup text).map Prod.fst = ModuleReference.parse text >>= fresh.registered ∧
      Remembers fresh (r.afterLookup text) ((fresh.found? text).toFinset ∪ known) := by
  cases hparse : ModuleReference.parse text with
  | error cause =>
    have hlookup : r.lookup text = .error cause := by
      simp [Registry.lookup, hparse, Bind.bind, Except.bind]
    rw [hlookup, afterLookup_eq_of_error hlookup]
    exact ⟨rfl, by simpa [found?, hparse] using h⟩
  | ok reference =>
    have plain := ModuleReference.plain_of_parse hparse
    have hloaded := h.loaded reference plain
    have hregistered := h.registered reference
    cases hfactory : fresh.registered reference with
    | error cause =>
      have hnew : reference ∉ known := by
        intro hknown
        obtain ⟨factory, hfound⟩ := h.found reference hknown
        cases hfactory.symm.trans hfound
      rw [if_neg hnew] at hloaded
      have hlookup : r.lookup text = .error cause := by
        simp [Registry.lookup, hparse, hloaded, hregistered, hfactory, Bind.bind, Except.bind]
      rw [hlookup, afterLookup_eq_of_error hlookup]
      exact ⟨hfactory.symm, by simpa [found?, hparse, hfactory, Except.toOption] using h⟩
    | ok factory =>
      have hfound : (fresh.found? text).toFinset ∪ known = insert reference known := by
        simp [found?, hparse, hfactory, Except.toOption]
      rw [hfound]
      by_cases hknown : reference ∈ known
      · rw [if_pos hknown, hfactory] at hloaded
        have hlookup : r.lookup text = .ok (factory, r) := by
          simp [Registry.lookup, hparse, hloaded, Except.toOption, Bind.bind, Except.bind, pure,
            Except.pure]
        rw [hlookup, afterLookup_eq_of_ok hlookup, Finset.insert_eq_of_mem hknown]
        exact ⟨hfactory.symm, h⟩
      · rw [if_neg hknown] at hloaded
        have hlookup : r.lookup text =
            .ok (factory, { r with loaded := r.loaded.insert reference.key factory }) := by
          simp [Registry.lookup, hparse, hloaded, hregistered, hfactory, Bind.bind, Except.bind,
            pure, Except.pure]
        rw [hlookup, afterLookup_eq_of_ok hlookup]
        exact ⟨hfactory.symm, h.remember plain hknown hfactory⟩

/-- After any lookups a registry remembers what they found. -/
theorem Remembers.lookups {fresh r : Registry} {known : Finset ModuleReference}
    (h : Remembers fresh r known) (texts : List String) :
    Remembers fresh (texts.foldl afterLookup r)
      ((texts.filterMap fresh.found?).toFinset ∪ known) := by
  induction texts generalizing r known with
  | nil => simpa using h
  | cons text rest ih =>
    have hnext := ih (h.lookup text).2
    rw [List.foldl_cons]
    have hset : ((text :: rest).filterMap fresh.found?).toFinset ∪ known =
        (rest.filterMap fresh.found?).toFinset ∪ ((fresh.found? text).toFinset ∪ known) := by
      ext reference
      cases hfound : fresh.found? text <;> simp [hfound]
    rwa [hset]

/-- What has been looked up does not show: after any lookups, each text is answered as the fresh
registry answers it, the two ways to write a reference are answered alike, and as many modules are
remembered as different ones have been found. -/
theorem lookups_transparent (registrations : List (String × String × Factory))
    (texts : List String) :
    (∀ text,
      ((texts.foldl afterLookup (ofRegistrations registrations)).lookup text).map Prod.fst =
        ((ofRegistrations registrations).lookup text).map Prod.fst) ∧
    (∀ path collection name, ':' ∉ path.toList → collection ≠ "" → name ≠ "" →
      (Pathname.parent? path).bind Pathname.fileName? = some (collection ++ "_modules") →
      Pathname.fileStem? path = some name →
      ((texts.foldl afterLookup (ofRegistrations registrations)).lookup path).map Prod.fst =
        ((texts.foldl afterLookup (ofRegistrations registrations)).lookup
          (collection ++ ":" ++ name)).map Prod.fst) ∧
    (texts.foldl afterLookup (ofRegistrations registrations)).loaded.size =
      (texts.filterMap (ofRegistrations registrations).found?).toFinset.card := by
  have hfresh := remembers_ofRegistrations registrations
  have hafter := hfresh.lookups texts
  refine ⟨fun text => ?_,
    fun path collection name colonless hcollection hname hdir hstem => ?_, ?_⟩
  · rw [(hafter.lookup text).1, (hfresh.lookup text).1]
  · have hpath := ModuleReference.parse_path colonless hcollection hdir hstem
    have plain := ModuleReference.plain_of_parse hpath
    have hkey := ModuleReference.parse_key plain hcollection hname
    simp only [ModuleReference.key] at hkey
    rw [(hafter.lookup path).1, (hafter.lookup _).1, hpath, hkey]
  · rw [hafter.size, Finset.union_empty]

/-- The engine's modules, looked up under both names of one and under a name that is not there. -/
theorem builtin_lookups_transparent :
    builtin = ofRegistrations (commonModules.map fun e => ("common", e)) ∧
    ':' ∉ "somewhere/common_modules/mkdirs.py".toList ∧
    (Pathname.parent? "somewhere/common_modules/mkdirs.py").bind Pathname.fileName? =
      some ("common" ++ "_modules") ∧
    Pathname.fileStem? "somewhere/common_modules/mkdirs.py" = some "mkdirs" ∧
    ((["nope:mkdirs", "common:mkdirs"].foldl afterLookup builtin).lookup
        "somewhere/common_modules/mkdirs.py").map Prod.fst =
      ((["nope:mkdirs", "common:mkdirs"].foldl afterLookup builtin).lookup
        ("common" ++ ":" ++ "mkdirs")).map Prod.fst ∧
    (["nope:mkdirs", "common:mkdirs", "somewhere/common_modules/mkdirs.py"].foldl
      afterLookup builtin).loaded.size = 1 := by
  have hbuiltin : builtin = ofRegistrations (commonModules.map fun e => ("common", e)) := by
    rw [ofRegistrations, List.foldl_map, builtin]
  have hcolon : ':' ∉ "somewhere/common_modules/mkdirs.py".toList := by decide
  have hdir : (Pathname.parent? "somewhere/common_modules/mkdirs.py").bind Pathname.fileName? =
      some ("common" ++ "_modules") := by decide
  have hstem : Pathname.fileStem? "somewhere/common_modules/mkdirs.py" = some "mkdirs" := by decide
  obtain ⟨-, halike, -⟩ := lookups_transparent (commonModules.map fun e => ("common", e))
    ["nope:mkdirs", "common:mkdirs"]
  have hsame := halike _ "common" "mkdirs" hcolon (by decide) (by decide) hdir hstem
  rw [← hbuiltin] at hsame
  exact ⟨hbuiltin, hcolon, hdir, hstem, hsame, by decide +kernel⟩

end Registry
end Toolflow
