import Toolflow.Proofs.Places
import Toolflow.Registry

/-! Lookups in a registry.

A registry remembers what it has looked up by the text `collection:name`. Neither part of a
reference that is read holds a colon, so two references with one text are the same, and what is
remembered for one is never found for another. So a lookup answers afterwards as it did before, for
every reference, and a module is made from the answers alone. -/
namespace Toolflow

namespace Pathname
variable {c : Char}

theorem mem_joinParts {parts : List (List Char)} {part : List Char} (h : part ∈ parts)
    (hc : c ∈ part) : c ∈ joinParts parts := by
  induction parts with
  | nil => cases h
  | cons first rest ih =>
    by_cases hlast : rest = []
    · subst hlast
      rwa [List.mem_singleton.mp h] at hc
    · rw [joinParts_cons hlast, List.mem_append]
      rcases List.mem_cons.mp h with rfl | hrest
      · exact Or.inl hc
      · exact Or.inr (List.mem_cons_of_mem _ (ih hrest))

theorem mem_of_mem_joinParts {parts : List (List Char)} (h : c ∈ joinParts parts) :
    c = '/' ∨ ∃ part ∈ parts, c ∈ part := by
  induction parts with
  | nil => cases h
  | cons first rest ih =>
    by_cases hlast : rest = []
    · subst hlast
      exact Or.inr ⟨first, List.mem_singleton_self _, h⟩
    · rw [joinParts_cons hlast, List.mem_append, List.mem_cons] at h
      rcases h with hfirst | hslash | hrest
      · exact Or.inr ⟨first, List.mem_cons_self, hfirst⟩
      · exact Or.inl hslash
      · exact (ih hrest).imp_right fun ⟨part, hpart, hc⟩ =>
          ⟨part, List.mem_cons_of_mem _ hpart, hc⟩

theorem trimParts_subset (parts : List (List Char)) : trimParts parts ⊆ parts := by
  induction parts with
  | nil => exact List.Subset.refl _
  | cons part rest ih =>
    rw [trimParts]
    split
    · exact List.Subset.refl _
    · exact fun _ h => List.mem_cons_of_mem _ (ih h)

/-- The components of a pathname are parts of its text. -/
theorem mem_of_mem_bodyParts {cs part : List Char} (h : part ∈ bodyParts cs) (hc : c ∈ part) :
    c ∈ cs := by
  have hcut : part ∈ cut (splitHead cs).2 := List.mem_reverse.mp (trimParts_subset _ h)
  have hbody := mem_joinParts hcut hc
  rw [joinParts_cut] at hbody
  rw [← splitHead_append cs]
  exact List.mem_append_right _ hbody

theorem mem_of_fileName? {path name : String} (h : fileName? path = some name)
    (hc : c ∈ name.toList) : c ∈ path.toList := by
  unfold fileName? at h
  split at h
  · rename_i part before hbody
    split at h
    · cases h
    · cases h
      rw [String.toList_ofList] at hc
      exact mem_of_mem_bodyParts (hbody ▸ List.mem_cons_self) hc
  · cases h

theorem mem_of_fileStem? {path stem : String} (h : fileStem? path = some stem)
    (hc : c ∈ stem.toList) : c ∈ path.toList := by
  obtain ⟨name, hname, rfl⟩ := Option.map_eq_some_iff.mp h
  refine mem_of_fileName? hname ?_
  rw [String.toList_ofList, stemAndExtension] at hc
  dsimp only at hc
  split at hc
  · exact hc
  · split at hc
    · exact hc
    · exact List.mem_of_mem_take hc

theorem mem_of_parent? {path dir : String} (h : parent? path = some dir) (hc : c ∈ dir.toList) :
    c = '/' ∨ c ∈ path.toList := by
  unfold parent? at h
  dsimp only at h
  split at h
  · rename_i part before hbody
    cases h
    rw [String.toList_ofList, List.mem_append] at hc
    rcases hc with hhead | hjoin
    · refine Or.inr ?_
      rw [← splitHead_append path.toList]
      exact List.mem_append_left _ hhead
    · refine (mem_of_mem_joinParts hjoin).imp_right fun ⟨found, hfound, hc⟩ => ?_
      have hmem : found ∈ before := trimParts_subset _ (List.mem_reverse.mp hfound)
      exact mem_of_mem_bodyParts (hbody ▸ List.mem_cons_of_mem _ hmem) hc
  · split at h
    · cases h
      cases hc
    · cases h

end Pathname

namespace ModuleReference
open Pathname

theorem not_mem_of_mem_splitOn {c : Char} {cs part : List Char} (h : part ∈ cs.splitOn c) :
    c ∉ part := by
  induction cs generalizing part with
  | nil =>
    rw [List.splitOn_nil, List.mem_singleton] at h
    simp [h]
  | cons d rest ih =>
    rw [List.splitOn_cons_eq_if_modifyHead] at h
    split at h
    · rcases List.mem_cons.mp h with rfl | hrest
      · simp
      · exact ih hrest
    · rename_i hd
      obtain ⟨first, parts, hsplit⟩ := List.exists_cons_of_ne_nil (List.splitOn_ne_nil c rest)
      rw [hsplit, List.modifyHead_cons] at h
      rcases List.mem_cons.mp h with rfl | hrest
      · have hfirst : c ∉ first := ih (hsplit ▸ List.mem_cons_self)
        have hne : c ≠ d := by
          rintro rfl
          simp at hd
        simp [hne, hfirst]
      · exact ih (hsplit ▸ List.mem_cons_of_mem _ hrest)

theorem not_mem_of_splitOn_eq_singleton {c : Char} {cs part : List Char}
    (h : cs.splitOn c = [part]) : c ∉ cs := by
  have hjoin : [c].intercalate (cs.splitOn c) = cs := List.intercalate_splitOn c
  rw [h] at hjoin
  have hsame : part = cs := by simpa [List.intercalate] using hjoin
  exact hsame ▸ not_mem_of_mem_splitOn (h ▸ List.mem_singleton_self part)

/-- Neither part of a reference holds a colon. -/
structure Plain (r : ModuleReference) : Prop where
  collection : ':' ∉ r.collection.toList
  name : ':' ∉ r.name.toList

theorem plain_of_parse {text : String} {r : ModuleReference} (h : parse text = .ok r) : r.Plain := by
  unfold parse at h
  split at h
  · rename_i collection name hsplit
    split at h
    · cases h
    · cases h
      have hparts : ∀ part ∈ [collection, name], ':' ∉ part := fun part hpart =>
        not_mem_of_mem_splitOn (hsplit ▸ hpart)
      refine ⟨?_, ?_⟩
      · rw [String.toList_ofList]
        exact hparts collection (by simp)
      · rw [String.toList_ofList]
        exact hparts name (by simp)
  · rename_i part hsplit
    have htext := not_mem_of_splitOn_eq_singleton hsplit
    dsimp only at h
    split at h
    · rename_i collection name hcollection hname
      cases h
      refine ⟨fun hcolon => ?_, fun hcolon => htext (mem_of_fileStem? hname hcolon)⟩
      obtain ⟨dir, hdir, hcollection⟩ := Option.bind_eq_some_iff.mp hcollection
      obtain ⟨parent, hparent, hdir⟩ := Option.bind_eq_some_iff.mp hdir
      unfold collectionOf? at hcollection
      dsimp only at hcollection
      split at hcollection
      · cases hcollection
        rw [String.toList_ofList] at hcolon
        have hin := mem_of_fileName? hdir (List.mem_of_mem_take hcolon)
        rcases mem_of_parent? hparent hin with hslash | hcolon
        · cases hslash
        · exact htext hcolon
      · cases hcollection
    · cases h
  · cases h

/-- References with one text are the same. -/
theorem Plain.key_inj {r s : ModuleReference} (hr : r.Plain) (hs : s.Plain) (h : r.key = s.key) :
    r = s := by
  have hchars : r.collection.toList ++ ':' :: r.name.toList =
      s.collection.toList ++ ':' :: s.name.toList := by
    have hkeys := congrArg String.toList h
    simpa [key] using hkeys
  have hsplit : ∀ t : ModuleReference, t.Plain →
      (t.collection.toList ++ ':' :: t.name.toList).splitOn ':' =
        [t.collection.toList, t.name.toList] := fun t ht => by
    rw [List.splitOn_append_cons_self_of_not_mem ht.collection, List.splitOn_eq_singleton ht.name]
  have hparts := hsplit r hr
  rw [hchars, hsplit s hs] at hparts
  obtain ⟨r1, r2⟩ := r
  obtain ⟨s1, s2⟩ := s
  simp only [List.cons.injEq, String.toList_inj, and_true] at hparts
  rw [hparts.1, hparts.2]

end ModuleReference

namespace Registry
universe u
variable {α β γ : Type u} {find : String → Except Failure Factory}

/-- The factory that a lookup of a text finds. -/
def answer (r : Registry) (text : String) : Except Failure Factory := do
  let reference ← ModuleReference.parse text
  match r.loaded.get? reference.key with
  | some factory => return factory
  | none => r.registered reference

/-- A computation with a registry ends as one without does, and the answers stay what they were. -/
inductive Computes (find : String → Except Failure Factory) :
    Except Failure α → Except Failure (α × Registry) → Prop
  | ok {a : α} {after : Registry} (same : after.answer = find) :
    Computes find (.ok a) (.ok (a, after))
  | error {cause : Failure} : Computes find (.error cause) (.error cause)

theorem Computes.bind {x : Except Failure α} {y : Except Failure (α × Registry)}
    {f : α → Except Failure β} {g : α × Registry → Except Failure (β × Registry)}
    (h : Computes find x y)
    (next : ∀ a after, after.answer = find → Computes find (f a) (g (a, after))) :
    Computes find (x >>= f) (y >>= g) := by
  cases h with
  | ok same => exact next _ _ same
  | error => exact .error

/-- What does not look at the registry comes before both. -/
theorem Computes.after {x : Except Failure γ} {f : γ → Except Failure α}
    {g : γ → Except Failure (α × Registry)} (next : ∀ a, x = .ok a → Computes find (f a) (g a)) :
    Computes find (x >>= f) (x >>= g) := by
  cases x with
  | ok a => exact next a rfl
  | error cause => exact .error

theorem Computes.during {x : Except Failure α} {y : Except Failure (α × Registry)}
    (h : Computes find x y) (activity : Activity) :
    Computes find (during activity x) (during activity y) := by
  cases h with
  | ok same => exact .ok same
  | error => exact .error

/-- Nor does what comes last. -/
theorem Computes.last {after : Registry} (same : after.answer = find) (x : Except Failure α) :
    Computes find x (x >>= fun a => .ok (a, after)) := by
  cases x with
  | ok a => exact .ok same
  | error cause => exact .error

/-- Where the registry is not needed any more both go on in the same way. -/
theorem Computes.forget {x : Except Failure α} {y : Except Failure (α × Registry)}
    (h : Computes find x y) (f : α → Except Failure β) : (y >>= fun a => f a.1) = x >>= f := by
  cases h with
  | ok => rfl
  | error => rfl

/-- A lookup finds the answer, and afterwards every text has the answer that it had before. -/
theorem computes_lookup (r : Registry) (text : String) :
    Computes r.answer (r.answer text) (r.lookup text) := by
  refine Computes.after fun reference hparse => ?_
  cases hloaded : r.loaded.get? reference.key with
  | some factory => exact .ok rfl
  | none =>
    have hanswer : r.answer text = r.registered reference := by
      rw [answer, hparse]
      simp [Bind.bind, Except.bind, hloaded]
    dsimp only
    cases hfound : r.registered reference with
    | error cause => exact .error
    | ok factory =>
      refine .ok (funext fun other => ?_)
      unfold answer
      cases hother : ModuleReference.parse other with
      | error cause => rfl
      | ok found =>
        show (match (r.loaded.insert reference.key factory).get? found.key with
            | some factory => Except.ok factory
            | none => r.registered found) =
          match r.loaded.get? found.key with
          | some factory => Except.ok factory
          | none => r.registered found
        by_cases hkey : found.key = reference.key
        · obtain rfl := (ModuleReference.plain_of_parse hother).key_inj
            (ModuleReference.plain_of_parse hparse) hkey
          rw [Table.get?_insert_self, hloaded]
          exact hfound.symm
        · rw [Table.get?_insert_of_ne _ _ hkey]

/-- Makes a module from the answers of lookups. -/
def made : Nat → (String → Except Failure Factory) → String → ModuleArgs →
    Except Failure ToolModule
  | 0, _, reference, _ => refuse (.endlessWrapping reference)
  | fuel + 1, find, reference, args => do
    let factory ← find reference
    during (.instantiating reference args.instanceName) do
      match factory with
      | .tool make => make args
      | .wrapper wrapped wrap =>
        let (inside, params) ← wrapped args
        let m ← made fuel find inside { args with params }
        wrap m args

/-- What a registry remembers is not seen in the modules that it makes. -/
theorem computes_instantiateWithin (fuel : Nat) (r : Registry) (reference : String)
    (args : ModuleArgs) :
    Computes r.answer (made fuel r.answer reference args)
      (instantiateWithin fuel r reference args) := by
  induction fuel generalizing r reference args with
  | zero => exact .error
  | succ fuel ih =>
    refine (r.computes_lookup reference).bind fun factory after same => ?_
    refine Computes.during ?_ _
    cases factory with
    | tool make => exact .last same (make args)
    | wrapper wrapped wrap =>
      refine Computes.after fun inside _ => ?_
      have hinside := ih after inside.1 { args with params := inside.2 }
      rw [same] at hinside
      exact hinside.bind fun m last same => .last same (wrap m args)

end Registry
end Toolflow
