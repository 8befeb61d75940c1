import Mathlib.Data.List.Nodup
import Toolflow.Modules.Renaming
import Toolflow.Proofs.OutputPlacement
import Toolflow.Proofs.Tables

/-! Bindings under other names.

Renaming is injective on the names that occur where different names get different outer names and no
outer name is among them. A renamed table then holds what the table held, each entry under its outer
name, and giving the names back undoes the renaming. -/
namespace Toolflow

namespace Table
universe u
variable {α : Type u} {name : String} {a : α}

/-- A table of entries with distinct names holds each of them. -/
theorem get?_ofList_eq_some_iff {l : List (String × α)} (distinct : (l.map (·.1)).Nodup) :
    (ofList l).get? name = some a ↔ (name, a) ∈ l := by
  refine ⟨fun h => mem_of_mem_ofList (mem_of_get? h), fun h => ?_⟩
  induction l using List.reverseRecOn with
  | nil => cases h
  | append_singleton l e ih =>
    rw [List.map_append, List.nodup_append] at distinct
    have hlast : ofList (l ++ [e]) = (ofList l).insert e.1 e.2 := by
      simp [ofList]
    rw [hlast]
    rcases List.mem_append.mp h with hl | he
    · have hne : name ≠ e.1 :=
        distinct.2.2 name (List.mem_map_of_mem hl) e.1 (by simp)
      rw [get?_insert_of_ne _ _ hne, ih distinct.1 hl]
    · rw [List.mem_singleton] at he
      subst he
      exact get?_insert_self ..

theorem Ascending.nodup {t : Table α} (h : t.Ascending) : t.keys.Nodup :=
  h.imp fun hlt => ne_of_lt hlt

end Table

namespace Modules.Renaming

/-- The name by which the flow knows a name of the module inside. -/
def outerName (renames : Table String) (name : String) : String :=
  (renames.get? name).getD name

/-- Renaming tells names apart: different names have different outer names, none of which is one of
the names. -/
structure Apart (renames : Table String) (names : List String) : Prop where
  ascending : renames.Ascending
  injective : ∀ a b outer, renames.get? a = some outer → renames.get? b = some outer → a = b
  fresh : ∀ inner outer, renames.get? inner = some outer → outer ∉ names

section
variable {renames : Table String} {names : List String} {a b : String}

theorem Apart.outerName_inj (h : Apart renames names) (ha : a ∈ names) (hb : b ∈ names)
    (heq : outerName renames a = outerName renames b) : a = b := by
  unfold outerName at heq
  cases hra : renames.get? a with
  | none =>
    cases hrb : renames.get? b with
    | none => simpa [hra, hrb] using heq
    | some outer =>
      have hsame : a = outer := by simpa [hra, hrb] using heq
      exact absurd (hsame ▸ ha) (h.fresh b outer hrb)
  | some outer =>
    cases hrb : renames.get? b with
    | none =>
      have hsame : outer = b := by simpa [hra, hrb] using heq
      exact absurd (hsame ▸ hb) (h.fresh a outer hra)
    | some other =>
      have hsame : outer = other := by simpa [hra, hrb] using heq
      exact h.injective a b outer hra (hsame ▸ hrb)

/-- What can be read off the entries of a table. -/
theorem Apart.of_entries (ascending : renames.Ascending)
    (distinct : (renames.entries.map (·.2)).Nodup) (fresh : ∀ e ∈ renames.entries, e.2 ∉ names) :
    Apart renames names where
  ascending := ascending
  injective a b outer ha hb := by
    have heq := List.inj_on_of_nodup_map distinct (Table.mem_of_get? ha) (Table.mem_of_get? hb) rfl
    exact congrArg (·.1) heq
  fresh inner outer h := fresh _ (Table.mem_of_get? h)

@[simp] theorem name_renameDeclared (d : Declared) :
    (renameDeclared renames d).name = outerName renames d.name := by
  unfold renameDeclared outerName
  split <;> rename_i h <;> simp [h]

@[simp] theorem strictness_renameDeclared (d : Declared) :
    (renameDeclared renames d).strictness = d.strictness := by
  unfold renameDeclared
  split <;> rfl

@[simp] theorem isRequired_renameDeclared (d : Declared) :
    (renameDeclared renames d).isRequired = d.isRequired := by
  simp [Declared.isRequired]

end

/-! ### Tables -/

section
variable {α : Type} {renames : Table String} {names : List String} {t : Table α} {name : String}
  {v : α}

/-- A table whose names are listed once each, all of them known. -/
structure Within (names : List String) (t : Table α) : Prop where
  ascending : t.Ascending
  known : ∀ name v, t.get? name = some v → name ∈ names

theorem Within.insert (h : Within names t) (hname : name ∈ names) :
    Within names (t.insert name v) := by
  refine ⟨h.ascending.insert _ _, fun other w hw => ?_⟩
  rw [Table.get?_insert] at hw
  split at hw
  · rename_i heq
    exact heq ▸ hname
  · exact h.known other w hw

theorem get?_renameKeys_iff (apart : Apart renames names) (h : Within names t) :
    (renameKeys renames t).get? name = some v ↔
      ∃ inner, t.get? inner = some v ∧ outerName renames inner = name := by
  have hmem : ∀ {n w}, (n, w) ∈ t.entries ↔ t.get? n = some w := h.ascending.get?_eq_some_iff.symm
  have hkeys : (t.entries.map fun e => (outerName renames e.1, e.2)).map (·.1) =
      t.keys.map (outerName renames) := by
    simp [Table.keys, Function.comp_def]
  have hdistinct : (t.keys.map (outerName renames)).Nodup := by
    refine h.ascending.nodup.map_on fun a ha b hb heq => ?_
    obtain ⟨⟨_, v⟩, hv, rfl⟩ := List.mem_map.mp ha
    obtain ⟨⟨_, w⟩, hw, rfl⟩ := List.mem_map.mp hb
    exact apart.outerName_inj (h.known _ v (hmem.mp hv)) (h.known _ w (hmem.mp hw)) heq
  show (Table.ofList (t.entries.map fun e => (outerName renames e.1, e.2))).get? name = some v ↔ _
  rw [Table.get?_ofList_eq_some_iff (hkeys ▸ hdistinct), List.mem_map]
  constructor
  · rintro ⟨⟨inner, w⟩, hentry, heq⟩
    cases heq
    exact ⟨inner, hmem.mp hentry, rfl⟩
  · rintro ⟨inner, hinner, rfl⟩
    exact ⟨(inner, v), hmem.mpr hinner, rfl⟩

/-- An entry is found under the outer name. -/
theorem get?_renameKeys (apart : Apart renames names) (h : Within names t) (hname : name ∈ names) :
    (renameKeys renames t).get? (outerName renames name) = t.get? name := by
  refine Option.ext fun v => ?_
  rw [get?_renameKeys_iff apart h]
  constructor
  · rintro ⟨inner, hinner, heq⟩
    exact apart.outerName_inj (h.known inner v hinner) hname heq ▸ hinner
  · exact fun hv => ⟨name, hv, rfl⟩

theorem ascending_renameKeys (renames : Table String) (t : Table α) :
    (renameKeys renames t).Ascending := Table.ascending_ofList _

theorem renameKeys_insert (apart : Apart renames names) (h : Within names t)
    (hname : name ∈ names) :
    renameKeys renames (t.insert name v) =
      (renameKeys renames t).insert (outerName renames name) v := by
  refine (ascending_renameKeys ..).ext ((ascending_renameKeys ..).insert _ _) fun other => ?_
  refine Option.ext fun w => ?_
  rw [get?_renameKeys_iff apart (h.insert hname), Table.get?_insert]
  split
  · rename_i heq
    subst heq
    constructor
    · rintro ⟨inner, hinner, heq⟩
      have hsame := apart.outerName_inj ((h.insert hname).known inner w hinner) hname heq
      rwa [hsame, Table.get?_insert_self] at hinner
    · exact fun hw => ⟨name, by rwa [Table.get?_insert_self], rfl⟩
  · rename_i hne
    rw [get?_renameKeys_iff apart h]
    refine exists_congr fun inner => and_congr_left fun heq => ?_
    rw [Table.get?_insert_of_ne]
    rintro rfl
    exact hne heq.symm

theorem outerName_cons (inner outer : String) (rest : List (String × String)) (name : String) :
    outerName ⟨(inner, outer) :: rest⟩ name =
      if name = inner then outer else outerName ⟨rest⟩ name := by
  by_cases h : name = inner
  · simp [outerName, Table.get?, Table.lookup, h]
  · simp [outerName, Table.get?, Table.lookup, h, Ne.symm h]

theorem Apart.tail {inner outer : String} {rest : List (String × String)}
    (h : Apart ⟨(inner, outer) :: rest⟩ names) :
    Apart ⟨rest⟩ names ∧ outerName ⟨rest⟩ inner = inner ∧ outer ∉ names ∧
      ∀ name ∈ names, name ≠ inner → outerName ⟨rest⟩ name ≠ outer := by
  obtain ⟨hfirst, hascending⟩ := List.pairwise_cons.mp h.ascending
  have hhead : (⟨(inner, outer) :: rest⟩ : Table String).get? inner = some outer := by
    simp [Table.get?, Table.lookup]
  have hrest : ∀ {name found}, (⟨rest⟩ : Table String).get? name = some found →
      (⟨(inner, outer) :: rest⟩ : Table String).get? name = some found ∧ name ≠ inner := by
    intro name found hfound
    have hlt := hfirst name (List.mem_map_of_mem (Table.mem_of_get? hfound))
    exact ⟨by rwa [Table.get?, Table.lookup, if_neg (ne_of_lt hlt)], ne_of_gt hlt⟩
  refine ⟨⟨hascending, fun a b found ha hb => ?_, fun a found ha => ?_⟩, ?_, ?_, ?_⟩
  · exact h.injective a b found (hrest ha).1 (hrest hb).1
  · exact h.fresh a found (hrest ha).1
  · cases hinner : (⟨rest⟩ : Table String).get? inner with
    | none => simp [outerName, hinner]
    | some found => exact absurd rfl (hrest hinner).2
  · exact h.fresh inner outer hhead
  · intro name hname hne heq
    unfold outerName at heq
    cases hfound : (⟨rest⟩ : Table String).get? name with
    | none =>
      rw [hfound, Option.getD_none] at heq
      exact h.fresh inner outer hhead (heq ▸ hname)
    | some found =>
      rw [hfound, Option.getD_some] at heq
      exact hne (h.injective name inner outer (heq ▸ (hrest hfound).1) hhead)

end

section
variable {renames : Table String} {names : List String} {t : Table (Option Value)}

/-- One renaming undone. -/
def nameBack (entries : Table (Option Value)) (e : String × String) : Table (Option Value) :=
  match entries.get? e.2 with
  | some v => (entries.erase e.2).insert e.1 v
  | none => entries

/-- Renaming back undoes the renaming: after each step the table holds what the renamings that are
left make of the names. -/
theorem foldl_renamedBack (h : Within names t) {l : List (String × String)}
    (apart : Apart ⟨l⟩ names) {entries : Table (Option Value)} (ascending : entries.Ascending)
    (holds : ∀ name v, entries.get? name = some v ↔
      ∃ inner, t.get? inner = some v ∧ outerName ⟨l⟩ inner = name) :
    l.foldl nameBack entries = t := by
  induction l generalizing entries with
  | nil =>
    refine ascending.ext h.ascending fun name => Option.ext fun v => ?_
    rw [holds]
    exact ⟨fun ⟨inner, hinner, heq⟩ => heq ▸ hinner, fun hv => ⟨name, hv, rfl⟩⟩
  | cons e rest ih =>
    obtain ⟨inner, outer⟩ := e
    obtain ⟨hrest, hself, hfresh, hothers⟩ := apart.tail
    rw [List.foldl_cons, nameBack]
    dsimp only
    -- what the outer name stands for is the inner name alone
    have houter : entries.get? outer = t.get? inner := by
      refine Option.ext fun v => ?_
      rw [holds]
      constructor
      · rintro ⟨name, hname, heq⟩
        rw [outerName_cons] at heq
        split at heq
        · rename_i hsame
          exact hsame ▸ hname
        · rename_i hne
          exact absurd heq (hothers name (h.known name v hname) hne)
      · exact fun hv => ⟨inner, hv, by rw [outerName_cons, if_pos rfl]⟩
    cases hinner : t.get? inner with
    | none =>
      rw [houter, hinner]
      refine ih hrest ascending fun name v => (holds name v).trans ?_
      refine exists_congr fun other => and_congr_right fun hother => ?_
      rw [outerName_cons, if_neg]
      rintro rfl
      cases hinner.symm.trans hother
    | some w =>
      rw [houter, hinner]
      have hknown := h.known inner w hinner
      refine ih hrest ((ascending.erase _).insert _ _) fun name v => ?_
      rw [Table.get?_insert, Table.get?_erase]
      split
      · rename_i heq
        subst heq
        constructor
        · exact fun hv => ⟨name, hinner.trans hv, hself⟩
        · rintro ⟨other, hother, heq⟩
          have hsame := hrest.outerName_inj (h.known other v hother) hknown (heq.trans hself.symm)
          exact hinner.symm.trans (hsame ▸ hother)
      · rename_i hne
        have hskip : ∀ other, t.get? other = some v → other = inner →
            outerName ⟨rest⟩ other ≠ name := by
          rintro other - rfl heq
          exact hne (heq.symm.trans hself)
        split
        · rename_i heq
          subst heq
          refine ⟨fun hv => (Option.some_ne_none v hv.symm).elim, ?_⟩
          rintro ⟨other, hother, heq⟩
          by_cases hsame : other = inner
          · exact absurd heq (hskip other hother hsame)
          · exact absurd heq (hothers other (h.known other v hother) hsame)
        · rename_i hnotOuter
          rw [holds]
          refine exists_congr fun other => and_congr_right fun hother => ?_
          rw [outerName_cons]
          split
          · rename_i hsame
            exact ⟨fun heq => absurd heq.symm hnotOuter,
              fun heq => absurd heq (hskip other hother hsame)⟩
          · rfl

end
end Modules.Renaming

open Modules.Renaming

namespace Bindings

/-- Bindings under their outer names. -/
def renamed (renames : Table String) (b : Bindings) : Bindings :=
  { b with entries := renameKeys renames b.entries }

section
variable {renames : Table String} {names : List String} {b : Bindings} {name : String}

theorem renamedBack_renamed (apart : Apart renames names) (h : Within names b.entries) :
    (b.renamed renames).renamedBack renames = b := by
  have hback : renames.entries.foldl nameBack (renameKeys renames b.entries) = b.entries :=
    foldl_renamedBack h apart (ascending_renameKeys ..) fun _ _ => get?_renameKeys_iff apart h
  show { b with entries := renames.entries.foldl nameBack (renameKeys renames b.entries) } = b
  rw [hback]

theorem get?_renamed (apart : Apart renames names) (h : Within names b.entries)
    (hname : name ∈ names) : (b.renamed renames).get? (outerName renames name) = b.get? name := by
  unfold get? renamed
  rw [get?_renameKeys apart h hname]

theorem get?_renamed_iff (apart : Apart renames names) (h : Within names b.entries) {v : Value} :
    (b.renamed renames).get? name = some v ↔
      ∃ inner, b.get? inner = some v ∧ outerName renames inner = name := by
  unfold get? renamed
  simp only [Option.join_eq_some_iff, get?_renameKeys_iff apart h]

/-- Bindings refer to no variable under other names if they refer to none under their own. -/
theorem checkResolved_renamed (apart : Apart renames names) (h : Within names b.entries) :
    (b.renamed renames).checkResolved = .ok () ↔ b.checkResolved = .ok () := by
  have hmem : ∀ {c : Bindings}, c.entries.Ascending → ∀ e, e ∈ c.bound.entries ↔
      c.get? e.1 = some e.2 := by
    intro c hc e
    rw [← get?_bound hc, (ascending_bound hc).get?_eq_some_iff]
  simp only [checkResolved_eq_ok_iff, hmem h.ascending,
    hmem (c := b.renamed renames) (ascending_renameKeys ..), get?_renamed_iff apart h]
  constructor
  · exact fun hall e he => hall (outerName renames e.1, e.2) ⟨e.1, he, rfl⟩
  · rintro hall e ⟨inner, hinner, -⟩
    exact hall (inner, e.2) hinner

/-- Setting names in turn binds only those names. -/
theorem within_foldl_set (f : Declared → Option Value) {l : List Declared}
    (known : ∀ d ∈ l, d.name ∈ names) {b : Bindings} (h : Within names b.entries) :
    Within names (l.foldl (fun b d => b.set d.name (f d)) b).entries := by
  induction l generalizing b with
  | nil => exact h
  | cons d rest ih =>
    obtain ⟨hd, hrest⟩ := List.forall_mem_cons.mp known
    exact ih hrest (h.insert hd)

theorem within_empty (stage : String) (kind : BindingKind) :
    Within names (empty stage kind).entries :=
  ⟨Table.ascending_empty, fun _ _ h => nomatch h⟩

/-- Setting the outer names binds under them what setting the names themselves binds. -/
theorem foldl_set_renamed (apart : Apart renames names) {f g : Declared → Option Value}
    {l : List Declared} (known : ∀ d ∈ l, d.name ∈ names)
    (same : ∀ d ∈ l, g (renameDeclared renames d) = f d) {b : Bindings}
    (h : Within names b.entries) :
    (l.map (renameDeclared renames)).foldl (fun b d => b.set d.name (g d)) (b.renamed renames) =
      (l.foldl (fun b d => b.set d.name (f d)) b).renamed renames := by
  induction l generalizing b with
  | nil => rfl
  | cons d rest ih =>
    obtain ⟨hd, hrest⟩ := List.forall_mem_cons.mp known
    obtain ⟨hsame, hsameRest⟩ := List.forall_mem_cons.mp same
    have hstep : (b.renamed renames).set (renameDeclared renames d).name
        (g (renameDeclared renames d)) = (b.set d.name (f d)).renamed renames := by
      simp only [name_renameDeclared, hsame, set, renamed, renameKeys_insert apart h hd]
    rw [List.map_cons, List.foldl_cons, List.foldl_cons, hstep]
    exact ih hrest hsameRest (h.insert hd)

end
end Bindings
end Toolflow
