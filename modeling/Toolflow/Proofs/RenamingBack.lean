import Toolflow.Proofs.RenamedBindings

/-! Giving names back one at a time.

The entries of a renamed table are moved to their inner names in the order of those names, each in
the table that the move before has left. A name may thereby be moved twice, or onto one that still
waits. What becomes of all entries is decided by the names alone: `carried` follows one of them, and
every entry comes to its inner name exactly if following its outer name ends there. -/
namespace Toolflow

open Modules.Renaming

namespace Modules.Renaming

/-- Where the entry of a name stands after renamings have been undone one by one. -/
def carried (l : List (String × String)) (name : String) : String :=
  l.foldl (fun name e => if name = e.2 then e.1 else name) name

section
variable {l : List (String × String)} {e : String × String} {entries : Table (Option Value)}
  {name : String} {v : Option Value}

theorem carried_cons (e : String × String) (l : List (String × String)) (name : String) :
    carried (e :: l) name = carried l (if name = e.2 then e.1 else name) := rfl

/-- What a table holds after one move was in it before. -/
theorem origin_of_nameBack (h : (nameBack entries e).get? name = some v) :
    ∃ before, entries.get? before = some v ∧ (if before = e.2 then e.1 else before) = name := by
  unfold nameBack at h
  split at h
  · rename_i w hw
    rw [Table.get?_insert, Table.get?_erase] at h
    split_ifs at h with hinner houter
    · exact ⟨e.2, hw.trans h, by rw [if_pos rfl, hinner]⟩
    · exact ⟨name, h, if_neg houter⟩
  · rename_i hnone
    refine ⟨name, h, if_neg ?_⟩
    rintro rfl
    exact Option.some_ne_none v (h.symm.trans hnone)

/-- So is what it holds after all of them. -/
theorem origin_of_foldl (h : (l.foldl nameBack entries).get? name = some v) :
    ∃ before, entries.get? before = some v ∧ carried l before = name := by
  induction l generalizing entries with
  | nil => exact ⟨name, h, rfl⟩
  | cons e rest ih =>
    obtain ⟨between, hbetween, rfl⟩ := ih h
    obtain ⟨before, hbefore, rfl⟩ := origin_of_nameBack hbetween
    exact ⟨before, hbefore, rfl⟩

/-- An entry is found where its name is carried, unless another one is carried there too. -/
theorem get?_foldl_nameBack
    (apart : ∀ a b, entries.contains a = true → entries.contains b = true →
      carried l a = carried l b → a = b) (h : entries.get? name = some v) :
    (l.foldl nameBack entries).get? (carried l name) = some v := by
  induction l generalizing entries name with
  | nil => exact h
  | cons e rest ih =>
    have hcontains : ∀ {n w}, entries.get? n = some w → entries.contains n = true :=
      fun hn => Table.contains_eq_true_iff.mpr ⟨_, hn⟩
    rw [List.foldl_cons, carried_cons]
    refine ih (fun a b ha hb heq => ?_) ?_
    · obtain ⟨v, hv⟩ := Table.contains_eq_true_iff.mp ha
      obtain ⟨w, hw⟩ := Table.contains_eq_true_iff.mp hb
      obtain ⟨a, hav, rfl⟩ := origin_of_nameBack hv
      obtain ⟨b, hbw, rfl⟩ := origin_of_nameBack hw
      rw [apart a b (hcontains hav) (hcontains hbw) heq]
    · unfold nameBack
      split
      · rename_i w hw
        rw [Table.get?_insert, Table.get?_erase]
        by_cases houter : name = e.2
        · rw [if_pos houter, if_pos rfl]
          exact hw.symm.trans (houter ▸ h)
        · rw [if_neg houter, if_neg houter, if_neg]
          · exact h
          · intro hinner
            have hsame : carried (e :: rest) name = carried (e :: rest) e.2 := by
              rw [carried_cons, carried_cons, if_neg houter, if_pos rfl, hinner]
            exact houter (apart name e.2 (hcontains h) (hcontains hw) hsame)
      · rename_i hnone
        rw [if_neg]
        · exact h
        · rintro rfl
          exact Option.some_ne_none v (h.symm.trans hnone)

end

/-- The names that a renamed set consists of. -/
def outerNames (renames : Table String) (names : List String) : List String :=
  names.map (outerName renames)

/-- Whatever the outer names of a set are bound to, each name is bound to it after renaming back. -/
def Inverts (renames : Table String) (names : List String) : Prop :=
  ∀ b : Bindings, (∀ name, b.entries.contains name = true ↔ name ∈ outerNames renames names) →
    ∀ name ∈ names,
      (b.renamedBack renames).entries.get? name = b.entries.get? (outerName renames name)

/-- No name is renamed to an earlier one that is renamed itself. -/
def Upward (renames : Table String) : Prop :=
  ∀ inner outer, renames.get? inner = some outer → renames.contains outer = true → inner ≤ outer

section
variable {renames : Table String} {names : List String} {name : String}

theorem entries_renamedBack (b : Bindings) (renames : Table String) :
    (b.renamedBack renames).entries = renames.entries.foldl nameBack b.entries := rfl

/-- Bindings in which every outer name holds the name it stands for. -/
def signpost (renames : Table String) (names : List String) : Bindings :=
  ⟨"", .dependency, Table.ofList (names.map fun name => (outerName renames name, some (.str name)))⟩

theorem get?_signpost (distinct : (outerNames renames names).Nodup) {v : Option Value} :
    (signpost renames names).entries.get? name = some v ↔
      ∃ inner ∈ names, outerName renames inner = name ∧ v = some (.str inner) := by
  have hkeys : ((names.map fun name => (outerName renames name, some (Value.str name))).map
      (·.1)) = outerNames renames names := by
    simp [outerNames, Function.comp_def]
  show (Table.ofList _).get? name = some v ↔ _
  rw [Table.get?_ofList_eq_some_iff (hkeys ▸ distinct), List.mem_map]
  simp only [Prod.mk.injEq, eq_comm]

theorem inverts_iff_carried (distinct : (outerNames renames names).Nodup) :
    Inverts renames names ↔
      ∀ name ∈ names, carried renames.entries (outerName renames name) = name := by
  constructor
  · intro h name hname
    -- Where every entry holds its own inner name, the entry that comes back tells where it was.
    have hkeyed : ∀ other, (signpost renames names).entries.contains other = true ↔
        other ∈ outerNames renames names := by
      intro other
      rw [Table.contains_eq_true_iff, outerNames, List.mem_map]
      simp only [get?_signpost distinct]
      exact ⟨fun ⟨_, inner, hinner, heq, _⟩ => ⟨inner, hinner, heq⟩,
        fun ⟨inner, hinner, heq⟩ => ⟨_, inner, hinner, heq, rfl⟩⟩
    have hback := h (signpost renames names) hkeyed name hname
    rw [(get?_signpost distinct).mpr ⟨name, hname, rfl, rfl⟩, entries_renamedBack] at hback
    obtain ⟨before, hbefore, hcarried⟩ := origin_of_foldl hback
    obtain ⟨inner, -, rfl, heq⟩ := (get?_signpost distinct).mp hbefore
    cases heq
    exact hcarried
  · intro h b hkeyed name hname
    obtain ⟨v, hv⟩ := Table.contains_eq_true_iff.mp
      ((hkeyed (outerName renames name)).mpr (List.mem_map_of_mem hname))
    have happart : ∀ a c, b.entries.contains a = true → b.entries.contains c = true →
        carried renames.entries a = carried renames.entries c → a = c := by
      intro a c ha hc heq
      obtain ⟨n, hn, rfl⟩ := List.mem_map.mp ((hkeyed a).mp ha)
      obtain ⟨m, hm, rfl⟩ := List.mem_map.mp ((hkeyed c).mp hc)
      rw [h n hn, h m hm] at heq
      rw [heq]
    have hfound := get?_foldl_nameBack happart hv
    rwa [h name hname, ← entries_renamedBack, ← hv] at hfound

theorem carried_mem (l : List (String × String)) (name : String) :
    carried l name = name ∨ carried l name ∈ l.map (·.1) := by
  induction l generalizing name with
  | nil => exact Or.inl rfl
  | cons e rest ih =>
    rw [carried_cons, List.map_cons, List.mem_cons]
    split
    · exact (ih e.1).elim (fun heq => Or.inr (Or.inl heq)) fun hmem => Or.inr (Or.inr hmem)
    · exact (ih name).imp_right Or.inr

theorem carried_of_ne {l : List (String × String)} (h : ∀ e ∈ l, e.2 ≠ name) :
    carried l name = name := by
  induction l with
  | nil => rfl
  | cons e rest ih =>
    obtain ⟨he, hrest⟩ := List.forall_mem_cons.mp h
    rw [carried_cons, if_neg he.symm, ih hrest]

/-- A name that nothing is moved to stays where it is only if it is not moved. -/
theorem ne_of_carried {l : List (String × String)} (hkey : name ∉ l.map (·.1))
    (h : carried l name = name) : ∀ e ∈ l, e.2 ≠ name := by
  induction l with
  | nil => simp
  | cons e rest ih =>
    rw [List.map_cons, List.mem_cons, not_or] at hkey
    rw [carried_cons] at h
    split at h
    · rcases carried_mem rest e.1 with hstays | hmem
      · exact absurd (h.symm.trans hstays) hkey.1
      · exact absurd (h ▸ hmem) hkey.2
    · rename_i hne
      exact List.forall_mem_cons.mpr ⟨Ne.symm hne, ih hkey.2 h⟩

theorem carried_append (l m : List (String × String)) (name : String) :
    carried (l ++ m) name = carried m (carried l name) := List.foldl_append ..

/-- A renamed name gets its entry back unless a later name is renamed to it. -/
theorem carried_eq_iff (ascending : renames.Ascending) {outer : String}
    (h : renames.get? name = some outer)
    (alone : ∀ inner, renames.get? inner = some outer → inner = name) :
    carried renames.entries outer = name ↔
      ∀ inner, renames.get? inner = some name → inner ≤ name := by
  have hmem : ∀ {inner outer}, (inner, outer) ∈ renames.entries ↔ renames.get? inner = some outer :=
    ascending.get?_eq_some_iff.symm
  -- No move before its own takes the entry away; a later one does if it starts from its name.
  obtain ⟨before, after, hentries⟩ := List.append_of_mem (hmem.mpr h)
  have hpairwise := ascending
  rw [Table.Ascending, Table.keys, hentries, List.map_append, List.map_cons, List.pairwise_append,
    List.pairwise_cons] at hpairwise
  obtain ⟨-, ⟨hafter, -⟩, hbefore⟩ := hpairwise
  have hbelow : ∀ e ∈ before, e.1 < name := fun e he =>
    hbefore e.1 (List.mem_map_of_mem he) name List.mem_cons_self
  have habove : ∀ e ∈ after, name < e.1 := fun e he => hafter e.1 (List.mem_map_of_mem he)
  have hstays : carried before outer = outer := by
    refine carried_of_ne fun e he heq => ?_
    have hget := hmem.mp (hentries ▸ List.mem_append_left _ he)
    exact (hbelow e he).ne (alone e.1 (heq ▸ hget))
  have hkey : name ∉ after.map (·.1) := by
    intro hkey
    obtain ⟨e, he, heq⟩ := List.mem_map.mp hkey
    exact (habove e he).ne heq.symm
  rw [hentries, carried_append, hstays, carried_cons, if_pos rfl]
  constructor
  · intro hcarried inner hinner
    have hentry := hmem.mpr hinner
    rw [hentries, List.mem_append, List.mem_cons] at hentry
    rcases hentry with hbefore | heq | hafter
    · exact (hbelow _ hbefore).le
    · exact (Prod.mk.inj heq).1.le
    · exact absurd rfl (ne_of_carried hkey hcarried _ hafter)
  · intro hall
    refine carried_of_ne fun e he heq => ?_
    have hentry : e ∈ renames.entries := by
      rw [hentries]
      exact List.mem_append_right _ (List.mem_cons_of_mem _ he)
    have heq : e.2 = name := heq
    exact (habove e he).not_ge (hall e.1 (heq ▸ ascending.get?_eq_some_iff.mpr hentry))

/-- Where only names of the set are renamed, following them goes right exactly if no move comes upon
a name that still waits. -/
theorem carried_iff_upward (ascending : renames.Ascending)
    (distinct : (outerNames renames names).Nodup)
    (declared : ∀ inner ∈ renames.keys, inner ∈ names) :
    (∀ name ∈ names, carried renames.entries (outerName renames name) = name) ↔ Upward renames := by
  have hinj : ∀ {a b}, a ∈ names → b ∈ names → outerName renames a = outerName renames b → a = b :=
    fun ha hb => List.inj_on_of_nodup_map distinct ha hb
  have hdeclared : ∀ {inner outer}, renames.get? inner = some outer → inner ∈ names :=
    fun h => declared _ (Table.contains_iff_mem_keys.mp (Table.contains_eq_true_iff.mpr ⟨_, h⟩))
  have hrenamed : ∀ {inner outer}, renames.get? inner = some outer →
      outerName renames inner = outer := fun h => by simp [outerName, h]
  have halone : ∀ {name outer}, renames.get? name = some outer →
      ∀ inner, renames.get? inner = some outer → inner = name := fun h inner hinner =>
    hinj (hdeclared hinner) (hdeclared h) ((hrenamed hinner).trans (hrenamed h).symm)
  constructor
  · intro hall inner outer hinner hcontains
    obtain ⟨further, hfurther⟩ := Table.contains_eq_true_iff.mp hcontains
    have hcarried := hall outer (hdeclared hfurther)
    rw [hrenamed hfurther, carried_eq_iff ascending hfurther (halone hfurther)] at hcarried
    exact hcarried inner hinner
  · intro upward name hname
    cases h : renames.get? name with
    | some outer =>
      rw [hrenamed h, carried_eq_iff ascending h (halone h)]
      exact fun inner hinner =>
        upward inner name hinner (Table.contains_eq_true_iff.mpr ⟨outer, h⟩)
    | none =>
      have hself : outerName renames name = name := by simp [outerName, h]
      rw [hself]
      refine carried_of_ne fun e he heq => ?_
      have hentry : renames.get? e.1 = some name := heq ▸ ascending.get?_eq_some_iff.mpr he
      have hsame := hinj (hdeclared hentry) hname ((hrenamed hentry).trans hself.symm)
      rw [hsame, h] at hentry
      cases hentry

/-- Renaming back inverts renaming exactly if following each outer name through the moves ends at
its name. Where only names of the set are renamed, that is so exactly if no name is renamed to an
earlier one that is renamed itself; it is not if two names are swapped. -/
theorem inverts_iff (ascending : renames.Ascending) (distinct : (outerNames renames names).Nodup) :
    (Inverts renames names ↔
      ∀ name ∈ names, carried renames.entries (outerName renames name) = name) ∧
    ((∀ inner ∈ renames.keys, inner ∈ names) → (Inverts renames names ↔ Upward renames)) :=
  ⟨inverts_iff_carried distinct, fun declared =>
    (inverts_iff_carried distinct).trans (carried_iff_upward ascending distinct declared)⟩

end

/-- A net list that is handed on under the name of the packed one, and so on. -/
def chain : Table String := ⟨[("eblif", "net"), ("net", "packed_net")]⟩

/-- A chain that leads upward is undone. -/
theorem chain_inverts : chain.Ascending ∧ (outerNames chain ["eblif", "net", "sdc"]).Nodup ∧
    Inverts chain ["eblif", "net", "sdc"] := by
  have hascending : chain.Ascending := by
    unfold Table.Ascending
    decide
  have hdistinct : (outerNames chain ["eblif", "net", "sdc"]).Nodup := by decide
  refine ⟨hascending, hdistinct, ((inverts_iff hascending hdistinct).2 (by decide)).mpr ?_⟩
  intro inner outer h hcontains
  have hentry := Table.mem_of_get? h
  simp only [chain, List.mem_cons, Prod.mk.injEq, List.not_mem_nil, or_false] at hentry
  rcases hentry with ⟨rfl, rfl⟩ | ⟨rfl, rfl⟩
  · decide
  · exact absurd hcontains (by decide)

/-- Two directories under each other's names. -/
def swap : Table String := ⟨[("a", "b"), ("b", "a")]⟩

def swapped : Bindings := ⟨"mk", .output, ⟨[("a", some (.str "/y")), ("b", some (.str "/x"))]⟩⟩

/-- Of two names that are swapped, the first is moved onto the second, which takes it away again:
the first is bound to nothing, and what the second stood for is lost. -/
theorem swap_loses_entry : swap.Ascending ∧ (outerNames swap ["a", "b"]).Nodup ∧
    (∀ name, swapped.entries.contains name = true ↔ name ∈ outerNames swap ["a", "b"]) ∧
    swapped.entries.get? (outerName swap "a") = some (some (.str "/x")) ∧
    (swapped.renamedBack swap).entries.get? "a" = none ∧ ¬ Inverts swap ["a", "b"] := by
  have hkeyed : ∀ name, swapped.entries.contains name = true ↔
      name ∈ outerNames swap ["a", "b"] := by
    have hkeys : swapped.entries.keys.Perm (outerNames swap ["a", "b"]) := by decide
    exact fun name => Table.contains_iff_mem_keys.trans hkeys.mem_iff
  refine ⟨?_, by decide, hkeyed, by decide, by decide, fun inverts => ?_⟩
  · unfold Table.Ascending
    decide
  · exact absurd (inverts swapped hkeyed "a" (by decide)) (by decide)

end Modules.Renaming
end Toolflow
