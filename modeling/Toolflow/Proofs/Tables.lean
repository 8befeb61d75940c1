import Mathlib.Data.String.Basic
import Toolflow.Table

/-! Tables whose names ascend.

Such a table is determined by its look-ups, and a look-up answers exactly the entry that is listed.
Everything built from `empty` by the operations of the library ascends. -/
namespace Toolflow.Table

universe u
variable {α β : Type u}

theorem mem_of_lookup {name : String} {a : α} {l : List (String × α)}
    (h : lookup name l = some a) : (name, a) ∈ l := by
  induction l with
  | nil => simp [lookup] at h
  | cons e rest ih =>
    obtain ⟨n, b⟩ := e
    by_cases hn : n = name
    · subst hn
      have heq : b = a := by simpa [lookup] using h
      rw [heq]
      exact List.mem_cons_self
    · have htail : lookup name rest = some a := by simpa [lookup, hn] using h
      exact List.mem_cons_of_mem _ (ih htail)

theorem mem_of_get? {t : Table α} {name : String} {a : α} (h : t.get? name = some a) :
    (name, a) ∈ t.entries := mem_of_lookup h

theorem lookup_of_mem {name : String} {a : α} {l : List (String × α)}
    (ascending : (l.map (·.1)).Pairwise (· < ·)) (h : (name, a) ∈ l) :
    lookup name l = some a := by
  induction l with
  | nil => cases h
  | cons e rest ih =>
    obtain ⟨n, b⟩ := e
    rw [List.map_cons, List.pairwise_cons] at ascending
    rcases List.mem_cons.mp h with heq | htail
    · cases heq
      simp [lookup]
    · have hlt : n < name := ascending.1 name (List.mem_map_of_mem htail)
      simp only [lookup, if_neg (ne_of_lt hlt)]
      exact ih ascending.2 htail

theorem Ascending.get?_eq_some_iff {t : Table α} (h : t.Ascending) {name : String} {a : α} :
    t.get? name = some a ↔ (name, a) ∈ t.entries :=
  ⟨mem_of_get?, lookup_of_mem h⟩

theorem contains_eq_true_iff {t : Table α} {name : String} :
    t.contains name = true ↔ ∃ a, t.get? name = some a := by
  unfold contains
  exact Option.isSome_iff_exists

theorem contains_insert (t : Table α) (name other : String) (a : α) :
    (t.insert name a).contains other = true ↔ other = name ∨ t.contains other = true := by
  unfold contains
  rw [get?_insert]
  split <;> simp [*]

theorem contains_iff_mem_keys {t : Table α} {name : String} :
    t.contains name = true ↔ name ∈ t.keys := by
  obtain ⟨l⟩ := t
  simp only [contains, get?, keys]
  induction l with
  | nil => simp [lookup]
  | cons e rest ih =>
    obtain ⟨n, a⟩ := e
    by_cases hn : n = name
    · simp [lookup, hn]
    · simpa [lookup, hn, Ne.symm hn] using ih

theorem ascending_empty : (empty : Table α).Ascending := List.Pairwise.nil

theorem mem_place {name : String} {a : α} {e : String × α} {l : List (String × α)}
    (h : e ∈ place name a l) : e = (name, a) ∨ e ∈ l := by
  induction l with
  | nil => simpa [place] using h
  | cons f rest ih =>
    obtain ⟨n, b⟩ := f
    simp only [place] at h
    split at h
    · rcases List.mem_cons.mp h with heq | htail
      · exact Or.inl heq
      · exact Or.inr (List.mem_cons_of_mem _ htail)
    · split at h
      · exact List.mem_cons.mp h
      · rcases List.mem_cons.mp h with heq | htail
        · exact Or.inr (heq ▸ List.mem_cons_self)
        · exact (ih htail).imp_right (List.mem_cons_of_mem _)

theorem ascending_place (name : String) (a : α) {l : List (String × α)}
    (h : (l.map (·.1)).Pairwise (· < ·)) :
    ((place name a l).map (·.1)).Pairwise (· < ·) := by
  induction l with
  | nil => simp [place]
  | cons e rest ih =>
    obtain ⟨n, b⟩ := e
    rw [List.map_cons, List.pairwise_cons] at h
    simp only [place]
    split
    · rename_i heq
      subst heq
      exact List.pairwise_cons.mpr h
    · rename_i hne
      split
      · rename_i hlt
        refine List.pairwise_cons.mpr ⟨?_, List.pairwise_cons.mpr h⟩
        intro m hm
        rcases List.mem_cons.mp hm with rfl | hm
        · exact hlt
        · exact lt_trans hlt (h.1 m hm)
      · rename_i hnlt
        have hlt : n < name := lt_of_le_of_ne (le_of_not_gt hnlt) hne
        refine List.pairwise_cons.mpr ⟨?_, ih h.2⟩
        intro m hm
        obtain ⟨e, he, rfl⟩ := List.mem_map.mp hm
        rcases mem_place he with rfl | he
        · exact hlt
        · exact h.1 e.1 (List.mem_map_of_mem he)

theorem Ascending.insert {t : Table α} (h : t.Ascending) (name : String) (a : α) :
    (t.insert name a).Ascending := ascending_place name a h

theorem Ascending.erase {t : Table α} (h : t.Ascending) (name : String) :
    (t.erase name).Ascending :=
  List.Pairwise.sublist (List.filter_sublist.map _) h

theorem Ascending.filterMap {t : Table α} (h : t.Ascending) (f : String → α → Option β) :
    (t.filterMap f).Ascending := by
  have hnames : ((t.filterMap f).keys).Sublist t.keys := by
    obtain ⟨l⟩ := t
    simp only [Table.filterMap, keys]
    clear h
    induction l with
    | nil => simp
    | cons e rest ih =>
      obtain ⟨n, a⟩ := e
      cases hf : f n a with
      | none => simpa [List.filterMap_cons, hf] using List.Sublist.cons n ih
      | some b => simpa [List.filterMap_cons, hf] using ih
  exact List.Pairwise.sublist hnames h

theorem Ascending.get?_filterMap {t : Table α} (h : t.Ascending) (f : String → α → Option β)
    (name : String) : (t.filterMap f).get? name = (t.get? name).bind (f name) := by
  ext b
  rw [(h.filterMap f).get?_eq_some_iff, Option.bind_eq_some_iff]
  constructor
  · intro hb
    obtain ⟨⟨n, a⟩, ha, hf⟩ := List.mem_filterMap.mp hb
    obtain ⟨c, hc, heq⟩ := Option.map_eq_some_iff.mp hf
    cases heq
    exact ⟨a, h.get?_eq_some_iff.mpr ha, hc⟩
  · rintro ⟨a, ha, hf⟩
    exact List.mem_filterMap.mpr ⟨(name, a), mem_of_get? ha, by simp [hf]⟩

theorem get?_map (t : Table α) (f : α → β) (name : String) :
    (t.map f).get? name = (t.get? name).map f := by
  obtain ⟨entries⟩ := t
  show lookup name (entries.map fun e => (e.1, f e.2)) = (lookup name entries).map f
  induction entries with
  | nil => rfl
  | cons e rest ih =>
    rw [List.map_cons, lookup, lookup, ih]
    split <;> rfl

/-- Two ascending tables with the same look-ups are equal. -/
theorem Ascending.ext {t s : Table α} (ht : t.Ascending) (hs : s.Ascending)
    (h : ∀ name, t.get? name = s.get? name) : t = s := by
  have hmem : ∀ e, e ∈ t.entries ↔ e ∈ s.entries := by
    rintro ⟨name, a⟩
    rw [← ht.get?_eq_some_iff, h, hs.get?_eq_some_iff]
  have hpt : t.entries.Pairwise (fun d e => d.1 < e.1) := List.pairwise_map.mp ht
  have hps : s.entries.Pairwise (fun d e => d.1 < e.1) := List.pairwise_map.mp hs
  have hperm : t.entries.Perm s.entries :=
    (List.perm_ext_iff_of_nodup (hpt.imp fun hlt heq => absurd hlt (by simp [heq]))
      (hps.imp fun hlt heq => absurd hlt (by simp [heq]))).mpr hmem
  obtain ⟨l⟩ := t
  obtain ⟨m⟩ := s
  congr 1
  exact hperm.eq_of_pairwise (fun d e _ _ hde hed => absurd hed (lt_asymm hde)) hpt hps

theorem lookup_eq_none_of_lt {name : String} {l : List (String × α)}
    (h : ∀ n ∈ l.map (·.1), name < n) : lookup name l = none := by
  by_contra hsome
  obtain ⟨found, hfound⟩ := Option.ne_none_iff_exists'.mp hsome
  exact lt_irrefl name (h name (List.mem_map_of_mem (mem_of_lookup hfound)))

theorem ascending_ofList (l : List (String × α)) : (ofList l).Ascending := by
  have hfold : ∀ (l : List (String × α)) (t : Table α), t.Ascending →
      (l.foldl (fun t e => t.insert e.1 e.2) t).Ascending := by
    intro l
    induction l with
    | nil => exact fun _ h => h
    | cons e rest ih => exact fun t h => ih _ (h.insert _ _)
  exact hfold l empty ascending_empty

theorem mem_of_mem_ofList {l : List (String × α)} {e : String × α} (h : e ∈ (ofList l).entries) :
    e ∈ l := by
  have hfold : ∀ (l : List (String × α)) (t : Table α),
      e ∈ (l.foldl (fun t e => t.insert e.1 e.2) t).entries → e ∈ l ∨ e ∈ t.entries := by
    intro l
    induction l with
    | nil => exact fun _ h => Or.inr h
    | cons f rest ih =>
      intro t h
      rcases ih _ h with hrest | hinsert
      · exact Or.inl (List.mem_cons_of_mem _ hrest)
      · exact (mem_place hinsert).imp_left fun (heq : e = f) => heq ▸ List.mem_cons_self
  exact (hfold l empty h).resolve_right (by simp [empty])

theorem contains_of_ofList {t : Table α} {name : String}
    (h : (ofList t.entries).contains name = true) : t.contains name = true := by
  obtain ⟨a, ha⟩ := contains_eq_true_iff.mp h
  have hmem := mem_of_mem_ofList (mem_of_get? ha)
  exact contains_iff_mem_keys.mpr (List.mem_map.mpr ⟨_, hmem, rfl⟩)

theorem place_eq_append {name : String} {a : α} {l : List (String × α)}
    (h : ∀ e ∈ l, e.1 < name) : place name a l = l ++ [(name, a)] := by
  induction l with
  | nil => rfl
  | cons e rest ih =>
    obtain ⟨hfirst, hrest⟩ := List.forall_mem_cons.mp h
    rw [place, if_neg hfirst.ne, if_neg (lt_asymm hfirst), ih hrest, List.cons_append]

/-- A table whose names ascend is built again from its entries. -/
theorem Ascending.ofList_entries {t : Table α} (h : t.Ascending) : ofList t.entries = t := by
  have hfold : ∀ l m : List (String × α), ((l ++ m).map (·.1)).Pairwise (· < ·) →
      m.foldl (fun t e => t.insert e.1 e.2) ⟨l⟩ = (⟨l ++ m⟩ : Table α) := by
    intro l m
    induction m generalizing l with
    | nil => simp
    | cons e rest ih =>
      intro hpairwise
      have hbelow : ∀ d ∈ l, d.1 < e.1 := by
        rw [List.map_append, List.pairwise_append] at hpairwise
        exact fun d hd => hpairwise.2.2 d.1 (List.mem_map_of_mem hd) e.1 (by simp)
      rw [List.append_cons] at hpairwise
      rw [List.foldl_cons, Table.insert, place_eq_append hbelow, ih _ hpairwise, List.append_assoc]
      rfl
  exact hfold [] t.entries h

section Collecting
variable {γ : Type u} {f : Table α → γ → Table α} {key : γ → String} {find : γ → Option α}

/-- Looking up in a table of what `find` answers for each item of a list. -/
theorem get?_foldl_insert (hf : ∀ t c, f t c = (find c).elim t (t.insert (key c)))
    (agree : ∀ c d, key c = key d → find c = find d) (l : List γ) (t : Table α) (name : String) :
    (l.foldl f t).get? name = ((l.find? (key · = name)).bind find).or (t.get? name) := by
  induction l generalizing t with
  | nil => simp
  | cons c rest ih =>
    rw [List.foldl_cons, ih, hf]
    by_cases hc : key c = name
    · have hlater : ∀ d, rest.find? (key · = name) = some d → find d = find c := by
        intro d hd
        have hkey : key d = name := by simpa using List.find?_some hd
        exact agree d c (hkey.trans hc.symm)
      cases hrest : rest.find? (key · = name) with
      | none => cases hfind : find c <;> simp [hc, hfind]
      | some d =>
        have hfd := hlater d hrest
        cases hfind : find c <;> simp [hc, hfind, hfd]
    · have hne : name ≠ key c := fun heq => hc heq.symm
      cases hfind : find c with
      | none => simp [hc]
      | some a => simp [hc, get?_insert_of_ne _ _ hne]

theorem ascending_foldl_insert (hf : ∀ t c, f t c = (find c).elim t (t.insert (key c)))
    (l : List γ) {t : Table α} (h : t.Ascending) : (l.foldl f t).Ascending := by
  induction l generalizing t with
  | nil => exact h
  | cons c rest ih =>
    rw [List.foldl_cons, hf]
    apply ih
    cases find c with
    | none => exact h
    | some a => exact h.insert _ _

end Collecting
end Toolflow.Table

namespace Toolflow.NameSet

theorem contains_union {s : NameSet} {names : List String} {name : String} :
    (union s names).contains name = true ↔ name ∈ names ∨ s.contains name = true := by
  unfold union
  induction names generalizing s with
  | nil => simp
  | cons n rest ih =>
    rw [List.foldl_cons, ih, add, Table.contains_insert, List.mem_cons]
    tauto

theorem mem_keys_ofList {names : List String} {name : String} :
    name ∈ (ofList names).keys ↔ name ∈ names := by
  have hunion : (union Table.empty names).contains name = true ↔ _ := contains_union
  rw [← Table.contains_iff_mem_keys]
  exact hunion.trans (by simp [Table.contains])

end Toolflow.NameSet
