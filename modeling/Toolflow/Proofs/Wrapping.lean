import Toolflow.Proofs.Lookups
import Toolflow.Proofs.Overlooking

/-! Modules that can be wrapped.

A wrapper shows the module inside an environment that is not its own, and lists the outputs under
other names. That is sound for a module that overlooks the names in which the environments differ
and places nothing but its products. Every builtin module is such a module, and so is a wrapper of
one, which settles wrappers of wrappers by induction. -/
namespace Toolflow

/-- A value in which every table lists its names in order. -/
inductive Value.Ordered : Value → Prop
  | intro {v : Value} (ascending : ∀ t, v.map? = some t → t.Ascending)
      (inside : ∀ t, v.map? = some t → ∀ e ∈ t.entries, e.2.Ordered) : v.Ordered

theorem Value.Ordered.parameter {params v : Value} (h : params.Ordered) {key : String}
    (hv : Parameters.get? params key = some v) : v.Ordered := by
  obtain ⟨-, inside⟩ := h
  obtain ⟨t, ht, hmem⟩ := mem_of_parameter hv
  exact inside t ht _ hmem

namespace Modules
variable {hidden : String → Prop} {ctx : Context}

/-- What a wrapper relies on: a module overlooks hidden names, and places only what it declares. -/
structure Wrappable (hidden : String → Prop) (m : ToolModule) : Prop where
  overlooks : m.Overlooks hidden
  places : ∀ ctx defaults, m.outputs ctx = .ok defaults →
    Renaming.Within (m.io.produces.map (·.name)) defaults

section
variable {m : ToolModule} {args : ModuleArgs} {names : List String}

theorem within_ofList {l : List (String × Value)} (h : ∀ e ∈ l, e.1 ∈ names) :
    Renaming.Within names (Table.ofList l) :=
  ⟨Table.ascending_ofList l, fun name v hv =>
    h (name, v) (Table.mem_of_mem_ofList (Table.mem_of_get? hv))⟩

/-- Outputs that are listed by name once something has been read. -/
theorem within_listed {α : Type} {x : Except Failure α} {l : α → List (String × Value)}
    (known : ∀ a, ∀ e ∈ l a, e.1 ∈ names) {defaults : ValueTable}
    (h : (do return Table.ofList (l (← x))) = .ok defaults) : Renaming.Within names defaults := by
  obtain ⟨a, -, h⟩ := bind_eq_ok.mp h
  cases h
  exact within_ofList (known a)

theorem within_map {α : Type} {t : Table α} (ascending : t.Ascending)
    (known : ∀ e ∈ t.entries, e.1 ∈ names) (f : α → Value) : Renaming.Within names (t.map f) := by
  refine ⟨?_, fun name v hv => ?_⟩
  · have hkeys : (t.map f).keys = t.keys := by simp [Table.keys, Table.map, Function.comp_def]
    rw [Table.Ascending, hkeys]
    exact ascending
  · obtain ⟨e, he, heq⟩ := List.mem_map.mp (Table.mem_of_get? hv)
    cases heq
    exact known e he

theorem Directories.wrappable (clear : args.params.Clear hidden) (ordered : args.params.Ordered)
    (h : Directories.make args = .ok m) : Wrappable hidden m := by
  have hdirs : ∀ dirs : ValueTable, (∀ e ∈ dirs.entries, e.2.Clear hidden) → dirs.Ascending →
      Wrappable hidden {
        io := {
          name := args.instanceName
          phases := dirs.size
          produces := dirs.keys.map .required }
        outputs := fun ctx => .ok (dirs.map ctx.env.resolve)
        execute := Directories.execute } := by
    intro dirs clear ascending
    refine ⟨⟨fun ctx env _ agree => ?_, fun _ _ _ _ => rfl⟩, fun ctx defaults hdefaults => ?_⟩
    · refine congrArg (fun entries => Except.ok (Table.mk entries))
        (List.map_congr_left fun e he => ?_)
      show (e.1, env.resolve e.2) = (e.1, ctx.env.resolve e.2)
      rw [agree.resolve (clear e he)]
    · cases hdefaults
      refine within_map ascending (fun e he => ?_) _
      rw [List.map_map]
      exact List.mem_map_of_mem (List.mem_map_of_mem he)
  unfold Directories.make at h
  split at h
  · cases h
    exact hdirs _ (fun e he => nomatch he) Table.ascending_empty
  · rename_i fields hparams
    cases h
    rw [hparams] at clear ordered
    obtain ⟨ascending, -⟩ := ordered
    exact hdirs _ (fun e he => clear.entry he) (ascending _ rfl)
  · cases h

theorem Synthesis.wrappable (setting : ¬ hidden "python3") (h : Synthesis.make args = .ok m) :
    Wrappable hidden m := by
  unfold Synthesis.make at h
  obtain ⟨takes, -, h⟩ := bind_eq_ok.mp h
  obtain ⟨extras, -, h⟩ := bind_eq_ok.mp h
  obtain ⟨-, -, h⟩ := bind_eq_ok.mp h
  cases h
  refine ⟨⟨fun _ _ _ _ => rfl, fun ctx env clear agree =>
    Synthesis.execute_beyond clear agree setting⟩, fun ctx defaults hdefaults => ?_⟩
  obtain ⟨base, -, hdefaults⟩ := bind_eq_ok.mp hdefaults
  obtain ⟨device, -, hdefaults⟩ := bind_eq_ok.mp hdefaults
  cases hdefaults
  refine within_ofList fun e he => ?_
  show e.1 ∈ (((Synthesis.baseInterface args.instanceName).produces ++ extras).map (·.name))
  rw [List.map_append, List.mem_append]
  obtain ⟨⟨name, path⟩, hname, rfl⟩ := List.mem_map.mp he
  rcases List.mem_append.mp hname with hown | hextra
  · exact .inl (List.mem_map_of_mem (f := (·.1)) hown)
  · refine .inr ?_
    obtain ⟨extra, hmapped, heq⟩ := List.mem_map.mp hextra
    cases heq
    obtain ⟨d, hd, rfl⟩ := List.mem_map.mp hmapped
    exact List.mem_map_of_mem (List.mem_of_mem_filter hd)

theorem Script.wrappable (clear : args.params.Clear hidden) (h : Script.make args = .ok m) :
    Wrappable hidden m := by
  unfold Script.make at h
  obtain ⟨s, hparse, h⟩ := bind_eq_ok.mp h
  obtain ⟨name, -, h⟩ := bind_eq_ok.mp h
  cases h
  have hread := Script.Job.readFrom_of_parse hparse
  have hclear := hread.clear clear
  refine ⟨⟨fun ctx env _ agree => ?_, fun ctx env _ agree => ?_⟩, fun ctx defaults hdefaults => ?_⟩
  · exact congrArg Except.ok (Script.Job.defaults_beyond hclear agree)
  · exact Script.Job.execute_beyond hclear agree
  cases hdefaults
  refine within_map hread.outputs_entries.1 (fun e he => ?_) _
  show e.1 ∈ (s.outputs.entries.map fun e =>
    if e.2.isOptional then Declared.optional e.1 else .required e.1).map (·.name)
  rw [List.map_map]
  refine List.mem_map.mpr ⟨e, he, ?_⟩
  dsimp only [Function.comp]
  split <;> rfl

variable (settings : ∀ name ∈ settingNames, ¬ hidden name)

include settings

theorem Packing.wrappable (h : Packing.make args = .ok m) : Wrappable hidden m := by
  cases h
  refine ⟨overlooks_of_settings settings (fun _ _ => rfl) fun _ _ => Packing.execute_settings,
    fun ctx defaults => within_listed fun eblif => ?_⟩
  simp [Packing.interface, Interface.describing, Declared.required, Declared.onDemand]

theorem Placement.wrappable (h : Placement.make args = .ok m) : Wrappable hidden m := by
  cases h
  refine ⟨overlooks_of_settings settings (fun _ _ => rfl) fun _ _ => Placement.execute_settings,
    fun ctx defaults => within_listed fun eblif => ?_⟩
  simp [Placement.interface, Interface.describing, Declared.required]

theorem Routing.wrappable (h : Routing.make args = .ok m) : Wrappable hidden m := by
  cases h
  refine ⟨overlooks_of_settings settings (fun _ _ => rfl) fun _ _ => Routing.execute_settings,
    fun ctx defaults => within_listed fun eblif => ?_⟩
  simp [Routing.interface, Interface.describing, Declared.required]

theorem Timing.wrappable (h : Timing.make args = .ok m) : Wrappable hidden m := by
  cases h
  refine ⟨overlooks_of_settings settings (fun _ _ => rfl) fun _ _ => Timing.execute_settings,
    fun ctx defaults => within_listed fun eblif => ?_⟩
  simp [Timing.interface, Timing.netlists, Interface.describing, Declared.required]

theorem Constraints.wrappable (h : Constraints.make args = .ok m) : Wrappable hidden m := by
  cases h
  refine ⟨overlooks_of_settings settings (fun _ _ => rfl) fun _ _ => Constraints.execute_settings,
    fun ctx defaults => within_listed fun net => ?_⟩
  simp [Constraints.interface, Interface.describing, Declared.required]

omit settings

theorem Assembly.wrappable (h : Assembly.make args = .ok m) : Wrappable hidden m := by
  cases h
  refine ⟨⟨fun _ _ _ _ => rfl, fun _ _ _ _ => rfl⟩, fun ctx defaults => within_listed fun fasm => ?_⟩
  simp [Assembly.interface, Interface.describing, Declared.required]

theorem PlaceAndRoute.wrappable (h : PlaceAndRoute.make args = .ok m) : Wrappable hidden m := by
  unfold PlaceAndRoute.make at h
  obtain ⟨setup, -, h⟩ := bind_eq_ok.mp h
  cases h
  refine ⟨⟨fun _ _ _ _ => rfl, fun _ _ _ _ => rfl⟩, fun ctx defaults => within_listed fun netlist => ?_⟩
  simp [PlaceAndRoute.Setup.interface, Interface.describing,
    Declared.onDemand]

/-- A table given its inner names back holds nothing new. -/
theorem Renaming.get?_nameBack {l : List (String × String)} {entries : Table (Option Value)}
    {name : String} {v : Option Value} (h : (l.foldl nameBack entries).get? name = some v) :
    ∃ outer, entries.get? outer = some v := by
  induction l generalizing entries with
  | nil => exact ⟨name, h⟩
  | cons e rest ih =>
    obtain ⟨outer, houter⟩ := ih h
    unfold nameBack at houter
    cases hfound : entries.get? e.2 with
    | none =>
      rw [hfound] at houter
      exact ⟨outer, houter⟩
    | some w =>
      rw [hfound] at houter
      dsimp only at houter
      rw [Table.get?_insert, Table.get?_erase] at houter
      split at houter
      · exact ⟨e.2, houter ▸ hfound⟩
      · split at houter
        · cases houter
        · exact ⟨outer, houter⟩

theorem Renaming.clear_innerView (r : Renaming.Renames) (h : ctx.Clear hidden) :
    (r.innerView ctx).Clear hidden := by
  intro name v hv
  obtain ⟨outer, houter⟩ := get?_nameBack (Option.join_eq_some_iff.mp hv)
  exact h outer v (Option.join_eq_some_iff.mpr houter)

/-- A wrapper overlooks what the module inside overlooks. -/
theorem Wrappable.wrap (h : Wrappable hidden m) (r : Renaming.Renames) (name : String) :
    Wrappable hidden (r.wrap name m) := by
  refine ⟨⟨fun ctx env clear agree => ?_, fun ctx env clear agree => ?_⟩,
    fun ctx defaults hdefaults => ?_⟩
  · have hclear := Renaming.clear_innerView r clear
    have hinner := h.overlooks.outputs (r.innerView ctx) env hclear agree
    exact congrArg (fun found => found >>= fun defaults =>
      Except.ok (Renaming.renameKeys r.produces defaults)) hinner
  · have hclear := Renaming.clear_innerView r clear
    have hinner := h.overlooks.execute (r.innerView ctx) env hclear agree
    exact funext fun progress => congrFun hinner progress
  · obtain ⟨inner, hinner, hdefaults⟩ := bind_eq_ok.mp hdefaults
    cases hdefaults
    refine within_ofList fun e he => ?_
    obtain ⟨⟨product, v⟩, hentry, rfl⟩ := List.mem_map.mp he
    have hwithin := h.places _ _ hinner
    obtain ⟨d, hd, hname⟩ := List.mem_map.mp
      (hwithin.known product v (hwithin.ascending.get?_eq_some_iff.mpr hentry))
    refine List.mem_map.mpr ⟨Renaming.renameDeclared r.produces d, List.mem_map_of_mem hd, ?_⟩
    rw [Renaming.name_renameDeclared, hname]
    rfl

end
end Modules

namespace Registry

/-- Every factory that a registry can answer with satisfies `P`. -/
structure All (P : Factory → Prop) (r : Registry) : Prop where
  loaded : r.loaded = .empty
  registered : ∀ collection modules name factory, r.collections.get? collection = some modules →
    modules.get? name = some factory → P factory

theorem All.register {P : Factory → Prop} {r : Registry} (h : r.All P) {factory : Factory}
    (hfactory : P factory) (collection name : String) :
    (r.register collection name factory).All P := by
  refine ⟨h.loaded, fun c modules n f hmodules hf => ?_⟩
  unfold Registry.register at hmodules
  dsimp only at hmodules
  rw [Table.get?_insert] at hmodules
  split at hmodules
  · cases hmodules
    rw [Table.get?_insert] at hf
    split at hf
    · cases hf
      exact hfactory
    · cases hcollection : r.collections.get? collection with
      | none =>
        rw [hcollection] at hf
        cases hf
      | some known =>
        rw [hcollection] at hf
        exact h.registered collection known n f hcollection hf
  · exact h.registered c modules n f hmodules hf

theorem All.answer {P : Factory → Prop} {r : Registry} (h : r.All P) {text : String}
    {factory : Factory} (hanswer : r.answer text = .ok factory) : P factory := by
  obtain ⟨reference, -, hanswer⟩ := bind_eq_ok.mp hanswer
  rw [h.loaded] at hanswer
  dsimp only [Table.get?_empty] at hanswer
  unfold Registry.registered at hanswer
  split at hanswer
  · cases hanswer
  · rename_i modules hmodules
    split at hanswer
    · rename_i hfound
      cases hanswer
      exact h.registered _ modules _ _ hmodules hfound
    · cases hanswer

/-- The engine's registry answers with the engine's factories. -/
theorem builtin_answer {text : String} {factory : Factory}
    (h : builtin.answer text = .ok factory) : ∃ name, (name, factory) ∈ commonModules := by
  have hall : ∀ (l : List (String × Factory)) {r : Registry}, l ⊆ commonModules →
      r.All (fun factory => ∃ name, (name, factory) ∈ commonModules) →
      (l.foldl (fun r e => r.register "common" e.1 e.2) r).All
        fun factory => ∃ name, (name, factory) ∈ commonModules := by
    intro l
    induction l with
    | nil => exact fun _ h => h
    | cons e rest ih =>
      intro r hsub h
      obtain ⟨he, hrest⟩ := List.cons_subset.mp hsub
      exact ih hrest (h.register ⟨e.1, he⟩ _ _)
  have hempty : empty.All fun factory => ∃ name, (name, factory) ∈ commonModules :=
    ⟨rfl, fun _ _ _ _ hmodules => by cases hmodules⟩
  exact (hall commonModules (List.Subset.refl _) hempty).answer h

end Registry

section
variable {hidden : String → Prop} {m : ToolModule}

theorem during_eq_ok {α : Type} {activity : Activity} {x : Except Failure α} {a : α} :
    during activity x = .ok a ↔ x = .ok a := by
  cases x with
  | ok b => rfl
  | error cause => exact ⟨nofun, nofun⟩

/-- The parameters of a wrapped module lie inside those of its wrapper. -/
theorem Modules.Renaming.wrapped_params {args : ModuleArgs} {reference : String} {params : Value}
    (h : wrapped args = .ok (reference, params)) :
    params = .null ∨ Parameters.get? args.params "params" = some params := by
  unfold wrapped at h
  obtain ⟨found, -, h⟩ := bind_eq_ok.mp h
  split at h
  · cases h
    cases hparams : Parameters.get? args.params "params" with
    | none => exact .inl rfl
    | some params => exact .inr rfl
  · cases h

/-- A module that a registry makes is made from the registry's answers. -/
theorem Registry.made_of_instantiate {registry after : Registry} {reference : String}
    {args : ModuleArgs} (h : registry.instantiate reference args = .ok (m, after)) :
    Registry.made (args.params.depth + 2) registry.answer reference args = .ok m := by
  have hcomputes := registry.computes_instantiateWithin (args.params.depth + 2) reference args
  rw [Registry.instantiate] at h
  rw [h] at hcomputes
  generalize Registry.made (args.params.depth + 2) registry.answer reference args = x at hcomputes
  cases hcomputes
  rfl

open Modules in
/-- Every module of the engine, wrappers of wrappers included, can be wrapped. -/
theorem Registry.wrappable_made {fuel : Nat} {reference : String} {args : ModuleArgs}
    (settings : ∀ name ∈ settingNames, ¬ hidden name) (clear : args.params.Clear hidden)
    (ordered : args.params.Ordered)
    (h : Registry.made fuel Registry.builtin.answer reference args = .ok m) :
    Wrappable hidden m := by
  induction fuel generalizing reference args m with
  | zero => cases h
  | succ fuel ih =>
    obtain ⟨factory, hfactory, h⟩ := bind_eq_ok.mp h
    rw [during_eq_ok] at h
    obtain ⟨name, hmem⟩ := Registry.builtin_answer hfactory
    have hpython : ¬ hidden "python3" := settings _ (by decide)
    simp only [Registry.commonModules, List.mem_cons, Prod.mk.injEq, List.not_mem_nil,
      or_false] at hmem
    rcases hmem with ⟨-, rfl⟩ | ⟨-, rfl⟩ | ⟨-, rfl⟩ | ⟨-, rfl⟩ | ⟨-, rfl⟩ | ⟨-, rfl⟩ | ⟨-, rfl⟩ |
      ⟨-, rfl⟩ | ⟨-, rfl⟩ | ⟨-, rfl⟩ | ⟨-, rfl⟩
    · exact Directories.wrappable clear ordered h
    · exact Synthesis.wrappable hpython h
    · obtain ⟨⟨inside, params⟩, hwrapped, h⟩ := bind_eq_ok.mp h
      obtain ⟨inner, hinner, h⟩ := bind_eq_ok.mp h
      obtain ⟨takes, -, h⟩ := bind_eq_ok.mp h
      obtain ⟨produces, -, h⟩ := bind_eq_ok.mp h
      obtain ⟨values, -, h⟩ := bind_eq_ok.mp h
      cases h
      refine (ih ?_ ?_ hinner).wrap _ _
      · rcases Renaming.wrapped_params hwrapped with rfl | hparams
        · exact fun _ hname => nomatch hname
        · exact clear.parameter hparams
      · rcases Renaming.wrapped_params hwrapped with rfl | hparams
        · exact ⟨nofun, nofun⟩
        · exact ordered.parameter hparams
    · exact Script.wrappable clear h
    · exact Packing.wrappable settings h
    · exact Constraints.wrappable settings h
    · exact Placement.wrappable settings h
    · exact Routing.wrappable settings h
    · exact Assembly.wrappable h
    · exact Timing.wrappable settings h
    · exact PlaceAndRoute.wrappable h

end
end Toolflow
