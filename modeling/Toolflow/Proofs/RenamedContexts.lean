import Toolflow.Proofs.PathVariables
import Toolflow.Proofs.Wrapping

/-! Contexts under other names.

A wrapper that is given under outer names what the module inside is given under its own binds the
same values, and its environment differs in renamed values and in path variables of renamed takes
alone. So as long as no text refers to one of those, its context is that of the module inside under
outer names, and the module inside gets its own names back. -/
namespace Toolflow

namespace Environment
variable {key : String}

/-- The takes of a table that have a path variable. -/
def havingVariable (key : String) (t : ValueTable) : ValueTable :=
  t.filterMap fun name v => if key ∈ pathVariables name then some v else none

/-- A path variable depends on the takes that have it, in their order. -/
theorem get?_foldl_havingVariable {cwd : String} {t : ValueTable} {env other : Environment}
    (h : env.get? key = other.get? key) :
    (t.entries.foldl (fun (env : Environment) (name, v) => env.addPathVariants cwd name v)
      env).get? key =
    ((havingVariable key t).entries.foldl
      (fun (env : Environment) (name, v) => env.addPathVariants cwd name v) other).get? key := by
  obtain ⟨l⟩ := t
  unfold havingVariable Table.filterMap
  dsimp only
  induction l generalizing env other with
  | nil => exact h
  | cons e rest ih =>
    by_cases hkey : key ∈ pathVariables e.1
    · simp only [List.foldl_cons, List.filterMap_cons, if_pos hkey, Option.map_some]
      refine ih ?_
      rw [get?_addPathVariants env, get?_addPathVariants other, if_pos hkey, if_pos hkey]
    · simp only [List.foldl_cons, List.filterMap_cons, if_neg hkey, Option.map_none]
      refine ih ?_
      rw [get?_addPathVariants, if_neg hkey, h]

end Environment

namespace Context

/-- The inputs of a stage, all bound at once. -/
def assembled (io : Interface) (stage : String) (inputs : StageInputs) (env : Environment)
    (roots : Roots) (disk : Disk) : Context where
  stage := stage
  takes := boundTakes io stage inputs env disk
  produces := io.produces.foldl (fun (b : Bindings) d =>
    b.set d.name (((inputs.produces.get? d.name).bind Value.present?).map env.resolve))
    (.empty stage .output)
  outputs := .empty stage .output
  values := io.values.foldl (fun b d => b.set d.name (offer env.get? env (fun _ => true) d))
    (.empty stage .value)
  env := (boundTakes io stage inputs env disk).bound.entries.foldl
    (fun (env : Environment) (name, v) => env.addPathVariants disk.cwd name v) env
  roots := roots

/-- No required take and no required value is missing. -/
structure Provided (io : Interface) (inputs : StageInputs) (env : Environment) : Prop where
  takes : ∀ d ∈ io.takes,
    ¬ (d.isRequired = true ∧ (inputs.takes.get? d.name).bind Value.present? = none)
  values : ∀ d ∈ io.values,
    ¬ (d.isRequired = true ∧ (env.get? d.name).bind Value.present? = none)

variable {io : Interface} {stage : String} {inputs : StageInputs} {env : Environment}
  {roots : Roots} {disk : Disk} {ctx : Context}

theorem ofInputs_eq_ok_iff :
    ofInputs io stage inputs env roots disk = .ok ctx ↔
      Provided io inputs env ∧ ctx = assembled io stage inputs env roots disk := by
  unfold ofInputs
  simp only [bind_eq_ok, foldlM_bindDeclared]
  constructor
  · rintro ⟨_, ⟨htakes, rfl⟩, _, ⟨hvalues, rfl⟩, h⟩
    cases h
    exact ⟨⟨htakes, hvalues⟩, rfl⟩
  · rintro ⟨⟨htakes, hvalues⟩, rfl⟩
    exact ⟨_, ⟨htakes, rfl⟩, _, ⟨hvalues, rfl⟩, rfl⟩

/-- What the outputs of a context have to be. -/
theorem bindOutputs_eq_ok_iff {defaults : ValueTable} {demanded : NameSet} {cwd : String}
    {l : List Declared} {b outputs : Bindings} :
    l.foldlM (ctx.bindOutput defaults demanded cwd) b = .ok outputs ↔
      (∀ d ∈ l, ¬ (d.isRequired = true ∧ ctx.outputPath defaults demanded d = none)) ∧
        outputs = l.foldl (fun b d => b.set d.name
          ((ctx.outputPath defaults demanded d).map (Value.absolute cwd))) b :=
  foldlM_set (bindOutput_eq ctx defaults demanded cwd)

/-- The parts of a context that is built. -/
theorem build_assembled_iff {m : ToolModule} :
    build m stage inputs env roots disk = .ok ctx ↔
      Provided m.io inputs env ∧ ∃ defaults outputs,
        m.outputs (assembled m.io stage inputs env roots disk) = .ok defaults ∧
        m.io.produces.foldlM ((assembled m.io stage inputs env roots disk).bindOutput defaults
          inputs.demanded disk.cwd) (.empty stage .output) = .ok outputs ∧
        (assembled m.io stage inputs env roots disk).takes.checkResolved = .ok () ∧
        outputs.checkResolved = .ok () ∧
        ctx = { assembled m.io stage inputs env roots disk with outputs } := by
  simp only [build_eq_ok_iff, ofInputs_eq_ok_iff]
  constructor
  · rintro ⟨_, defaults, outputs, ⟨hgiven, rfl⟩, hrest⟩
    exact ⟨hgiven, defaults, outputs, hrest⟩
  · rintro ⟨hgiven, defaults, outputs, hrest⟩
    exact ⟨_, defaults, outputs, ⟨hgiven, rfl⟩, hrest⟩

end Context

namespace Modules.Renaming

/-- The names under which a wrapped module finds something else in its environment than it would by
itself: renamed values and path variables of renamed takes, under either name. -/
def Renames.touched (r : Renames) : List String :=
  (r.values.entries.flatMap fun (inner, outer) => [inner, outer]) ++
    r.takes.entries.flatMap fun (inner, outer) => pathVariables inner ++ pathVariables outer

/-- A name that the renaming touches. -/
def Renames.Hidden (r : Renames) (name : String) : Prop := name ∈ r.touched

instance (r : Renames) : DecidablePred r.Hidden := fun name =>
  inferInstanceAs (Decidable (name ∈ r.touched))

instance (r : Renames) (v : Value) : Decidable (v.Clear r.Hidden) :=
  inferInstanceAs (Decidable (∀ name ∈ Reference.namesIn v, ¬ r.Hidden name))

/-- Each table of the renaming tells the names of a module apart. -/
structure Renames.Apart (r : Renames) (io : Interface) : Prop where
  takes : Renaming.Apart r.takes (io.takes.map (·.name))
  produces : Renaming.Apart r.produces (io.produces.map (·.name))
  values : Renaming.Apart r.values (io.values.map (·.name))

/-- A wrapper is given under outer names what the module inside is given under its own. -/
structure Renames.Hands (r : Renames) (io : Interface) (inputs outer : StageInputs)
    (env outerEnv : Environment) : Prop where
  takes : ∀ d ∈ io.takes,
    outer.takes.get? (outerName r.takes d.name) = inputs.takes.get? d.name
  produces : ∀ d ∈ io.produces,
    outer.produces.get? (outerName r.produces d.name) = inputs.produces.get? d.name
  demanded : ∀ d ∈ io.produces,
    outer.demanded.contains (outerName r.produces d.name) = inputs.demanded.contains d.name
  values : ∀ d ∈ io.values, outerEnv.get? (outerName r.values d.name) = env.get? d.name
  env : env.AgreeBeyond r.Hidden outerEnv

/-- A context as the flow sees it, in an environment of the flow. -/
def Renames.outerView (r : Renames) (ctx : Context) (env : Environment) : Context :=
  { ctx with
    takes := ctx.takes.renamed r.takes
    values := ctx.values.renamed r.values
    produces := ctx.produces.renamed r.produces
    outputs := ctx.outputs.renamed r.produces
    env }

/-- A context that binds declared names only. -/
structure Fits (io : Interface) (ctx : Context) : Prop where
  takes : Within (io.takes.map (·.name)) ctx.takes.entries
  values : Within (io.values.map (·.name)) ctx.values.entries
  produces : Within (io.produces.map (·.name)) ctx.produces.entries
  outputs : Within (io.produces.map (·.name)) ctx.outputs.entries

section
variable {r : Renames} {io : Interface} {ctx : Context} {stage : String}
  {inputs outer : StageInputs} {env outerEnv : Environment} {roots : Roots} {disk : Disk}

/-- The module inside gets its own names back, in the environment of the flow. -/
theorem innerView_outerView (apart : r.Apart io) (fits : Fits io ctx) (env : Environment) :
    r.innerView (r.outerView ctx env) = { ctx with env } := by
  show Context.mk ctx.stage _ _ _ _ env ctx.roots = _
  congr 1
  · exact Bindings.renamedBack_renamed apart.takes fits.takes
  · exact Bindings.renamedBack_renamed apart.produces fits.produces
  · exact Bindings.renamedBack_renamed apart.produces fits.outputs
  · exact Bindings.renamedBack_renamed apart.values fits.values

theorem fits_assembled (io : Interface) (stage : String) (inputs : StageInputs)
    (env : Environment) (roots : Roots) (disk : Disk) :
    Fits io (.assembled io stage inputs env roots disk) where
  takes := Bindings.within_foldl_set _ (fun _ => List.mem_map_of_mem) (Bindings.within_empty ..)
  values := Bindings.within_foldl_set _ (fun _ => List.mem_map_of_mem) (Bindings.within_empty ..)
  produces := Bindings.within_foldl_set _ (fun _ => List.mem_map_of_mem) (Bindings.within_empty ..)
  outputs := Bindings.within_empty ..

/-- What must not be missing is there under outer names if it is there under the own ones. -/
theorem forall_required_renamed (renames : Table String) (l : List Declared)
    (missing outerMissing : Declared → Prop)
    (same : ∀ d ∈ l, outerMissing (renameDeclared renames d) ↔ missing d) :
    (∀ d ∈ l.map (renameDeclared renames), ¬ (d.isRequired = true ∧ outerMissing d)) ↔
      ∀ d ∈ l, ¬ (d.isRequired = true ∧ missing d) := by
  rw [List.forall_mem_map]
  refine forall₂_congr fun d hd => ?_
  rw [isRequired_renameDeclared, same d hd]

/-- A name that is looked up alike is offered alike. -/
theorem offer_renamed {renames : Table String} {found outerFound : String → Option Value}
    {accept : Value → Bool} {d : Declared}
    (hfound : outerFound (outerName renames d.name) = found d.name)
    (hresolve : ∀ v, found d.name = some v → outerEnv.resolve v = env.resolve v) :
    Context.offer outerFound outerEnv accept (renameDeclared renames d) =
      Context.offer found env accept d := by
  unfold Context.offer
  rw [name_renameDeclared, hfound, isRequired_renameDeclared]
  cases hpresent : (found d.name).bind Value.present? with
  | none => rfl
  | some v =>
    rw [Option.bind_some, Option.bind_some, hresolve v (Value.eq_some_of_present hpresent)]

theorem within_bindOutputs {defaults : ValueTable} {demanded : NameSet} {cwd : String}
    {outputs : Bindings} (h : io.produces.foldlM (ctx.bindOutput defaults demanded cwd)
      (.empty stage .output) = .ok outputs) :
    Within (io.produces.map (·.name)) outputs.entries := by
  obtain ⟨-, rfl⟩ := Context.bindOutputs_eq_ok_iff.mp h
  exact Bindings.within_foldl_set _ (fun _ => List.mem_map_of_mem) (Bindings.within_empty ..)

/-! ### Path variables -/

section
variable {key : String} {b : Bindings}

/-- A variable that is not touched belongs to no renamed take. -/
theorem not_mem_of_renamed (hkey : ¬ r.Hidden key) {name other : String}
    (h : r.takes.get? name = some other) :
    key ∉ pathVariables name ∧ key ∉ pathVariables other := by
  have hentry := Table.mem_of_get? h
  refine ⟨fun hmem => hkey ?_, fun hmem => hkey ?_⟩
  · exact List.mem_append_right _
      (List.mem_flatMap.mpr ⟨_, hentry, List.mem_append_left _ hmem⟩)
  · exact List.mem_append_right _
      (List.mem_flatMap.mpr ⟨_, hentry, List.mem_append_right _ hmem⟩)

/-- So a take that has it keeps its name. -/
theorem get?_renamed_of_variable (apart : r.Apart io)
    (h : Within (io.takes.map (·.name)) b.entries) (hkey : ¬ r.Hidden key) {name : String}
    (hname : key ∈ pathVariables name) : (b.renamed r.takes).get? name = b.get? name := by
  refine Option.ext fun v => ?_
  rw [Bindings.get?_renamed_iff apart.takes h]
  constructor
  · rintro ⟨inner, hv, heq⟩
    unfold outerName at heq
    cases hrenamed : r.takes.get? inner with
    | none =>
      rw [hrenamed, Option.getD_none] at heq
      exact heq ▸ hv
    | some other =>
      rw [hrenamed, Option.getD_some] at heq
      exact absurd (heq ▸ hname) (not_mem_of_renamed hkey hrenamed).2
  · intro hv
    refine ⟨name, hv, ?_⟩
    cases hrenamed : r.takes.get? name with
    | none => rw [outerName, hrenamed, Option.getD_none]
    | some other => exact absurd hname (not_mem_of_renamed hkey hrenamed).1

theorem havingVariable_renamed (apart : r.Apart io)
    (h : Within (io.takes.map (·.name)) b.entries) (hkey : ¬ r.Hidden key) :
    Environment.havingVariable key (b.renamed r.takes).bound =
      Environment.havingVariable key b.bound := by
  have hrenamed := Bindings.ascending_bound (b := b.renamed r.takes) (ascending_renameKeys ..)
  have hinside := Bindings.ascending_bound h.ascending
  refine (hrenamed.filterMap _).ext (hinside.filterMap _) fun name => ?_
  unfold Environment.havingVariable
  rw [hrenamed.get?_filterMap, hinside.get?_filterMap,
    Bindings.get?_bound (ascending_renameKeys ..), Bindings.get?_bound h.ascending]
  by_cases hname : key ∈ pathVariables name
  · rw [get?_renamed_of_variable apart h hkey hname]
  · simp [hname]

end

/-! ### What the flow hands in -/

section
variable (apart : r.Apart io) (hands : r.Hands io inputs outer env outerEnv)

include hands

theorem provided_iff {name : String} :
    Context.Provided (r.interface name io) outer outerEnv ↔ Context.Provided io inputs env := by
  have htakes := forall_required_renamed r.takes io.takes
    (fun d => (inputs.takes.get? d.name).bind Value.present? = none)
    (fun d => (outer.takes.get? d.name).bind Value.present? = none)
    fun d hd => by rw [name_renameDeclared, hands.takes d hd]
  have hvalues := forall_required_renamed r.values io.values
    (fun d => (env.get? d.name).bind Value.present? = none)
    (fun d => (outerEnv.get? d.name).bind Value.present? = none)
    fun d hd => by rw [name_renameDeclared, hands.values d hd]
  exact ⟨fun h => ⟨htakes.mp h.takes, hvalues.mp h.values⟩,
    fun h => ⟨htakes.mpr h.takes, hvalues.mpr h.values⟩⟩

include apart

theorem boundTakes_renamed
    (clear : ∀ d ∈ io.takes, ∀ v ∈ inputs.takes.get? d.name, v.Clear r.Hidden)
    {name : String} :
    Context.boundTakes (r.interface name io) stage outer outerEnv disk =
      (Context.boundTakes io stage inputs env disk).renamed r.takes :=
  Bindings.foldl_set_renamed apart.takes (fun _ => List.mem_map_of_mem)
    (fun d hd => offer_renamed (hands.takes d hd) fun v hv => hands.env.resolve (clear d hd v hv))
    (Bindings.within_empty ..)

/-- The path variables of takes are the same under both names but for touched ones. -/
theorem path_env_beyond {b : Bindings} (h : Within (io.takes.map (·.name)) b.entries)
    (cwd : String) :
    (b.bound.entries.foldl (fun (env : Environment) (name, v) => env.addPathVariants cwd name v)
      env).AgreeBeyond r.Hidden ((b.renamed r.takes).bound.entries.foldl
        (fun (env : Environment) (name, v) => env.addPathVariants cwd name v) outerEnv) := by
  intro key hkey
  rw [Environment.get?_foldl_havingVariable (hands.env key hkey),
    havingVariable_renamed apart h hkey,
    Environment.get?_foldl_havingVariable (t := b.bound) (rfl : env.get? key = env.get? key)]

variable (stage roots disk) in
/-- What the wrapper binds is what the module inside binds, under outer names. -/
theorem assembled_renamed (name : String)
    (takes : ∀ d ∈ io.takes, ∀ v ∈ inputs.takes.get? d.name, v.Clear r.Hidden)
    (produces : ∀ d ∈ io.produces, ∀ v ∈ inputs.produces.get? d.name, v.Clear r.Hidden)
    (values : ∀ d ∈ io.values, ∀ v ∈ env.get? d.name, v.Clear r.Hidden) :
    Context.assembled (r.interface name io) stage outer outerEnv roots disk =
      r.outerView (Context.assembled io stage inputs env roots disk)
        (Context.assembled (r.interface name io) stage outer outerEnv roots disk).env := by
  show Context.mk stage _ _ _ _ _ roots = Context.mk stage _ _ _ _ _ roots
  congr 1
  · exact boundTakes_renamed apart hands takes
  · refine Bindings.foldl_set_renamed apart.produces (fun _ => List.mem_map_of_mem) (fun d hd => ?_)
      (Bindings.within_empty ..)
    rw [name_renameDeclared, hands.produces d hd, hands.env.map_resolve (produces d hd)]
  · exact Bindings.foldl_set_renamed apart.values (fun _ => List.mem_map_of_mem)
      (fun d hd => offer_renamed (hands.values d hd) fun v hv =>
        hands.env.resolve (values d hd v hv)) (Bindings.within_empty ..)

end

/-! ### What the module inside sees -/

section
variable (apart : r.Apart io) (hands : r.Hands io inputs outer env outerEnv)

include apart hands

/-- Every product has the path that it has without the wrapper. -/
theorem outputPath_outerView (fits : Fits io ctx) {oenv : Environment}
    (agree : ctx.env.AgreeBeyond r.Hidden oenv) {defaults : ValueTable}
    (places : Within (io.produces.map (·.name)) defaults)
    (clear : ∀ e ∈ defaults.entries, e.2.Clear r.Hidden) {d : Declared} (hd : d ∈ io.produces) :
    (r.outerView ctx oenv).outputPath (renameKeys r.produces defaults) outer.demanded
      (renameDeclared r.produces d) = ctx.outputPath defaults inputs.demanded d := by
  have hname : d.name ∈ io.produces.map (·.name) := List.mem_map_of_mem hd
  have hexplicit : (r.outerView ctx oenv).produces.get? (outerName r.produces d.name) =
      ctx.produces.get? d.name := Bindings.get?_renamed apart.produces fits.produces hname
  have hdefault := agree.map_resolve (x := defaults.get? d.name) fun v hv =>
    clear _ (Table.mem_of_get? hv)
  unfold Context.outputPath
  rw [name_renameDeclared, strictness_renameDeclared, hexplicit, hands.demanded d hd,
    get?_renameKeys apart.produces places hname, ← hdefault]
  rfl

/-- So the wrapper binds its products where the module inside binds them. -/
theorem bindOutputs_outerView (fits : Fits io ctx) {oenv : Environment}
    (agree : ctx.env.AgreeBeyond r.Hidden oenv) {defaults : ValueTable}
    (places : Within (io.produces.map (·.name)) defaults)
    (clear : ∀ e ∈ defaults.entries, e.2.Clear r.Hidden) {cwd : String} {bound : Bindings} :
    (io.produces.map (renameDeclared r.produces)).foldlM ((r.outerView ctx oenv).bindOutput
        (renameKeys r.produces defaults) outer.demanded cwd) (.empty stage .output) = .ok bound ↔
      ∃ outputs, io.produces.foldlM (ctx.bindOutput defaults inputs.demanded cwd)
        (.empty stage .output) = .ok outputs ∧ bound = outputs.renamed r.produces := by
  have hpath := fun d hd =>
    outputPath_outerView apart hands fits agree places clear (d := d) hd
  have hset := Bindings.foldl_set_renamed apart.produces (l := io.produces)
    (f := fun d => (ctx.outputPath defaults inputs.demanded d).map (Value.absolute cwd))
    (g := fun d => ((r.outerView ctx oenv).outputPath (renameKeys r.produces defaults)
      outer.demanded d).map (Value.absolute cwd))
    (fun _ => List.mem_map_of_mem) (fun d hd => by rw [hpath d hd])
    (Bindings.within_empty stage .output)
  have hrequired := forall_required_renamed r.produces io.produces
    (fun d => ctx.outputPath defaults inputs.demanded d = none)
    (fun d => (r.outerView ctx oenv).outputPath (renameKeys r.produces defaults)
      outer.demanded d = none) fun d hd => by rw [hpath d hd]
  simp only [Context.bindOutputs_eq_ok_iff]
  rw [hrequired]
  constructor
  · rintro ⟨hgood, rfl⟩
    exact ⟨_, ⟨hgood, rfl⟩, hset⟩
  · rintro ⟨_, ⟨hgood, rfl⟩, rfl⟩
    exact ⟨hgood, hset.symm⟩

end

end
end Modules.Renaming
end Toolflow
