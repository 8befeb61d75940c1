import Toolflow.Proofs.AbsolutePathnames
import Toolflow.Proofs.Demand
import Toolflow.Proofs.OutputPlacement
import Toolflow.Proofs.TokenFreeTexts

/-! What a module may rely on in its context.

Binding a name can only be refused, never forgotten: when a context has been built, everything that
is declared as required is there. What the context binds is closed, since the last thing that
building it does is to look for tokens that are left; its outputs have been seen from the working
directory, and where the user binds one, the module has no say in it. -/
namespace Toolflow

/-- Each take, each value and each product is declared once. -/
structure Interface.Distinct (io : Interface) : Prop where
  takes : (io.takes.map Declared.name).Nodup
  values : (io.values.map Declared.name).Nodup
  produces : (io.produces.map Declared.name).Nodup

/-- All paths of a value are absolute. -/
def Value.IsAbsolute (v : Value) : Prop :=
  ∀ path ∈ v.strings, Pathname.isAbsolute path = true

theorem Value.isAbsolute_absolute {cwd : String} (rooted : Pathname.isAbsolute cwd = true)
    (v : Value) : (v.absolute cwd).IsAbsolute := by
  intro path hpath
  rw [Value.absolute, Value.strings_mapStrings] at hpath
  obtain ⟨text, -, hpath⟩ := List.mem_flatMap.mp hpath
  cases List.mem_singleton.mp hpath
  exact Pathname.isAbsolute_absoluteText rooted text

theorem Bindings.tokenFree_of_checkResolved {b : Bindings} (ascending : b.entries.Ascending)
    (h : b.checkResolved = .ok ()) {name : String} {v : Value} (hv : b.get? name = some v) :
    v.TokenFree := by
  rw [← Bindings.get?_bound ascending] at hv
  exact Value.tokenFree_iff.mpr ((Bindings.checkResolved_eq_ok_iff b).mp h _ (Table.mem_of_get? hv))

section
variable {b : Bindings} {name path : String}

theorem Bindings.requirePath_ok (h : b.get? name = some (.str path)) :
    b.requirePath name = .ok path := by
  simp [requirePath, require, h, Bind.bind, Except.bind]

theorem Bindings.str?_of_get? (h : b.get? name = some (.str path)) : b.str? name = some path := by
  simp [str?, h, Value.str?]

end

/-- What a module may rely on: what it requires is bound, an optional take has its files, the paths
are closed, outputs are absolute and go where the user has bound them, and a product on demand is
there only if someone wants it. -/
structure Context.Complete (ctx : Context) (io : Interface) (inputs : StageInputs)
    (env : Environment) (disk : Disk) : Prop where
  takes : ∀ d ∈ io.takes, d.isRequired = true → ∃ v, ctx.takes.get? d.name = some v
  values : ∀ d ∈ io.values, d.isRequired = true → ∃ v, ctx.values.get? d.name = some v
  outputs : ∀ d ∈ io.produces, d.isRequired = true → ∃ v, ctx.outputs.get? d.name = some v
  found : ∀ d ∈ io.takes, d.isRequired = false → ∀ v, ctx.takes.get? d.name = some v →
    v.strings ≠ [] ∧ ∀ path ∈ v.strings, disk.exists? path = true
  closedTakes : ∀ name v, ctx.takes.get? name = some v → v.TokenFree
  closedOutputs : ∀ name v, ctx.outputs.get? name = some v → v.TokenFree
  absolute : ∀ name v, ctx.outputs.get? name = some v → v.IsAbsolute
  explicit : ∀ d ∈ io.produces, ∀ v, inputs.produces.get? d.name = some v → v.isNull = false →
    ctx.outputs.get? d.name = some ((env.resolve v).absolute disk.cwd)
  wanted : ∀ d ∈ io.produces, d.strictness = .onDemand → ∀ v,
    ctx.outputs.get? d.name = some v →
      (∃ w, inputs.produces.get? d.name = some w ∧ w.isNull = false) ∨
        inputs.demanded.contains d.name = true

namespace Context
variable {m : ToolModule} {stage : String} {inputs : StageInputs} {env : Environment}
  {roots : Roots} {disk : Disk} {ctx : Context}

/-- A required name has an offer unless binding it is refused. -/
theorem offer_isSome {found : String → Option Value} {accept : Value → Bool} {d : Declared}
    (required : d.isRequired = true)
    (h : ¬ (d.isRequired = true ∧ (found d.name).bind Value.present? = none)) :
    ∃ v, offer found env accept d = some v := by
  obtain ⟨v, hv⟩ := Option.ne_none_iff_exists'.mp fun hnone => h ⟨required, hnone⟩
  exact ⟨env.resolve v, by simp [offer, hv, required]⟩

theorem build_value (distinct : m.io.Distinct)
    (h : build m stage inputs env roots disk = .ok ctx) {d : Declared} (hd : d ∈ m.io.values)
    (required : d.isRequired = true) : ∃ v, ctx.values.get? d.name = some v := by
  obtain ⟨base, -, -, hbase, -, -, -, -, rfl⟩ := build_eq_ok_iff.mp h
  unfold ofInputs at hbase
  obtain ⟨takes, -, hbase⟩ := bind_eq_ok.mp hbase
  obtain ⟨values, hvalues, hbase⟩ := bind_eq_ok.mp hbase
  cases hbase
  obtain ⟨present, rfl⟩ := foldlM_bindDeclared.mp hvalues
  obtain ⟨v, hv⟩ : ∃ v, offer env.get? env (fun _ => true) d = some v :=
    offer_isSome required (present d hd)
  exact ⟨v, by rw [Bindings.get?_foldl_set, find?_reverse_of_nodup distinct.values hd]; exact hv⟩

theorem take?_of_mem {io : Interface} (distinct : io.Distinct) {d : Declared} (hd : d ∈ io.takes) :
    io.take? d.name = some d :=
  find?_reverse_of_nodup distinct.takes hd

/-- A product that the user binds goes there, wherever the module would put it. -/
theorem build_explicit (hnodup : (m.io.produces.map Declared.name).Nodup)
    (h : build m stage inputs env roots disk = .ok ctx) {d : Declared} (hd : d ∈ m.io.produces)
    {v : Value} (hv : inputs.produces.get? d.name = some v) (present : v.isNull = false) :
    ctx.outputs.get? d.name = some ((env.resolve v).absolute disk.cwd) := by
  obtain ⟨base, defaults, hbase, -, -, houtput⟩ := build_output h hnodup
  have hexplicit : base.produces.get? d.name = some (env.resolve v) := by
    rw [ofInputs_produces hbase hnodup hd, hv]
    simp [Value.present?, present]
  rw [houtput d hd, outputPath, hexplicit]
  rfl

/-- Only products are bound as outputs. -/
theorem build_product (h : build m stage inputs env roots disk = .ok ctx) {name : String}
    {v : Value} (hv : ctx.outputs.get? name = some v) : ∃ d ∈ m.io.produces, d.name = name := by
  obtain ⟨base, defaults, -, -, -, houtputs⟩ := build_outputs h
  rw [houtputs, Bindings.get?_foldl_set] at hv
  obtain ⟨d, hd, -⟩ := Option.bind_eq_some_iff.mp hv
  exact ⟨d, by simpa using List.mem_of_find?_eq_some hd, by simpa using List.find?_some hd⟩

/-- A product that the user does not bind goes where the module puts it. -/
theorem build_default (hnodup : (m.io.produces.map Declared.name).Nodup)
    (h : build m stage inputs env roots disk = .ok ctx) {d : Declared} (hd : d ∈ m.io.produces)
    (always : d.strictness ≠ .onDemand) (implicit : ctx.isExplicit d.name = false)
    {defaults : ValueTable}
    (houtputs : ∀ base : Context, base.takes = ctx.takes → m.outputs base = .ok defaults)
    {text : String} (hdefault : defaults.get? d.name = some (.str text))
    (free : Reference.TokenFree text.toList) :
    ctx.outputs.get? d.name = some (.str (Pathname.absoluteText disk.cwd text)) := by
  obtain ⟨base, found, -, hfound, hctx, houtput⟩ := build_output h hnodup
  have himplicit : base.produces.get? d.name = none := by
    rw [hctx] at implicit
    simpa [isExplicit] using implicit
  cases (houtputs base (by rw [hctx])).symm.trans hfound
  have hclosed : (Value.str text).TokenFree := by simpa [Value.TokenFree, Value.strings] using free
  have hliteral : base.env.resolve (.str text) = .str text :=
    Environment.resolve_of_literal _ (Value.tokenFree_iff.mp hclosed)
  have habsolute : (Value.str text).absolute disk.cwd =
      .str (Pathname.absoluteText disk.cwd text) := by
    rw [Value.absolute, Value.mapStrings]
  rw [houtput d hd, outputPath, himplicit]
  simp [always, hdefault, Value.present?, Value.isNull, hliteral, habsolute]

/-- A product on demand that is bound has been asked for. -/
theorem build_wanted (hnodup : (m.io.produces.map Declared.name).Nodup)
    (h : build m stage inputs env roots disk = .ok ctx) {d : Declared} (hd : d ∈ m.io.produces)
    (hdemand : d.strictness = .onDemand) {v : Value} (hv : ctx.outputs.get? d.name = some v) :
    (∃ w, inputs.produces.get? d.name = some w ∧ w.isNull = false) ∨
      inputs.demanded.contains d.name = true := by
  obtain ⟨base, defaults, hbase, -, -, houtput⟩ := build_output h hnodup
  rw [houtput d hd] at hv
  obtain ⟨path, hpath, -⟩ := Option.map_eq_some_iff.mp hv
  rcases (outputPath_isSome_iff hdemand).mp (Option.isSome_of_eq_some hpath) with hbound | hasked
  · rw [ofInputs_produces hbase hnodup hd, Option.isSome_map] at hbound
    exact Or.inl ((isSome_present_iff _).mp hbound)
  · exact Or.inr hasked.2

/-- Every output of a context is a path seen from the working directory. -/
theorem build_absolute (rooted : Pathname.isAbsolute disk.cwd = true)
    (h : build m stage inputs env roots disk = .ok ctx) {name : String} {v : Value}
    (hv : ctx.outputs.get? name = some v) : v.IsAbsolute := by
  obtain ⟨base, defaults, -, -, -, houtputs⟩ := build_outputs h
  rw [houtputs, Bindings.get?_foldl_set] at hv
  obtain ⟨d, -, hpath⟩ := Option.bind_eq_some_iff.mp hv
  obtain ⟨path, -, rfl⟩ := Option.map_eq_some_iff.mp hpath
  exact Value.isAbsolute_absolute rooted path

/-- No output of a context refers to a variable. -/
theorem build_closed (h : build m stage inputs env roots disk = .ok ctx) {name : String} {v : Value}
    (hv : ctx.outputs.get? name = some v) : v.TokenFree := by
  have ascending := ascending_outputs h
  obtain ⟨base, -, outputs, -, -, -, -, hresolved, rfl⟩ := build_eq_ok_iff.mp h
  exact Bindings.tokenFree_of_checkResolved ascending hresolved hv

/-- A context that has been built is complete and closed. -/
theorem build_complete (distinct : m.io.Distinct) (rooted : Pathname.isAbsolute disk.cwd = true)
    (h : build m stage inputs env roots disk = .ok ctx) :
    ctx.Complete m.io inputs env disk where
  takes d hd required := by
    obtain ⟨planned, hplanned, present⟩ := build_required h (take?_of_mem distinct hd) required
    exact ⟨env.resolve planned, (build_take h d.name).trans (takeOn_eq_some_iff.mpr
      ⟨d, planned, take?_of_mem distinct hd, hplanned, present, rfl, Or.inl required⟩)⟩
  values d hd required := build_value distinct h hd required
  outputs d hd required := by
    obtain ⟨base, defaults, outputs, -, -, houtputs, -, -, rfl⟩ := build_eq_ok_iff.mp h
    obtain ⟨hpaths, rfl⟩ :=
      (foldlM_set (bindOutput_eq base defaults inputs.demanded disk.cwd)).mp houtputs
    obtain ⟨v, hv⟩ := Option.ne_none_iff_exists'.mp fun hnone => hpaths d hd ⟨required, hnone⟩
    refine ⟨v.absolute disk.cwd, ?_⟩
    rw [Bindings.get?_foldl_set, find?_reverse_of_nodup distinct.produces hd, Option.bind_some, hv]
    rfl
  found d hd optional v hv := by
    rw [build_take h] at hv
    obtain ⟨other, planned, hother, -, -, -, accepted⟩ := takeOn_eq_some_iff.mp hv
    cases (take?_of_mem distinct hd).symm.trans hother
    exact (disk.holds_iff v).mp (accepted.resolve_left (by simp [optional]))
  closedTakes name v hv := by
    obtain ⟨base, -, outputs, hbase, -, -, hresolved, -, rfl⟩ := build_eq_ok_iff.mp h
    have ascending : base.takes.entries.Ascending :=
      ofInputs_takes hbase ▸ Bindings.ascending_foldl_set _ _ Table.ascending_empty
    exact Bindings.tokenFree_of_checkResolved ascending hresolved hv
  closedOutputs name v hv := build_closed h hv
  absolute name v hv := build_absolute rooted h hv
  explicit d hd v hv present := build_explicit distinct.produces h hd hv present
  wanted d hd hdemand v hv := build_wanted distinct.produces h hd hdemand hv

/-- The environment of a synthesis, with a directory for what the user places. -/
def synthesisEnv : Environment := .ofRaw (Table.ofList [
  ("device", .str "d"), ("out", .str "placed"), ("tcl_scripts", .str "/tcl"), ("top", .str "top"),
  ("yosys_tcl_env", .map (Table.ofList [("UTILS_PATH", .str "/utils")]))])

/-- Inputs that bind one product and ask for the log; the build directory is not there. -/
def synthesisInputs : StageInputs where
  takes := Table.ofList [("build_dir", .str "/build"), ("sources", .str "/src")]
  produces := Table.ofList [("eblif", .str "$\x7bout\x7d/a.eblif")]
  demanded := NameSet.ofList ["synth_log"]

theorem synthesis_complete : ∃ synth ctx,
    Modules.Synthesis.make ⟨.null, .empty, "synth"⟩ = .ok synth ∧ synth.io.Distinct ∧
    Pathname.isAbsolute Relay.disk.cwd = true ∧
    build synth "synth" synthesisInputs synthesisEnv {} Relay.disk = .ok ctx ∧
    ctx.Complete synth.io synthesisInputs synthesisEnv Relay.disk := by
  have hchecks : okAnd (Modules.Synthesis.make ⟨.null, .empty, "synth"⟩) (fun synth =>
      decide ((synth.io.takes.map Declared.name).Nodup) &&
      decide ((synth.io.values.map Declared.name).Nodup) &&
      decide ((synth.io.produces.map Declared.name).Nodup) &&
      okAnd (build synth "synth" synthesisInputs synthesisEnv {} Relay.disk)
        fun _ => true) = true := by
    decide +kernel
  obtain ⟨synth, hsynth, hchecks⟩ := exists_of_okAnd hchecks
  simp only [Bool.and_eq_true, decide_eq_true_eq] at hchecks
  obtain ⟨⟨⟨htakes, hvalues⟩, hproduces⟩, hbuilt⟩ := hchecks
  obtain ⟨ctx, hctx, -⟩ := exists_of_okAnd hbuilt
  have distinct : synth.io.Distinct := ⟨htakes, hvalues, hproduces⟩
  have rooted : Pathname.isAbsolute Relay.disk.cwd = true := by decide
  exact ⟨synth, ctx, hsynth, distinct, rooted, hctx, build_complete distinct rooted hctx⟩

end Context
end Toolflow
