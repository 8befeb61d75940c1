import Toolflow.Flow.Basic
import Toolflow.Proofs.Lookups
import Toolflow.Proofs.Settling

/-! What the composition of a flow makes of its sources.

Layers are stacked entry by entry and settled afterwards. An entry without references goes through
all of that as it is, so the topmost one is what its name is bound to. A stage is composed of its
own layers and of what lookups answer, and of nothing that was composed before it. -/
namespace Toolflow

namespace Environment
variable {env after : Environment} {name other : String} {v : Value} {layer : ValueTable}

theorem get?_stackEntry_of_ne (env : Environment) (v : Value) (h : other ≠ name) :
    (env.stackEntry name v).get? other = env.get? other := by
  unfold stackEntry
  split
  · split
    · rw [get?_bindRaw, if_neg h]
    · rw [get?_bindRaw, if_neg h]
  · rw [get?_bindRaw, if_neg h]

theorem get?_stackEntry_literal (env : Environment) (name : String)
    (literal : unresolved v = []) : (env.stackEntry name v).get? name = some v := by
  have hself : name ∉ Reference.namesIn v := by
    rw [show Reference.namesIn v = [] from literal]
    exact List.not_mem_nil
  unfold stackEntry
  split
  · rw [if_neg hself, get?_bindRaw, if_pos rfl]
  · rw [get?_bindRaw, if_pos rfl]

theorem get?_bind_literal (env : Environment) (name : String) (literal : unresolved v = []) :
    (env.bind name v).get? name = some v := by
  rw [bind, get?_bindRaw, if_pos rfl, resolve_of_literal env literal]

/-- Entries that are bound one after another, each under its own name: one without references stays
as it is, and so does what no entry is named like. -/
theorem get?_foldl_literal {step : Environment → String → Value → Environment}
    (apart : ∀ env name v other, other ≠ name → (step env name v).get? other = env.get? other)
    (own : ∀ env name v, unresolved v = [] → (step env name v).get? name = some v)
    {l : List (String × Value)} (ascending : (l.map (·.1)).Pairwise (· < ·))
    (literal : unresolved v = []) (h : (Table.lookup name l).or (env.get? name) = some v) :
    (l.foldl (fun env e => step env e.1 e.2) env).get? name = some v := by
  induction l generalizing env with
  | nil => exact h
  | cons e rest ih =>
    obtain ⟨n, w⟩ := e
    obtain ⟨hfirst, hrest⟩ := List.pairwise_cons.mp ascending
    rw [List.foldl_cons]
    refine ih hrest ?_
    by_cases hn : n = name
    · subst hn
      have hsame : w = v := by simpa [Table.lookup] using h
      rw [Table.lookup_eq_none_of_lt hfirst, hsame, own env n v literal]
      rfl
    · rw [Table.lookup, if_neg hn] at h
      rw [apart env n w name (Ne.symm hn)]
      exact h

theorem get?_stack_literal (ascending : layer.Ascending) (literal : unresolved v = [])
    (h : (layer.get? name).or (env.get? name) = some v) : (env.stack layer).get? name = some v :=
  get?_foldl_literal (fun env _ v _ => get?_stackEntry_of_ne env v)
    (fun env name _ => get?_stackEntry_literal env name) ascending literal h

theorem get?_ofValues_literal (ascending : layer.Ascending) (literal : unresolved v = [])
    (h : layer.get? name = some v) : (ofValues layer).get? name = some v := by
  refine get?_foldl_literal (fun env n w other hne => ?_)
    (fun env name _ => get?_bind_literal env name) ascending literal ?_
  · rw [bind, get?_bindRaw, if_neg hne]
  · rw [show Table.lookup name layer.entries = some v from h]
    rfl

/-- Of the entries of a name in several layers the topmost is bound, if it has no references. -/
theorem get?_stackAll_literal {ls : List ValueTable} (ascending : ∀ layer ∈ ls, layer.Ascending)
    (literal : unresolved v = [])
    (h : (ls.reverse.findSome? (·.get? name)).or (env.get? name) = some v) :
    (env.stackAll ls).get? name = some v := by
  induction ls generalizing env with
  | nil => exact h
  | cons layer rest ih =>
    obtain ⟨hlayer, hrest⟩ := List.forall_mem_cons.mp ascending
    refine ih hrest ?_
    rw [List.reverse_cons, List.findSome?_append, Option.or_assoc] at h
    cases hupper : rest.reverse.findSome? (·.get? name) with
    | some w =>
      rw [hupper] at h
      exact h
    | none =>
      rw [hupper, Option.none_or] at h
      rw [Option.none_or]
      exact get?_stack_literal hlayer literal (by simpa using h)

theorem get?_settleName_literal (literal : unresolved v = []) (h : env.get? name = some v) :
    (env.settleName other).get? name = some v := by
  unfold settleName
  cases hother : env.get? other with
  | none => exact h
  | some w =>
    dsimp only
    rw [get?_bindRaw]
    split
    · rename_i heq
      cases heq
      cases h.symm.trans hother
      rw [resolve_of_literal env literal]
    · exact h

/-- Settling leaves a value without references as it is. -/
theorem get?_settle_literal (hsettle : env.settle = .ok after) (literal : unresolved v = [])
    (h : env.get? name = some v) : after.get? name = some v := by
  have hfold : ∀ (order : List String) (env : Environment), env.get? name = some v →
      (order.foldl settleName env).get? name = some v := by
    intro order
    induction order with
    | nil => exact fun _ h => h
    | cons other rest ih => exact fun env h => ih _ (get?_settleName_literal literal h)
  rw [settle, settleInPlace_run] at hsettle
  cases horder : settlingOrder env.dependencies env.values.size with
  | error cause =>
    rw [horder] at hsettle
    cases hsettle
  | ok order =>
    rw [horder] at hsettle
    cases hsettle
    exact hfold order env h

end Environment

namespace FlowSources
variable {s t : FlowSources} {name : String} {d : StageDescription} {v : Value}

/-- The sources of the values that a stage sees, the one that wins first. -/
def ranked (s : FlowSources) (name : String) (d : StageDescription) : List ValueTable :=
  [(s.overrides.stageBlock name).values, s.overrides.values,
    (s.partSection.stageBlock name).values, s.partSection.values, s.project.values, d.values,
    s.platform.values, s.builtins]

/-- The names of the stages ascend, and those of each source of their values. -/
structure Sorted (s : FlowSources) : Prop where
  stages : s.platform.stages.Ascending
  sources : ∀ name d, s.platform.stages.get? name = some d →
    ∀ source ∈ s.ranked name d, source.Ascending

theorem ranked_eq (s : FlowSources) (name : String) (d : StageDescription) :
    s.ranked name d = (s.stageLayers name d).reverse ++ [s.builtins] := rfl

/-- The environment of a stage binds a name to the entry of its highest source, if that has no
references. -/
theorem get?_layered_literal (ascending : ∀ source ∈ s.ranked name d, source.Ascending)
    {env : Environment} (hlayered : s.layered (s.stageLayers name d) = .ok env) {n : String}
    (h : (s.ranked name d).findSome? (·.get? n) = some v)
    (literal : Environment.unresolved v = []) : env.get? n = some v := by
  refine Environment.get?_settle_literal hlayered literal
    (Environment.get?_stackAll_literal (fun layer hlayer => ascending layer ?_) literal ?_)
  · rw [ranked_eq]
    exact List.mem_append_left _ (List.mem_reverse.mpr hlayer)
  · rw [ranked_eq, List.findSome?_append] at h
    cases hupper : (s.stageLayers name d).reverse.findSome? (·.get? n) with
    | some w =>
      rw [hupper] at h
      exact h
    | none =>
      rw [hupper, Option.none_or] at h
      rw [Option.none_or]
      refine Environment.get?_ofValues_literal (ascending _ ?_) literal (by simpa using h)
      rw [ranked_eq]
      exact List.mem_append_right _ (List.mem_singleton_self _)

/-! ### Without a memory -/

/-- A stage composed from the answers of lookups. -/
def stageOf (s : FlowSources) (find : String → Except Failure Factory) (name : String)
    (d : StageDescription) : Except Failure Stage := do
  let env ← during (.resolvingStage name) (s.layered (s.stageLayers name d))
  let module ← Registry.made (d.params.depth + 2) find d.module
    { params := d.params, env, instanceName := name }
  return { name, reference := d.module, module, overrides := merged (s.stageOwn name d), env }

theorem computes_composeStage (s : FlowSources) (r : Registry) (name : String)
    (d : StageDescription) :
    Registry.Computes r.answer (s.stageOf r.answer name d) (s.composeStage r name d) := by
  refine Registry.Computes.after fun env _ => ?_
  exact (Registry.computes_instantiateWithin _ r d.module _).bind fun m last same => .ok same

/-- The stages composed one by one, each from the answers of lookups. -/
def stagesOf (s : FlowSources) (find : String → Except Failure Factory) :
    Except Failure (Table Stage) :=
  s.platform.stages.entries.foldlM (fun stages (name, d) => do
    let stage ← s.stageOf find name d
    return stages.insert name stage) .empty

/-- The tables of bound dependencies, later ones on top. -/
def bindings (s : FlowSources) : List ValueTable :=
  [s.platform.dependencies, s.project.dependencies, s.partSection.dependencies,
    s.overrides.dependencies]

/-- The flow of some stages. Its other parts come from the layers that every stage sees. -/
def flowOf (s : FlowSources) (env : Environment) (cwd : String) (stages : Table Stage) : Flow where
  part := s.part
  platform := s.platformName
  stages := stages
  dependencies := (merged s.bindings).map fun v => (env.resolve v).absolute cwd
  defaultTarget := s.partSection.defaultTarget.or s.project.defaultTarget
  roots := s.roots

/-- A flow composed from the answers of lookups. -/
def composed (s : FlowSources) (find : String → Except Failure Factory) (cwd : String) :
    Except Failure Flow := do
  if s.platform.stages.isEmpty then refuse (.noStages s.platformName)
  let env ← during .resolvingFlow (s.layered s.layers)
  let stages ← s.stagesOf find
  return s.flowOf env cwd stages

/-- What a registry remembers is not seen in the stages that are composed with it. -/
theorem computes_foldlM (s : FlowSources) (r : Registry) (l : List (String × StageDescription))
    (stages : Table Stage) (at_ : Registry) (same : at_.answer = r.answer) :
    Registry.Computes r.answer
      (l.foldlM (fun stages (name, d) => do
        let stage ← s.stageOf r.answer name d
        return Table.insert stages name stage) stages)
      (l.foldlM (fun (stages, registry) (name, d) => do
        let (stage, registry) ← s.composeStage registry name d
        return (Table.insert stages name stage, registry)) (stages, at_)) := by
  induction l generalizing stages at_ with
  | nil => exact .ok same
  | cons e rest ih =>
    rw [List.foldlM_cons, List.foldlM_cons]
    have hstage := s.computes_composeStage at_ e.1 e.2
    rw [same] at hstage
    exact Registry.Computes.bind (hstage.bind fun stage after same => .ok same)
      fun stages after same => ih stages after same

/-- What a registry remembers is not seen in the flows that are composed with it. -/
theorem compose_eq_composed (s : FlowSources) (r : Registry) (cwd : String) :
    s.compose r cwd = s.composed r.answer cwd := by
  have hstages := s.computes_foldlM r s.platform.stages.entries .empty r rfl
  unfold compose composed
  by_cases hempty : s.platform.stages.isEmpty = true
  · rw [if_pos hempty, if_pos hempty]
    rfl
  · rw [if_neg hempty, if_neg hempty]
    cases during .resolvingFlow (s.layered s.layers) with
    | error cause => rfl
    | ok env => exact hstages.forget fun stages => .ok (s.flowOf env cwd stages)

/-- A stage that is composed is the one that its own sources give. -/
theorem get?_stagesOf {find : String → Except Failure Factory} {stages : Table Stage}
    (h : s.stagesOf find = .ok stages) (ascending : s.platform.stages.Ascending) (name : String) :
    match s.platform.stages.get? name with
    | some d => ∃ stage, s.stageOf find name d = .ok stage ∧ stages.get? name = some stage
    | none => stages.get? name = none := by
  have hfold : ∀ (l : List (String × StageDescription)) (before after : Table Stage),
      (l.map (·.1)).Pairwise (· < ·) →
      l.foldlM (fun stages (name, d) => do
        let stage ← s.stageOf find name d
        return Table.insert stages name stage) before = .ok after →
      match Table.lookup name l with
      | some d => ∃ stage, s.stageOf find name d = .ok stage ∧ after.get? name = some stage
      | none => after.get? name = before.get? name := by
    intro l
    induction l with
    | nil =>
      intro before after _ h
      cases h
      rfl
    | cons e rest ih =>
      obtain ⟨n, d⟩ := e
      intro before after hnames h
      obtain ⟨hfirst, hrest⟩ := List.pairwise_cons.mp hnames
      rw [List.foldlM_cons] at h
      obtain ⟨between, hstep, h⟩ := bind_eq_ok.mp h
      obtain ⟨stage, hstage, hstep⟩ := bind_eq_ok.mp hstep
      cases hstep
      have hlater := ih _ after hrest h
      by_cases hn : n = name
      · subst hn
        rw [Table.lookup_eq_none_of_lt hfirst] at hlater
        rw [Table.lookup, if_pos rfl]
        exact ⟨stage, hstage, by rw [hlater, Table.get?_insert_self]⟩
      · rw [Table.get?_insert_of_ne _ _ (Ne.symm hn)] at hlater
        rw [Table.lookup, if_neg hn]
        exact hlater
  exact hfold _ _ _ ascending h

/-- A flow that is composed has the stages that their sources give, and the rest of it comes from
the layers that every stage sees. -/
theorem eq_of_compose {registry : Registry} {cwd : String} {flow : Flow}
    (h : s.compose registry cwd = .ok flow) :
    ∃ env stages, s.layered s.layers = .ok env ∧ s.stagesOf registry.answer = .ok stages ∧
      flow = s.flowOf env cwd stages := by
  rw [compose_eq_composed, composed] at h
  split at h
  · cases h
  · cases henv : s.layered s.layers with
    | error cause =>
      rw [henv] at h
      cases h
    | ok env =>
      rw [henv] at h
      obtain ⟨found, hfound, h⟩ := bind_eq_ok.mp h
      cases hfound
      obtain ⟨stages, hstages, h⟩ := bind_eq_ok.mp h
      cases h
      exact ⟨env, stages, rfl, hstages, rfl⟩

theorem exists_env_of_stageOf {find : String → Except Failure Factory} {stage : Stage}
    (h : s.stageOf find name d = .ok stage) :
    s.layered (s.stageLayers name d) = .ok stage.env := by
  unfold stageOf at h
  cases henv : s.layered (s.stageLayers name d) with
  | error cause =>
    rw [henv] at h
    cases h
  | ok env =>
    rw [henv] at h
    obtain ⟨found, hfound, h⟩ := bind_eq_ok.mp h
    cases hfound
    obtain ⟨module, -, h⟩ := bind_eq_ok.mp h
    cases h
    rfl

/-! ### Neighbours -/

/-- Sources that agree in all but what belongs to one stage: its description, and its blocks in the
section of the part and on the command line. -/
structure AgreeBut (stage : String) (s t : FlowSources) : Prop where
  builtins : t.builtins = s.builtins
  layers : t.layers = s.layers
  bindings : t.bindings = s.bindings
  partTarget : t.partSection.defaultTarget = s.partSection.defaultTarget
  projectTarget : t.project.defaultTarget = s.project.defaultTarget
  descriptions : ∀ other, other ≠ stage →
    t.platform.stages.get? other = s.platform.stages.get? other
  partBlocks : ∀ other, other ≠ stage →
    t.partSection.stageBlock other = s.partSection.stageBlock other
  lineBlocks : ∀ other, other ≠ stage →
    t.overrides.stageBlock other = s.overrides.stageBlock other

section
variable {stage other : String}

theorem AgreeBut.layered (h : AgreeBut stage s t) (ls : List ValueTable) :
    t.layered ls = s.layered ls := by
  rw [FlowSources.layered, FlowSources.layered, h.builtins]

/-- Any other stage is composed in the same way. -/
theorem AgreeBut.stageOf (h : AgreeBut stage s t) (apart : other ≠ stage)
    (find : String → Except Failure Factory) (d : StageDescription) :
    t.stageOf find other d = s.stageOf find other d := by
  have hvalues := h.layers
  simp only [FlowSources.layers, List.cons.injEq, and_true] at hvalues
  obtain ⟨hplatform, hproject, hpart, hline⟩ := hvalues
  have hlayers : t.stageLayers other d = s.stageLayers other d := by
    rw [stageLayers, stageLayers, hplatform, hproject, hpart, hline, h.partBlocks other apart,
      h.lineBlocks other apart]
  have hown : t.stageOwn other d = s.stageOwn other d := by
    rw [stageOwn, stageOwn, h.partBlocks other apart, h.lineBlocks other apart]
  rw [FlowSources.stageOf, FlowSources.stageOf, h.layered, hlayers, hown]

/-- So it is the same stage of both flows, or of none. -/
theorem AgreeBut.get?_stages (h : AgreeBut stage s t) (apart : other ≠ stage)
    (sorted : s.platform.stages.Ascending) (sorted' : t.platform.stages.Ascending)
    {find : String → Except Failure Factory} {stages stages' : Table Stage}
    (hs : s.stagesOf find = .ok stages) (ht : t.stagesOf find = .ok stages') :
    stages'.get? other = stages.get? other := by
  have hold := get?_stagesOf hs sorted other
  have hnew := get?_stagesOf ht sorted' other
  rw [h.descriptions other apart] at hnew
  cases hd : s.platform.stages.get? other with
  | none =>
    rw [hd] at hold hnew
    exact hnew.trans hold.symm
  | some d =>
    rw [hd] at hold hnew
    obtain ⟨found, hfound, hget⟩ := hold
    obtain ⟨found', hfound', hget'⟩ := hnew
    rw [h.stageOf apart find d, hfound] at hfound'
    rw [hget, hget', Except.ok.inj hfound']

theorem AgreeBut.flowOf (h : AgreeBut stage s t) (env : Environment) (cwd : String)
    (stages stages' : Table Stage) :
    (t.flowOf env cwd stages').dependencies = (s.flowOf env cwd stages).dependencies ∧
      (t.flowOf env cwd stages').defaultTarget = (s.flowOf env cwd stages).defaultTarget := by
  constructor
  · simp only [FlowSources.flowOf, h.bindings]
  · simp only [FlowSources.flowOf, h.partTarget, h.projectTarget]

end
end FlowSources

open FlowSources in
/-- A flow that is composed has the stages of its platform. Each binds a name to the entry of the
highest source that defines it, if that entry has no references. What belongs to one stage alone is
seen by no other stage, nor by the bound dependencies or the default target; what has been looked up
in the registry before is not seen at all. -/
theorem compose_ranked {s : FlowSources} (sorted : s.Sorted) {registry : Registry} {cwd : String}
    {flow : Flow} (h : s.compose registry cwd = .ok flow) :
    (∀ name, flow.stages.contains name = s.platform.stages.contains name) ∧
    (∀ name d n e, s.platform.stages.get? name = some d →
      (s.ranked name d).findSome? (·.get? n) = some e → Environment.unresolved e = [] →
      ∃ stage, flow.stages.get? name = some stage ∧ stage.env.get? n = some e) ∧
    ∀ name (t : FlowSources) later (flow' : Flow), AgreeBut name s t → t.Sorted →
      later.answer = registry.answer → t.compose later cwd = .ok flow' →
      (∀ other, other ≠ name → flow'.stages.get? other = flow.stages.get? other) ∧
        flow'.dependencies = flow.dependencies ∧ flow'.defaultTarget = flow.defaultTarget := by
  obtain ⟨env, stages, henv, hstages, rfl⟩ := eq_of_compose h
  have hstage := get?_stagesOf hstages sorted.stages
  refine ⟨fun name => ?_, fun name d n e hd he literal => ?_,
    fun name t later flow' agree sorted' same h' => ?_⟩
  · have hname := hstage name
    show (stages.get? name).isSome = (s.platform.stages.get? name).isSome
    cases hd : s.platform.stages.get? name with
    | none =>
      rw [hd] at hname
      rw [show stages.get? name = none from hname]
      rfl
    | some d =>
      rw [hd] at hname
      obtain ⟨stage, -, hget⟩ := hname
      rw [hget]
      rfl
  · have hname := hstage name
    rw [hd] at hname
    obtain ⟨stage, hcomposed, hget⟩ := hname
    exact ⟨stage, hget, get?_layered_literal (sorted.sources name d hd)
      (exists_env_of_stageOf hcomposed) he literal⟩
  · obtain ⟨env', stages', henv', hstages', rfl⟩ := eq_of_compose h'
    rw [same] at hstages'
    rw [agree.layered, agree.layers, henv] at henv'
    cases henv'
    exact ⟨fun other apart =>
      agree.get?_stages apart sorted.stages sorted'.stages hstages hstages',
      agree.flowOf env cwd stages stages'⟩

/-- A platform of two stages, one with an effort of its own, below the entries that the command line
has for that stage. -/
def twoStages (line : ValueTable) : FlowSources where
  platformName := "xc7"
  part := "xc7a35t"
  platform := {
    stages := .ofList [("pack", ⟨"common:vpr", .null, .ofList [("effort", .str "low")]⟩),
      ("place", ⟨"common:vpr", .null, .empty⟩)]
    values := .ofList [("effort", .str "fair"), ("seed", .int 1)]
    dependencies := .ofList [("eblif", .str "top_$\x7beffort\x7d.eblif")] }
  project := .empty
  overrides := { Overrides.empty with
    values := .ofList [("seed", .int 7)]
    stages := .ofList [("pack", ⟨.empty, line⟩)] }
  builtins := .ofList [("part", .str "xc7a35t")]
  roots := {}

/-- A registry with one module, which does nothing. -/
def idleRegistry : Registry :=
  Registry.empty.register "common" "vpr" (.tool fun args => .ok {
    io := { name := args.instanceName }
    outputs := fun _ => .ok .empty
    execute := fun _ _ => pure () })

theorem sorted_twoStages {line : ValueTable} (h : line.Ascending) : (twoStages line).Sorted := by
  refine ⟨Table.ascending_ofList _, fun name d hd source hsource => ?_⟩
  have hblock : ((twoStages line).overrides.stageBlock name).values.Ascending := by
    show (((Table.empty.insert "pack" (⟨.empty, line⟩ : Block)).get? name).getD
      .empty).values.Ascending
    rw [Table.get?_insert]
    split
    · exact h
    · exact Table.ascending_empty
  have hown : d.values.Ascending := by
    have hmem := Table.mem_of_mem_ofList (Table.mem_of_get? hd)
    simp only [List.mem_cons, Prod.mk.injEq, List.not_mem_nil, or_false] at hmem
    rcases hmem with ⟨-, rfl⟩ | ⟨-, rfl⟩
    · exact Table.ascending_ofList _
    · exact Table.ascending_empty
  simp only [FlowSources.ranked, List.mem_cons, List.not_mem_nil, or_false] at hsource
  rcases hsource with rfl | rfl | rfl | rfl | rfl | rfl | rfl | rfl
  · exact hblock
  · exact Table.ascending_ofList _
  · exact Table.ascending_empty
  · exact Table.ascending_empty
  · exact Table.ascending_empty
  · exact hown
  · exact Table.ascending_ofList _
  · exact Table.ascending_ofList _

theorem agreeBut_twoStages (line line' : ValueTable) :
    FlowSources.AgreeBut "pack" (twoStages line) (twoStages line') where
  builtins := rfl
  layers := rfl
  bindings := rfl
  partTarget := rfl
  projectTarget := rfl
  descriptions _ _ := rfl
  partBlocks _ _ := rfl
  lineBlocks other apart := by
    have hnone : ∀ line : ValueTable, (twoStages line).overrides.stageBlock other = .empty := by
      intro line
      show ((Table.empty.insert "pack" (⟨.empty, line⟩ : Block)).get? other).getD .empty = .empty
      rw [Table.get?_insert_of_ne _ _ apart]
      rfl
    rw [hnone, hnone]

/-- The command line sets the effort of one stage; the other one is the same with and without. -/
theorem pack_effort_ranked :
    let line : ValueTable := .ofList [("effort", .str "high")]
    ∃ flow plain, (twoStages line).compose idleRegistry "/" = .ok flow ∧
      (twoStages .empty).compose idleRegistry "/" = .ok plain ∧
      (∃ stage, flow.stages.get? "pack" = some stage ∧
        stage.env.get? "effort" = some (.str "high")) ∧
      (∃ stage, plain.stages.get? "pack" = some stage ∧
        stage.env.get? "effort" = some (.str "low")) ∧
      (∃ stage, flow.stages.get? "place" = some stage ∧ stage.env.get? "seed" = some (.int 7)) ∧
      plain.stages.get? "place" = flow.stages.get? "place" ∧
      plain.dependencies = flow.dependencies := by
  intro line
  have hcomposed : okAnd ((twoStages line).compose idleRegistry "/") (fun _ => true) = true := by
    decide +kernel
  have hplain : okAnd ((twoStages .empty).compose idleRegistry "/") (fun _ => true) = true := by
    decide +kernel
  obtain ⟨flow, hflow, -⟩ := exists_of_okAnd hcomposed
  obtain ⟨plain, hplain, -⟩ := exists_of_okAnd hplain
  have sorted : (twoStages line).Sorted := sorted_twoStages (Table.ascending_ofList _)
  have sorted' : (twoStages .empty).Sorted := sorted_twoStages Table.ascending_empty
  obtain ⟨-, hvalues, halone⟩ := compose_ranked sorted hflow
  obtain ⟨-, hvalues', -⟩ := compose_ranked sorted' hplain
  obtain ⟨hothers, hbound, -⟩ := halone "pack" (twoStages .empty) idleRegistry plain
    (agreeBut_twoStages line .empty) sorted' rfl hplain
  exact ⟨flow, plain, hflow, hplain, hvalues "pack" _ "effort" (.str "high") rfl rfl rfl,
    hvalues' "pack" _ "effort" (.str "low") rfl rfl rfl,
    hvalues "place" _ "seed" (.int 7) rfl rfl rfl, hothers "place" (by decide), hbound⟩

end Toolflow
