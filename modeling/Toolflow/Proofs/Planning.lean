import Mathlib.Data.List.Nodup
import Toolflow.Flow.Plan
import Toolflow.Proofs.Steps

/-! What every plan has in common.

Planning binds a dependency, notes that one is missing, or adds the step of a stage; a property that
these three keep holds of every plan. A stage is added at most once, since those that wait for a
stage are not planned on the way. Each step carries the outputs of a context built on the disk of
the plan, and is fed with outputs of earlier steps or with bindings of the configuration. -/
namespace Toolflow

/-- A composed flow lists its stages under their own names. -/
theorem compose_named {s : FlowSources} {registry : Registry} {cwd : String} {flow : Flow}
    (h : s.compose registry cwd = .ok flow) : flow.Named := by
  unfold FlowSources.compose at h
  split at h
  · cases h
  · obtain ⟨env, -, hrest⟩ := bind_eq_ok.mp h
    obtain ⟨⟨stages, last⟩, hstages, hflow⟩ := bind_eq_ok.mp hrest
    cases hflow
    refine foldlM_keeps (P := fun (found : Table Stage × Registry) =>
      ∀ name stage, found.1.get? name = some stage → stage.name = name) ?_
      (by simp [Table.get?_empty]) hstages
    rintro ⟨name, d⟩ - ⟨found, reg⟩ after hfound hafter
    obtain ⟨⟨stage, next⟩, hstage, hinsert⟩ := bind_eq_ok.mp hafter
    cases hinsert
    have hname : stage.name = name := by
      unfold FlowSources.composeStage at hstage
      obtain ⟨env, -, hmake⟩ := bind_eq_ok.mp hstage
      obtain ⟨⟨m, later⟩, -, hpair⟩ := bind_eq_ok.mp hmake
      cases hpair
      rfl
    intro other found' hother
    dsimp only at hother
    by_cases heq : other = name
    · rw [heq, Table.get?_insert_self] at hother
      cases hother
      exact hname.trans heq.symm
    · rw [Table.get?_insert_of_ne _ _ heq] at hother
      exact hfound other found' hother

namespace Flow

/-- Enters a product of a stage, unless some stage has it. -/
def enterProduct (name : String) (t : Table String) (d : Declared) :
    Except Failure (Table String) :=
  match t.get? d.name with
  | some other => refuse (.twoProducers d.name other name)
  | none => .ok (t.insert d.name name)

theorem producers_eq (f : Flow) : f.producers =
    f.stages.entries.foldlM (fun t e => e.2.io.produces.foldlM (enterProduct e.1) t) .empty := rfl

/-- The products of one stage are entered under different names that were free. -/
theorem enterProducts_nodup {name : String} {l : List Declared} {t after : Table String}
    (h : l.foldlM (enterProduct name) t = .ok after) :
    (l.map Declared.name).Nodup ∧ ∀ d ∈ l, t.get? d.name = none := by
  induction l generalizing t with
  | nil => exact ⟨List.nodup_nil, by simp⟩
  | cons d rest ih =>
    rw [List.foldlM_cons] at h
    obtain ⟨next, hnext, h⟩ := bind_eq_ok.mp h
    unfold enterProduct at hnext
    cases hd : t.get? d.name with
    | some other =>
      rw [hd] at hnext
      cases hnext
    | none =>
      rw [hd] at hnext
      cases hnext
      obtain ⟨hnodup, hfree⟩ := ih h
      have hne : ∀ e ∈ rest, e.name ≠ d.name := by
        intro e he heq
        have hget := hfree e he
        rw [heq, Table.get?_insert_self] at hget
        cases hget
      refine ⟨List.nodup_cons.mpr ⟨fun hmem => ?_, hnodup⟩,
        List.forall_mem_cons.mpr ⟨hd, fun e he => ?_⟩⟩
      · obtain ⟨e, he, heq⟩ := List.mem_map.mp hmem
        exact hne e he heq
      · have hget := hfree e he
        rwa [Table.get?_insert_of_ne _ _ (hne e he)] at hget

/-- A stage of a flow in which no dependency has two producers declares each product once. -/
theorem producers_nodup {f : Flow} {producers : Table String} (h : f.producers = .ok producers)
    {name : String} {stage : Stage} (hstage : f.stages.get? name = some stage) :
    (stage.io.produces.map Declared.name).Nodup := by
  rw [producers_eq] at h
  obtain ⟨t, next, hnext⟩ := foldlM_each h (Table.mem_of_get? hstage)
  exact (enterProducts_nodup hnext).1

end Flow

/-- The declaration of a product that is declared once. -/
theorem find?_reverse_of_nodup {l : List Declared} (h : (l.map Declared.name).Nodup)
    {d : Declared} (hd : d ∈ l) : l.reverse.find? (·.name = d.name) = some d := by
  cases hfound : l.reverse.find? (·.name = d.name) with
  | none =>
    have hnone := List.find?_eq_none.mp hfound d (List.mem_reverse.mpr hd)
    simp at hnone
  | some e =>
    have hname : e.name = d.name := by simpa using List.find?_some hfound
    have he : e ∈ l := List.mem_reverse.mp (List.mem_of_find?_eq_some hfound)
    rw [List.inj_on_of_nodup_map h he hd hname]

/-- The outputs of a step: those of its context, which only binds declared products. -/
theorem stepOutputs_eq {m : ToolModule} {stage : String} {inputs : StageInputs} {env : Environment}
    {roots : Roots} {disk : Disk} {ctx : Context}
    (h : Context.build m stage inputs env roots disk = .ok ctx) :
    m.io.produces.foldl (fun (t : ValueTable) d =>
      match ctx.outputs.get? d.name with
      | some v => t.insert d.name v
      | none => t) .empty = ctx.outputs.bound := by
  have hascending := Context.ascending_outputs h
  have hstep : ∀ (t : ValueTable) (d : Declared), (match ctx.outputs.get? d.name with
      | some v => t.insert d.name v
      | none => t) = (ctx.outputs.get? d.name).elim t (t.insert d.name) := by
    intro t d
    cases ctx.outputs.get? d.name <;> rfl
  refine Table.Ascending.ext (Table.ascending_foldl_insert hstep _ Table.ascending_empty)
    (Bindings.ascending_bound hascending) fun name => ?_
  rw [Table.get?_foldl_insert hstep fun d e hname => by simp only [hname], Table.get?_empty,
    Option.or_none, Bindings.get?_bound hascending]
  cases hv : ctx.outputs.get? name with
  | none =>
    cases hd : m.io.produces.find? (·.name = name) with
    | none => rfl
    | some d =>
      have hname : d.name = name := by simpa using List.find?_some hd
      simp [hname, hv]
  | some v =>
    obtain ⟨d, hmem, hname⟩ := Context.output_declared h hv
    cases hd : m.io.produces.find? (·.name = name) with
    | none => exact absurd hname (by simpa using List.find?_eq_none.mp hd d hmem)
    | some e =>
      have hename : e.name = name := by simpa using List.find?_some hd
      simp [hename, hv]

theorem Flow.stage_eq_ok_iff {flow : Flow} {name : String} {stage : Stage} :
    flow.stage name = .ok stage ↔ flow.stages.get? name = some stage := by
  unfold Flow.stage
  cases flow.stages.get? name with
  | none => simp [refuse]
  | some found => simp

namespace PlanSources
variable {s : PlanSources} {p after : Planning} {stage : Stage}

theorem bindProducts_spec (cwd : String) (outputs : Bindings) (l : List Declared) (p : Planning) :
    (l.foldl (Planning.bindProduct cwd outputs) p).steps = p.steps ∧
      (l.foldl (Planning.bindProduct cwd outputs) p).planned = p.planned ∧
      ∀ dep v, (l.foldl (Planning.bindProduct cwd outputs) p).paths.get? dep = some v →
        p.paths.get? dep = some v ∨ outputs.get? dep = some v := by
  induction l generalizing p with
  | nil => exact ⟨rfl, rfl, fun _ _ h => Or.inl h⟩
  | cons d rest ih =>
    obtain ⟨hsteps, hplanned, hpaths⟩ := ih (Planning.bindProduct cwd outputs p d)
    rw [List.foldl_cons]
    cases hd : outputs.get? d.name with
    | none =>
      simp only [Planning.bindProduct, hd] at hsteps hplanned hpaths ⊢
      exact ⟨hsteps, hplanned, hpaths⟩
    | some w =>
      simp only [Planning.bindProduct, hd, Planning.bind] at hsteps hplanned hpaths ⊢
      refine ⟨hsteps, hplanned, fun dep v hv => ?_⟩
      rcases hpaths dep v hv with hv | hv
      · by_cases hdep : dep = d.name
        · subst hdep
          rw [Table.get?_insert_self] at hv
          exact Or.inr (hd.trans hv)
        · rw [Table.get?_insert_of_ne _ _ hdep] at hv
          exact Or.inl hv
      · exact Or.inr hv

theorem bindProducts_keeps {P : Planning → Prop} (cwd : String)
    (bind : ∀ p dep v, P p → P (p.bind cwd dep v))
    (free : ∀ p producers unmapped, P p → P { p with producers, unmapped }) (outputs : Bindings)
    (l : List Declared) {p : Planning} (hp : P p) :
    P (l.foldl (Planning.bindProduct cwd outputs) p) := by
  induction l generalizing p with
  | nil => exact hp
  | cons d rest ih =>
    refine ih ?_
    unfold Planning.bindProduct
    split
    · exact bind p d.name _ hp
    · exact free p _ _ hp

/-- The environment of a step: the stage's own, under the variables of the dependencies met so
far. -/
def envOf (p : Planning) (stage : Stage) : Environment :=
  p.pathEnv.values.entries.foldl (fun (env : Environment) (name, v) => env.bindRaw name v) stage.env

/-- The step of a stage whose context is given. -/
def stepOf (s : PlanSources) (p : Planning) (stage : Stage) (ctx : Context) : PlanStep where
  stage := stage.name
  inputs := s.inputsOf stage p.paths
  env := envOf p stage
  outputs := ctx.outputs.bound
  required := s.mustRun stage (s.inputsOf stage p.paths) ctx.outputs.bound p.rebuilt

/-- The state after that step has been added. -/
def afterStep (s : PlanSources) (p : Planning) (stage : Stage) (ctx : Context) : Planning :=
  { stage.io.produces.foldl (Planning.bindProduct s.disk.cwd ctx.outputs) p with
    rebuilt := if (s.stepOf p stage ctx).required then
        NameSet.union p.rebuilt ctx.outputs.bound.keys
      else p.rebuilt
    steps := p.steps ++ [s.stepOf p stage ctx]
    planned := p.planned.add stage.name }

theorem addStep_of_build {ctx : Context}
    (h : Context.build stage.module stage.name (s.inputsOf stage p.paths) (envOf p stage)
      s.flow.roots s.disk = .ok ctx) : s.addStep p stage = .ok (s.afterStep p stage ctx) := by
  obtain ⟨hsteps, hplanned, hrebuilt⟩ := bindProducts_keeps s.disk.cwd
    (P := fun q => q.steps = p.steps ∧ q.planned = p.planned ∧ q.rebuilt = p.rebuilt)
    (fun _ _ _ hq => hq) (fun _ _ _ hq => hq) ctx.outputs stage.io.produces ⟨rfl, rfl, rfl⟩
  unfold addStep
  dsimp only
  split
  · rename_i found hfound
    cases h.symm.trans hfound
    unfold afterStep stepOf
    rw [← stepOutputs_eq h, ← hrebuilt, ← hsteps, ← hplanned]
    rfl
  · rename_i cause hfails
    cases h.symm.trans hfails

/-- Adding a step takes a context of the stage and nothing else. -/
theorem addStep_eq_ok_iff : s.addStep p stage = .ok after ↔ ∃ ctx,
    Context.build stage.module stage.name (s.inputsOf stage p.paths) (envOf p stage) s.flow.roots
      s.disk = .ok ctx ∧ after = s.afterStep p stage ctx := by
  constructor
  · intro h
    have hadded := h
    unfold addStep at h
    dsimp only at h
    split at h
    · rename_i ctx hbuilt
      exact ⟨ctx, hbuilt, Except.ok.inj (hadded.symm.trans (addStep_of_build hbuilt))⟩
    · cases h
  · rintro ⟨ctx, hbuilt, rfl⟩
    exact addStep_of_build hbuilt

/-- What adding a step does. -/
theorem addStep_spec (h : s.addStep p stage = .ok after) :
    ∃ ctx env required,
      Context.build stage.module stage.name (s.inputsOf stage p.paths) env s.flow.roots s.disk =
        .ok ctx ∧
      after.steps = p.steps ++
        [⟨stage.name, s.inputsOf stage p.paths, env, ctx.outputs.bound, required⟩] ∧
      after.planned = p.planned.add stage.name ∧
      ∀ dep v, after.paths.get? dep = some v →
        p.paths.get? dep = some v ∨ ctx.outputs.get? dep = some v := by
  obtain ⟨ctx, hbuilt, rfl⟩ := addStep_eq_ok_iff.mp h
  exact ⟨ctx, _, _, hbuilt, rfl, rfl,
    (bindProducts_spec s.disk.cwd ctx.outputs stage.io.produces p).2.2⟩

/-- Planning after a dependency that no stage produces has been met. -/
def source (s : PlanSources) (p : Planning) (dep : String) : Planning :=
  match s.flow.dependencies.get? dep with
  | some v => p.bind s.disk.cwd dep v
  | none => if p.unmapped.contains dep then p else { p with missing := p.missing.add dep }

/-- The check that ends a meeting: a required dependency has to be bound by then. -/
theorem check_eq_ok_iff {unmet : Fault} {required : Bool} {dep : String} {next : Planning} :
    (if required = true ∧ ¬ next.paths.contains dep = true then do
      refuse unmet
      pure next
    else pure next : Except Failure Planning) = .ok after ↔
      (required = true → after.paths.contains dep = true) ∧ after = next := by
  split
  · rename_i hunmet
    constructor
    · intro h
      cases h
    · rintro ⟨hbound, rfl⟩
      exact absurd (hbound hunmet.1) hunmet.2
  · rename_i hbound
    refine ⟨fun h => ?_, fun h => h.2 ▸ rfl⟩
    cases h
    exact ⟨fun hrequired => by simpa [hrequired] using hbound, rfl⟩

theorem meet_eq_ok_iff {planner : Planning → String → Except Failure Planning} {unmet : Fault}
    {required : Bool} {dep : String} : s.meet planner unmet required p dep = .ok after ↔
      (required = true → after.paths.contains dep = true) ∧
        (p.paths.contains dep = true ∧ after = p ∨
          p.paths.contains dep = false ∧
            ((∃ stage, p.producers.get? dep = some stage ∧ planner p stage = .ok after) ∨
              p.producers.get? dep = none ∧ after = s.source p dep)) := by
  unfold meet
  by_cases hmet : p.paths.contains dep = true
  · rw [if_pos hmet]
    simp only [hmet, true_and, Bool.true_eq_false, false_and, or_false]
    constructor
    · intro h
      cases h
      exact ⟨fun _ => hmet, rfl⟩
    · rintro ⟨-, rfl⟩
      rfl
  · rw [if_neg hmet]
    simp only [Bool.not_eq_true] at hmet
    simp only [hmet, Bool.false_eq_true, false_and, true_and, false_or]
    cases hproducer : p.producers.get? dep with
    | some stage =>
      dsimp only
      rw [bind_eq_ok]
      simp only [check_eq_ok_iff, Option.some.injEq, exists_eq_left', reduceCtorEq, false_and,
        or_false]
      constructor
      · rintro ⟨next, hnext, hbound, rfl⟩
        exact ⟨hbound, hnext⟩
      · rintro ⟨hbound, hnext⟩
        exact ⟨after, hnext, hbound, rfl⟩
    | none =>
      simp only [reduceCtorEq, false_and, exists_false, true_and, false_or]
      unfold source
      cases s.flow.dependencies.get? dep <;> exact check_eq_ok_iff

/-- The ways to meet a dependency: it has been met before, its producer is planned, or it has none
and is bound by the configuration or noted as missing. -/
theorem meet_cases {planner : Planning → String → Except Failure Planning} {unmet : Fault}
    {required : Bool} {dep : String} (h : s.meet planner unmet required p dep = .ok after) :
    (required = true → after.paths.contains dep = true) ∧
      (p.paths.contains dep = true ∧ after = p ∨
      (∃ stage, p.producers.get? dep = some stage ∧ planner p stage = .ok after) ∨
      p.producers.get? dep = none ∧
        ((∃ v, s.flow.dependencies.get? dep = some v ∧ after = p.bind s.disk.cwd dep v) ∨
          ∃ missing, after = { p with missing })) := by
  obtain ⟨hrequired, hmet | ⟨-, hplan | ⟨hnone, rfl⟩⟩⟩ := meet_eq_ok_iff.mp h
  · exact ⟨hrequired, Or.inl hmet⟩
  · exact ⟨hrequired, Or.inr (Or.inl hplan)⟩
  · refine ⟨hrequired, Or.inr (Or.inr ⟨hnone, ?_⟩)⟩
    unfold source
    cases s.flow.dependencies.get? dep with
    | some v => exact Or.inl ⟨v, rfl, rfl⟩
    | none =>
      refine Or.inr ?_
      dsimp only
      split
      · exact ⟨p.missing, rfl⟩
      · exact ⟨p.missing.add dep, rfl⟩

/-- Meeting a dependency keeps what planning a stage, binding and missing one keep. -/
theorem meet_keeps {planner : Planning → String → Except Failure Planning} {unmet : Fault}
    {required : Bool} {P : Planning → Prop} {dep : String}
    (plan : ∀ p stage after, P p → planner p stage = .ok after → P after)
    (bind : ∀ p v, P p → s.flow.dependencies.get? dep = some v → P (p.bind s.disk.cwd dep v))
    (miss : ∀ p missing, P p → P { p with missing })
    (hp : P p) (h : s.meet planner unmet required p dep = .ok after) : P after := by
  obtain ⟨-, ⟨-, rfl⟩ | ⟨stage, -, hstage⟩ | ⟨-, ⟨v, hv, rfl⟩ | ⟨missing, rfl⟩⟩⟩ := meet_cases h
  · exact hp
  · exact plan p stage after hp hstage
  · exact bind p v hp hv
  · exact miss p missing hp

/-- What the three moves of planning keep. A stage is added only while it is not planned. -/
structure Keeps (s : PlanSources) (P : Planning → Prop) : Prop where
  bind : ∀ p dep v, P p → s.flow.dependencies.get? dep = some v → P (p.bind s.disk.cwd dep v)
  miss : ∀ p missing, P p → P { p with missing }
  add : ∀ p stage after, s.flow.stages.get? stage.name = some stage →
    p.planned.contains stage.name = false → P p → s.addStep p stage = .ok after → P after

/-- A property of planning at a moment when the given stages wait for others to be planned. -/
structure Waits (P : Planning → Prop) (visiting : List String) (p : Planning) : Prop where
  holds : P p
  unplanned : ∀ v ∈ visiting, p.planned.contains v = false

/-- Meeting the takes of a stage keeps what planning one stage keeps. -/
theorem meetAll_keeps {P : Planning → Prop} (keeps : s.Keeps P) {visiting : List String}
    {planner : Planning → String → Except Failure Planning} {unmet : Declared → Fault}
    {takes : List Declared}
    (plan : ∀ p name after, Waits P visiting p → planner p name = .ok after →
      Waits P visiting after)
    (hp : Waits P visiting p)
    (h : takes.foldlM (fun p take => s.meet planner (unmet take) take.isRequired p take.name) p =
      .ok after) : Waits P visiting after := by
  refine foldlM_keeps (P := Waits P visiting) (fun take _ p next hp hnext => ?_) hp h
  refine meet_keeps (P := Waits P visiting) plan (fun p v hp hbound => ?_) (fun p missing hp => ?_)
    hp hnext
  · exact ⟨keeps.bind p take.name v hp.holds hbound, hp.unplanned⟩
  · exact ⟨keeps.miss p missing hp.holds, hp.unplanned⟩

/-- A stage that is added no longer waits; the others still do. -/
theorem Waits.add {P : Planning → Prop} {visiting : List String} (keeps : s.Keeps P)
    (hknown : s.flow.stages.get? stage.name = some stage) (hvisiting : stage.name ∉ visiting)
    (hp : Waits P (visiting ++ [stage.name]) p) (h : s.addStep p stage = .ok after) :
    Waits P visiting after := by
  obtain ⟨ctx, env, required, -, -, hadded, -⟩ := addStep_spec h
  have hself := hp.unplanned stage.name (List.mem_append_right _ (List.mem_singleton_self _))
  refine ⟨keeps.add p stage after hknown hself hp.holds h, fun v hv => ?_⟩
  have hne : v ≠ stage.name := fun heq => hvisiting (heq ▸ hv)
  have hold := hp.unplanned v (List.mem_append_left _ hv)
  rw [hadded]
  simpa [Table.contains, NameSet.add, Table.get?_insert_of_ne _ _ hne] using hold

/-- The ways to plan a stage: it has been planned, or it is added once its takes have been met while
it waited. -/
theorem planStage_cases (named : s.flow.Named) {fuel : Nat} {visiting : List String}
    {name : String} (h : s.planStage (fuel + 1) visiting p name = .ok after) :
    p.planned.contains name = true ∧ after = p ∨
    p.planned.contains name = false ∧ name ∉ visiting ∧ ∃ stage met, stage.name = name ∧
      s.flow.stages.get? name = some stage ∧
      stage.io.takes.foldlM (fun p take => s.meet (s.planStage fuel (visiting ++ [name]))
        (.unmetTake take.name name) take.isRequired p take.name) p = .ok met ∧
      s.addStep met stage = .ok after := by
  unfold planStage at h
  split at h
  · rename_i hplanned
    cases h
    exact Or.inl ⟨hplanned, rfl⟩
  · rename_i hplanned
    dsimp only at h
    split at h
    · cases h
    · rename_i hvisiting
      obtain ⟨stage, hstage, hrest⟩ := bind_eq_ok.mp h
      obtain ⟨met, hmet, hadd⟩ := bind_eq_ok.mp hrest
      have hknown := Flow.stage_eq_ok_iff.mp hstage
      exact Or.inr ⟨by simpa using hplanned, hvisiting, stage, met, named name stage hknown, hknown,
        hmet, hadd⟩

/-- Planning a stage keeps it too: the stages that wait for one, and the stage itself, are not
planned while its takes are met. -/
theorem planStage_keeps {P : Planning → Prop} (named : s.flow.Named) (keeps : s.Keeps P)
    (fuel : Nat) (visiting : List String) (name : String) (hp : Waits P visiting p)
    (h : s.planStage fuel visiting p name = .ok after) : Waits P visiting after := by
  induction fuel generalizing visiting p after name with
  | zero =>
    cases h
    exact hp
  | succ fuel ih =>
    rcases planStage_cases named h with
      ⟨-, rfl⟩ | ⟨hplanned, hvisiting, stage, met, rfl, hknown, hmet, hadd⟩
    · exact hp
    · have hwaiting : Waits P (visiting ++ [stage.name]) p :=
        ⟨hp.holds, List.forall_mem_append.mpr
          ⟨hp.unplanned, List.forall_mem_singleton.mpr hplanned⟩⟩
      have hmet := meetAll_keeps keeps (fun p name after => ih _ name) hwaiting hmet
      exact hmet.add keeps hknown hvisiting hadd

end PlanSources

/-- What planning for a target starts from. -/
def Flow.planSources (f : Flow) (producers : Table String) (target : String)
    (cache : Option Fingerprints) (disk : Disk) : PlanSources :=
  { flow := f, cache, disk, demanded := f.demanded producers target }

section
variable {f : Flow} {target : String} {cache : Option Fingerprints} {disk : Disk} {plan : Plan}

/-- A plan is where the moves of planning lead to. -/
theorem plan_reaches (named : f.Named) (h : f.plan target cache disk = .ok plan) :
    ∃ producers, ∃ p : Planning, f.producers = .ok producers ∧
      plan = ⟨target, p.steps, p.paths, countRebuilds p.steps, p.missing, p.unmapped⟩ ∧
      ∀ P, (f.planSources producers target cache disk).Keeps P → P (.start producers) → P p := by
  unfold Flow.plan at h
  obtain ⟨producers, hproducers, hrest⟩ := bind_eq_ok.mp h
  obtain ⟨p, hp, hplan⟩ := bind_eq_ok.mp hrest
  cases hplan
  refine ⟨producers, p, hproducers, rfl, fun P keeps hstart => ?_⟩
  refine PlanSources.meet_keeps (s := f.planSources producers target cache disk) ?_ ?_ ?_ hstart hp
  · intro p stage after hp hafter
    exact (PlanSources.planStage_keeps named keeps _ [] stage ⟨hp, by simp⟩ hafter).holds
  · exact fun p v => keeps.bind p target v
  · exact keeps.miss

theorem plan_keeps (named : f.Named) (h : f.plan target cache disk = .ok plan) :
    ∃ producers p, f.producers = .ok producers ∧ plan.target = target ∧ plan.steps = p.steps ∧
      plan.paths = p.paths ∧
      ∀ P, (f.planSources producers target cache disk).Keeps P → P (.start producers) → P p := by
  obtain ⟨producers, p, hproducers, rfl, hkeeps⟩ := plan_reaches named h
  exact ⟨producers, p, hproducers, rfl, rfl, rfl, hkeeps⟩

/-- Each step of a plan carries the outputs of a context that is built on the plan's disk. -/
theorem plan_built (named : f.Named) (h : f.plan target cache disk = .ok plan) :
    ∃ producers, f.producers = .ok producers ∧ ∀ step ∈ plan.steps, ∃ stage ctx paths,
      Reached f step disk stage ctx ∧ step.outputs = ctx.outputs.bound ∧
      step.inputs = (f.planSources producers target cache disk).inputsOf stage paths := by
  obtain ⟨producers, p, hproducers, -, hsteps, -, hkeeps⟩ := plan_keeps named h
  refine ⟨producers, hproducers, hsteps ▸ hkeeps (fun p => ∀ step ∈ p.steps, ∃ stage ctx paths,
    Reached f step disk stage ctx ∧ step.outputs = ctx.outputs.bound ∧
    step.inputs = (f.planSources producers target cache disk).inputsOf stage paths)
    ⟨fun _ _ _ hp _ => hp, fun _ _ hp => hp, ?_⟩ (by simp [Planning.start])⟩
  intro p stage after hstage _ hp hadd step hstep
  obtain ⟨ctx, env, required, hbuilt, hsteps, -, -⟩ := PlanSources.addStep_spec hadd
  rw [hsteps] at hstep
  rcases List.mem_append.mp hstep with hstep | hstep
  · exact hp step hstep
  · rw [List.mem_singleton.mp hstep]
    exact ⟨stage, ctx, p.paths, ⟨hstage, hbuilt⟩, rfl, rfl⟩

/-- No stage is planned twice. -/
theorem plan_distinct (named : f.Named) (h : f.plan target cache disk = .ok plan) :
    (plan.steps.map PlanStep.stage).Nodup := by
  obtain ⟨producers, p, -, -, hsteps, -, hkeeps⟩ := plan_keeps named h
  have hp := hkeeps (fun p => (p.steps.map PlanStep.stage).Nodup ∧
    ∀ step ∈ p.steps, p.planned.contains step.stage = true)
    ⟨fun _ _ _ hp _ => hp, fun _ _ hp => hp, ?_⟩ (by simp [Planning.start])
  · exact hsteps ▸ hp.1
  · rintro p stage after - hunplanned ⟨hnodup, hplanned⟩ hadd
    obtain ⟨ctx, env, required, -, hsteps, hadded, -⟩ := PlanSources.addStep_spec hadd
    rw [hsteps, hadded]
    constructor
    · rw [List.map_append, List.nodup_append]
      refine ⟨hnodup, by simp, ?_⟩
      intro name hname other hother heq
      obtain ⟨step, hstep, rfl⟩ := List.mem_map.mp hname
      have hother : other = stage.name := by simpa using hother
      have hcontains := hplanned step hstep
      rw [heq, hother, hunplanned] at hcontains
      cases hcontains
    · intro step hstep
      rcases List.mem_append.mp hstep with hstep | hstep
      · have hcontains := hplanned step hstep
        unfold Table.contains NameSet.add at *
        rw [Table.get?_insert]
        split
        · rfl
        · exact hcontains
      · rw [List.mem_singleton.mp hstep]
        simp [Table.contains, NameSet.add]

/-- Where a path comes from: a step that has been planned, or the configuration. -/
def Flow.Offers (f : Flow) (steps : List PlanStep) (dep : String) (v : Value) : Prop :=
  (∃ step ∈ steps, step.outputs.get? dep = some v) ∨ f.dependencies.get? dep = some v

theorem Flow.Offers.mono {f : Flow} {steps more : List PlanStep} {dep : String} {v : Value}
    (h : f.Offers steps dep v) (hsub : ∀ step ∈ steps, step ∈ more) : f.Offers more dep v :=
  h.imp_left fun ⟨step, hstep, hv⟩ => ⟨step, hsub step hstep, hv⟩

/-- A stage is fed with the paths of its takes. -/
theorem PlanSources.get?_inputsOf_eq (s : PlanSources) (stage : Stage) (paths : ValueTable)
    (take : String) : (s.inputsOf stage paths).takes.get? take =
      (stage.io.takes.find? (·.name = take)).bind fun d => paths.get? d.name := by
  have hlook : (s.inputsOf stage paths).takes.get? take =
      ((stage.io.takes.find? (·.name = take)).bind fun d => paths.get? d.name).or none :=
    Table.get?_foldl_insert (fun t d => by cases paths.get? d.name <;> rfl)
      (fun d e hname => by simp only [hname]) _ _ _
  rw [hlook, Option.or_none]

theorem PlanSources.ascending_inputsOf (s : PlanSources) (stage : Stage) (paths : ValueTable) :
    (s.inputsOf stage paths).takes.Ascending := by
  have hstep : ∀ (t : ValueTable) (d : Declared), (match paths.get? d.name with
      | some v => t.insert d.name v
      | none => t) = (paths.get? d.name).elim t (t.insert d.name) := by
    intro t d
    cases paths.get? d.name <;> rfl
  exact Table.ascending_foldl_insert hstep _ Table.ascending_empty

theorem PlanSources.get?_inputsOf {s : PlanSources} {stage : Stage} {paths : ValueTable}
    {take : String} {v : Value} (h : (s.inputsOf stage paths).takes.get? take = some v) :
    paths.get? take = some v := by
  rw [s.get?_inputsOf_eq, Option.bind_eq_some_iff] at h
  obtain ⟨d, hd, hv⟩ := h
  have hname : d.name = take := by simpa using List.find?_some hd
  exact hname ▸ hv

theorem PlanSources.get?_inputsOf_declared (s : PlanSources) {stage : Stage} (paths : ValueTable)
    {take : Declared} (h : take ∈ stage.io.takes) :
    (s.inputsOf stage paths).takes.get? take.name = paths.get? take.name := by
  rw [s.get?_inputsOf_eq]
  cases hd : stage.io.takes.find? (·.name = take.name) with
  | none => simpa using List.find?_eq_none.mp hd take h
  | some d =>
    have hname : d.name = take.name := by simpa using List.find?_some hd
    rw [Option.bind_some, hname]

/-- What a step is fed with is fed to a declared take, under its name. -/
theorem plan_fed (named : f.Named) (h : f.plan target cache disk = .ok plan) {step : PlanStep}
    (hstep : step ∈ plan.steps) {stage : Stage} (known : f.stages.get? step.stage = some stage)
    {take : String} {planned : Value} (fed : (take, planned) ∈ step.inputs.takes.entries) :
    ∃ d ∈ stage.io.takes, d.name = take ∧ step.inputs.takes.get? d.name = some planned := by
  obtain ⟨producers, -, hbuilt⟩ := plan_built named h
  obtain ⟨found, ctx, paths, reached, -, hinputs⟩ := hbuilt step hstep
  cases reached.known.symm.trans known
  have hget : step.inputs.takes.get? take = some planned := by
    rw [hinputs] at fed ⊢
    exact (PlanSources.ascending_inputsOf _ _ _).get?_eq_some_iff.mpr fed
  have hlook := hget
  rw [hinputs, PlanSources.get?_inputsOf_eq, Option.bind_eq_some_iff] at hlook
  obtain ⟨d, hd, -⟩ := hlook
  have hname : d.name = take := by simpa using List.find?_some hd
  exact ⟨d, List.mem_of_find?_eq_some hd, hname, hname ▸ hget⟩

/-- Every take is fed by a strictly earlier step or by the configuration. -/
def Flow.Wired (f : Flow) (steps : List PlanStep) : Prop :=
  ∀ before step after, steps = before ++ step :: after →
    ∀ take v, step.inputs.takes.get? take = some v → f.Offers before take v

/-- Plans are wired, and the target is the output of a step or bound by the configuration. -/
theorem plan_wired (named : f.Named) (h : f.plan target cache disk = .ok plan) :
    f.Wired plan.steps ∧ ∀ v, plan.targetPath? = some v → f.Offers plan.steps plan.target v := by
  obtain ⟨producers, p, -, -, hsteps, hpaths, hkeeps⟩ := plan_keeps named h
  have hp := hkeeps (fun p => f.Wired p.steps ∧
      ∀ dep v, p.paths.get? dep = some v → f.Offers p.steps dep v)
    ⟨?_, fun _ _ hp => hp, ?_⟩ (by simp [Planning.start, Flow.Wired])
  · rw [hsteps]
    refine ⟨hp.1, fun v hv => hp.2 _ v ?_⟩
    rw [← hpaths]
    exact hv
  · rintro p dep v ⟨hwired, hoffers⟩ hbound
    refine ⟨hwired, fun other w hw => ?_⟩
    by_cases hother : other = dep
    · subst hother
      simp only [Planning.bind, Table.get?_insert_self] at hw
      cases hw
      exact Or.inr hbound
    · simp only [Planning.bind, Table.get?_insert_of_ne _ _ hother] at hw
      exact hoffers other w hw
  · rintro p stage after - - ⟨hwired, hoffers⟩ hadd
    obtain ⟨ctx, env, required, hbuilt, hsteps, -, hpaths⟩ := PlanSources.addStep_spec hadd
    have hold : ∀ step ∈ p.steps, step ∈ after.steps := by
      intro step hstep
      rw [hsteps]
      exact List.mem_append_left _ hstep
    constructor
    · intro before step rest horder take v hv
      rw [hsteps] at horder
      rcases List.eq_nil_or_concat' rest with rfl | ⟨rest, last, rfl⟩
      · obtain ⟨rfl, hlast⟩ := List.append_inj' horder rfl
        cases hlast
        exact hoffers take v (PlanSources.get?_inputsOf hv)
      · rw [← List.cons_append, ← List.append_assoc] at horder
        exact hwired before step rest (List.append_inj' horder rfl).1 take v hv
    · intro dep v hv
      rcases hpaths dep v hv with hv | hv
      · exact (hoffers dep v hv).mono hold
      · refine Or.inl ⟨_, hsteps ▸ List.mem_append_right _ (List.mem_singleton_self _), ?_⟩
        dsimp only
        rw [Bindings.get?_bound (Context.ascending_outputs hbuilt)]
        exact hv

end
end Toolflow
