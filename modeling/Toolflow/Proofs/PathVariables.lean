import Toolflow.Proofs.Copying
import Toolflow.Proofs.Planning
import Toolflow.Proofs.Values

/-! The path variables of a context.

A dependency is referred to by three variables: its path, the path without extension and its
directory. They reach a context by two ways. Planning binds them in the environment of a step for
every dependency it has met with a path, whether or not files are there; the context adds those of
the takes it binds. So an optional take whose files are missing is unbound, and its variables are
not: they are what it was fed with. -/
namespace Toolflow

/-- The names by which a dependency is referred to. -/
def pathVariables (name : String) : List String :=
  [":" ++ name, ":" ++ name ++ "[noext]", ":" ++ name ++ "[dir]"]

namespace Environment
variable {env : Environment} {key : String}

/-- The variables of a dependency are bound for its paths; the others are kept. -/
theorem get?_addPathVariants (env : Environment) (cwd name key : String) (v : Value) :
    (env.addPathVariants cwd name v).get? key =
      if key ∈ pathVariables name then (empty.addPathVariants cwd name v).get? key
      else env.get? key := by
  unfold addPathVariants pathVariables
  simp only [get?_bindRaw]
  by_cases hdir : key = ":" ++ name ++ "[dir]"
  · simp [hdir]
  · by_cases hbare : key = ":" ++ name ++ "[noext]"
    · simp [hbare]
    · by_cases hpath : key = ":" ++ name <;> simp [hdir, hbare, hpath]

theorem isSome_addPathVariants (cwd : String) {name : String} (h : key ∈ pathVariables name)
    (v : Value) :
    ((empty.addPathVariants cwd name v).get? key).isSome = true := by
  unfold pathVariables at h
  simp only [List.mem_cons, List.not_mem_nil, or_false] at h
  unfold addPathVariants
  simp only [get?_bindRaw]
  split
  · rfl
  · rename_i hdir
    split
    · rfl
    · rename_i hbare
      rw [if_pos (h.resolve_right fun h => h.elim hbare hdir)]
      rfl

/-- Dependencies that do not have a variable leave it as it is. -/
theorem get?_foldl_addPathVariants {cwd : String} {l : List (String × Value)}
    (h : ∀ e ∈ l, key ∉ pathVariables e.1) :
    (l.foldl (fun (env : Environment) (name, v) => env.addPathVariants cwd name v) env).get? key =
      env.get? key := by
  induction l generalizing env with
  | nil => rfl
  | cons e rest ih =>
    obtain ⟨hfirst, hrest⟩ := List.forall_mem_cons.mp h
    rw [List.foldl_cons, ih hrest, get?_addPathVariants, if_neg hfirst]

/-- Bindings laid over an environment hide those below. -/
theorem get?_foldl_bindRaw {t : ValueTable} (ascending : t.Ascending) (env : Environment)
    (key : String) :
    (t.entries.foldl (fun (env : Environment) (name, v) => env.bindRaw name v) env).get? key =
      (t.get? key).or (env.get? key) := by
  obtain ⟨l⟩ := t
  unfold Table.Ascending Table.keys at ascending
  unfold Table.get?
  induction l generalizing env with
  | nil => rfl
  | cons e rest ih =>
    obtain ⟨name, v⟩ := e
    obtain ⟨hfirst, hrest⟩ := List.pairwise_cons.mp ascending
    rw [List.foldl_cons, ih _ hrest, get?_bindRaw, Table.lookup]
    by_cases hname : name = key
    · subst hname
      have hnone : Table.lookup name rest = none := by
        rw [Option.eq_none_iff_forall_ne_some]
        intro w hw
        exact lt_irrefl _ (hfirst name (List.mem_map.mpr ⟨_, Table.mem_of_lookup hw, rfl⟩))
      rw [hnone, if_pos rfl, if_pos rfl]
      rfl
    · rw [if_neg hname, if_neg (Ne.symm hname)]

end Environment

namespace PlanSources

/-- The path variables that are bound belong to dependencies that have been met, and those that
belong to no other dependency are what its path makes them. -/
structure Referable (cwd : String) (p : Planning) : Prop where
  ascending : p.pathEnv.values.Ascending
  met : ∀ key, (p.pathEnv.get? key).isSome = true →
    ∃ dep, p.paths.contains dep = true ∧ key ∈ pathVariables dep
  bound : ∀ key dep v, p.paths.get? dep = some v → key ∈ pathVariables dep →
    (∀ other, p.paths.contains other = true → key ∈ pathVariables other → other = dep) →
    p.pathEnv.get? key = (Environment.empty.addPathVariants cwd dep v).get? key

theorem Referable.bind {cwd : String} {p : Planning} (h : Referable cwd p) (dep : String)
    (v : Value) : Referable cwd (p.bind cwd dep v) where
  ascending := ((h.ascending.insert _ _).insert _ _).insert _ _
  met key hkey := by
    unfold Planning.bind at hkey ⊢
    rw [Environment.get?_addPathVariants] at hkey
    by_cases hself : key ∈ pathVariables dep
    · exact ⟨dep, (Table.contains_insert ..).mpr (Or.inl rfl), hself⟩
    · rw [if_neg hself] at hkey
      obtain ⟨other, hother, hmem⟩ := h.met key hkey
      exact ⟨other, (Table.contains_insert ..).mpr (Or.inr hother), hmem⟩
  bound key other w hw hkey alone := by
    unfold Planning.bind at hw alone ⊢
    dsimp only at hw alone ⊢
    simp only [Table.contains_insert] at alone
    rw [Environment.get?_addPathVariants]
    by_cases hself : key ∈ pathVariables dep
    · obtain rfl : dep = other := alone dep (Or.inl rfl) hself
      rw [Table.get?_insert_self] at hw
      cases hw
      rw [if_pos hself]
    · have hne : other ≠ dep := fun heq => hself (heq ▸ hkey)
      rw [Table.get?_insert_of_ne _ _ hne] at hw
      rw [if_neg hself]
      exact h.bound key other w hw hkey fun third hthird => alone third (Or.inr hthird)

/-- A variable that only a dependency not met yet can have is free. -/
theorem Referable.free {cwd : String} {p : Planning} (h : Referable cwd p) {key dep : String}
    (alone : ∀ other, p.paths.contains other = true → key ∈ pathVariables other → other = dep)
    (unmet : p.paths.get? dep = none) : p.pathEnv.get? key = none := by
  by_contra hbound
  obtain ⟨other, hother, hmem⟩ := h.met key (Option.isSome_iff_ne_none.mpr hbound)
  obtain ⟨v, hv⟩ := Table.contains_eq_true_iff.mp hother
  rw [alone other hother hmem, unmet] at hv
  cases hv

theorem referable_start (cwd : String) (producers : Table String) :
    Referable cwd (.start producers) where
  ascending := Table.ascending_empty
  met key hkey := by simp [Planning.start, Environment.get?, Environment.empty] at hkey
  bound key dep v hv := by simp [Planning.start] at hv

variable {s : PlanSources}

/-- A step refers to the dependencies that had been met when it was added. -/
structure Refers (s : PlanSources) (p : Planning) (step : PlanStep) (stage : Stage)
    (met : Planning) : Prop where
  known : s.flow.stages.get? step.stage = some stage
  referable : Referable s.disk.cwd met
  kept : ∀ dep, met.paths.contains dep = true → p.paths.contains dep = true
  inputs : step.inputs = s.inputsOf stage met.paths
  env : step.env = envOf met stage

theorem Refers.mono {p after met : Planning} {step : PlanStep} {stage : Stage}
    (h : s.Refers p step stage met)
    (grows : ∀ dep, p.paths.contains dep = true → after.paths.contains dep = true) :
    s.Refers after step stage met :=
  ⟨h.known, h.referable, fun dep hdep => grows dep (h.kept dep hdep), h.inputs, h.env⟩

theorem keeps_refers (s : PlanSources) : s.Keeps fun p =>
    Referable s.disk.cwd p ∧ ∀ step ∈ p.steps, ∃ stage met, s.Refers p step stage met where
  bind p dep v hp _ := by
    refine ⟨hp.1.bind dep v, fun step hstep => ?_⟩
    obtain ⟨stage, met, hmet⟩ := hp.2 step hstep
    exact ⟨stage, met, hmet.mono fun other hother =>
      (Table.contains_insert ..).mpr (Or.inr hother)⟩
  miss p missing hp := by
    refine ⟨⟨hp.1.ascending, hp.1.met, hp.1.bound⟩, fun step hstep => ?_⟩
    obtain ⟨stage, met, hmet⟩ := hp.2 step hstep
    exact ⟨stage, met, hmet.mono fun _ h => h⟩
  add p stage after known _ hp hadd := by
    obtain ⟨ctx, hbuilt, rfl⟩ := addStep_eq_ok_iff.mp hadd
    obtain ⟨hreferable, hgrows⟩ := bindProducts_keeps s.disk.cwd
      (P := fun q => Referable s.disk.cwd q ∧
        ∀ dep, p.paths.contains dep = true → q.paths.contains dep = true)
      (fun q dep v hq => ⟨hq.1.bind dep v, fun other hother =>
        (Table.contains_insert ..).mpr (Or.inr (hq.2 other hother))⟩)
      (fun q _ _ hq => ⟨⟨hq.1.ascending, hq.1.met, hq.1.bound⟩, hq.2⟩)
      ctx.outputs stage.io.produces ⟨hp.1, fun _ h => h⟩
    refine ⟨⟨hreferable.ascending, hreferable.met, hreferable.bound⟩, fun step hstep => ?_⟩
    rcases List.mem_append.mp hstep with hstep | hstep
    · obtain ⟨found, met, hmet⟩ := hp.2 step hstep
      exact ⟨found, met, hmet.mono hgrows⟩
    · rw [List.mem_singleton.mp hstep]
      exact ⟨stage, p, known, hp.1, hgrows, rfl, rfl⟩

end PlanSources

namespace Context
variable {m : ToolModule} {stage : String} {inputs : StageInputs} {env : Environment}
  {roots : Roots} {disk : Disk} {ctx : Context}

/-- The environment of a context: that of its step, with the variables of the bound takes. -/
theorem build_env (h : build m stage inputs env roots disk = .ok ctx) :
    ctx.env = ctx.takes.bound.entries.foldl
      (fun (env : Environment) (name, v) => env.addPathVariants disk.cwd name v) env := by
  obtain ⟨base, defaults, outputs, hbase, -, -, -, -, rfl⟩ := build_eq_ok_iff.mp h
  unfold ofInputs at hbase
  obtain ⟨takes, -, hrest⟩ := bind_eq_ok.mp hbase
  obtain ⟨values, -, hlast⟩ := bind_eq_ok.mp hrest
  cases hlast
  rfl

/-- A variable of none of the bound takes is as in the environment of the step. -/
theorem build_env_of_unbound (h : build m stage inputs env roots disk = .ok ctx) {key : String}
    (unbound : ∀ name v, ctx.takes.get? name = some v → key ∉ pathVariables name) :
    ctx.env.get? key = env.get? key := by
  rw [build_env h]
  refine Environment.get?_foldl_addPathVariants fun e he => unbound e.1 e.2 ?_
  have ascending : ctx.takes.entries.Ascending := by
    rw [build_takes h]
    exact Bindings.ascending_foldl_set _ _ Table.ascending_empty
  rw [← Bindings.get?_bound ascending]
  exact (Bindings.ascending_bound ascending).get?_eq_some_iff.mpr he

end Context

/-- A variable that only a take left unbound can have is as planning or else the stage binds it. -/
theorem PlanSources.Refers.env_of_absent {s : PlanSources} {p met : Planning} {step : PlanStep}
    {stage : Stage} {disk : Disk} {ctx : Context} (h : s.Refers p step stage met)
    (reached : Reached s.flow step disk stage ctx) {take key : String}
    (absent : ctx.takes.get? take = none)
    (alone : ∀ dep, met.paths.contains dep = true → key ∈ pathVariables dep → dep = take) :
    ctx.env.get? key = (met.pathEnv.get? key).or (stage.env.get? key) := by
  have hunbound : ∀ name v, ctx.takes.get? name = some v → key ∉ pathVariables name := by
    intro name v hv hmem
    obtain ⟨d, -, rfl, ⟨planned, hentry, -⟩, -⟩ := reached.take_bound hv
    rw [h.inputs] at hentry
    have hplanned := (s.ascending_inputsOf stage met.paths).get?_eq_some_iff.mpr hentry
    have hmet := Table.contains_eq_true_iff.mpr ⟨_, get?_inputsOf hplanned⟩
    rw [alone d.name hmet hmem, absent] at hv
    cases hv
  rw [Context.build_env_of_unbound reached.built hunbound, h.env]
  exact Environment.get?_foldl_bindRaw h.referable.ascending _ _

/-- The variables of a take that a context leaves unbound, as long as no other dependency has them:
they are what the stage itself binds if the take was fed with nothing, and otherwise they are bound
for what it was fed with, whether or not that is there. -/
theorem absent_take_variables {f : Flow} {target : String} {cache : Option Fingerprints}
    {disk other : Disk} {plan : Plan} (named : f.Named)
    (h : f.plan target cache disk = .ok plan) {step : PlanStep} (hstep : step ∈ plan.steps)
    {stage : Stage} {ctx : Context} (reached : Reached f step other stage ctx) {take : Declared}
    (declared : take ∈ stage.io.takes) (absent : ctx.takes.get? take.name = none) {key : String}
    (hkey : key ∈ pathVariables take.name)
    (alone : ∀ dep ∈ plan.paths.keys, key ∈ pathVariables dep → dep = take.name) :
    (step.inputs.takes.get? take.name = none → ctx.env.get? key = stage.env.get? key) ∧
      ∀ planned, step.inputs.takes.get? take.name = some planned →
        ctx.env.get? key =
            (Environment.empty.addPathVariants disk.cwd take.name planned).get? key ∧
          (ctx.env.get? key).isSome = true := by
  obtain ⟨producers, p, -, -, hsteps, hpaths, hkeeps⟩ := plan_keeps named h
  obtain ⟨found, met, hrefers⟩ := (hkeeps _ (PlanSources.keeps_refers _)
    ⟨PlanSources.referable_start .., by simp [Planning.start]⟩).2 step (hsteps ▸ hstep)
  cases hrefers.known.symm.trans reached.known
  have hmet : ∀ dep, met.paths.contains dep = true → key ∈ pathVariables dep →
      dep = take.name := by
    intro dep hdep hmem
    refine alone dep (Table.contains_iff_mem_keys.mp ?_) hmem
    rw [hpaths]
    exact hrefers.kept dep hdep
  have hfed : step.inputs.takes.get? take.name = met.paths.get? take.name := by
    rw [hrefers.inputs]
    exact PlanSources.get?_inputsOf_declared _ _ declared
  rw [hrefers.env_of_absent reached absent hmet, hfed]
  constructor
  · intro hnone
    rw [hrefers.referable.free hmet hnone, Option.none_or]
  · intro planned hplanned
    have hbound := hrefers.referable.bound key take.name planned hplanned hkey hmet
    obtain ⟨w, hw⟩ := Option.isSome_iff_exists.mp
      (Environment.isSome_addPathVariants disk.cwd hkey planned)
    have hvalue : met.pathEnv.get? key = some w := hbound.trans hw
    rw [hvalue, hw]
    exact ⟨rfl, rfl⟩

/-- The second copy of the relay on the disk it was planned on: its optional take is fed with a file
that is missing. -/
theorem relay_second_reached :
    ∃ plan first second stage ctx, Relay.flow.plan "out" none Relay.disk = .ok plan ∧
      plan.steps = [first, second] ∧ Reached Relay.flow second Relay.disk stage ctx ∧
      .optional "extra" ∈ stage.io.takes ∧
      second.inputs.takes.get? "extra" = some (.str "/extra") ∧
      Relay.disk.exists? "/extra" = false ∧
      ctx.takes.get? "extra" = none ∧ stage.env.get? ":extra" = none ∧
      ctx.env.get? ":extra" = some (.str "/extra") ∧
      ∀ dep ∈ plan.paths.keys, ":extra" ∈ pathVariables dep → dep = "extra" := by
  have hchecks : okAnd (Relay.flow.plan "out" none Relay.disk) (fun plan =>
      pairAnd plan.steps fun _ second =>
        (Relay.flow.stages.get? second.stage).any fun stage =>
          okAnd (Context.build stage.module second.stage second.inputs second.env Relay.flow.roots
            Relay.disk) fun ctx =>
              .optional "extra" ∈ stage.io.takes ∧
              second.inputs.takes.get? "extra" = some (.str "/extra") ∧
              Relay.disk.exists? "/extra" = false ∧
              ctx.takes.get? "extra" = none ∧ stage.env.get? ":extra" = none ∧
              ctx.env.get? ":extra" = some (.str "/extra") ∧
              ∀ dep ∈ plan.paths.keys, ":extra" ∈ pathVariables dep → dep = "extra") = true := by
    decide +kernel
  obtain ⟨plan, hplan, hchecks⟩ := exists_of_okAnd hchecks
  obtain ⟨first, second, hsteps, hchecks⟩ := exists_of_pairAnd hchecks
  obtain ⟨stage, hknown, hbuild⟩ := (Option.any_eq_true _ _).mp hchecks
  obtain ⟨ctx, hctx, hfacts⟩ := exists_of_okAnd hbuild
  exact ⟨plan, first, second, stage, ctx, hplan, hsteps, ⟨hknown, hctx⟩, of_decide_eq_true hfacts⟩

/-- The variable of the missing file is bound to its path. -/
theorem relay_absent_take_variables :
    ∃ plan step stage ctx, Relay.flow.Named ∧
      Relay.flow.plan "out" none Relay.disk = .ok plan ∧ step ∈ plan.steps ∧
      Reached Relay.flow step Relay.disk stage ctx ∧ .optional "extra" ∈ stage.io.takes ∧
      ctx.takes.get? "extra" = none ∧ ":extra" ∈ pathVariables "extra" ∧
      (∀ dep ∈ plan.paths.keys, ":extra" ∈ pathVariables dep → dep = "extra") ∧
      ctx.env.get? ":extra" =
        (Environment.empty.addPathVariants "/" "extra" (.str "/extra")).get? ":extra" := by
  obtain ⟨plan, first, second, stage, ctx, hplan, hsteps, reached, declared, hfed, -, absent, -, -,
    alone⟩ := relay_second_reached
  have hstep : second ∈ plan.steps := by simp [hsteps]
  have hkey : ":extra" ∈ pathVariables "extra" := by decide
  exact ⟨plan, second, stage, ctx, Relay.flow_named, hplan, hstep, reached, declared, absent, hkey,
    alone, ((absent_take_variables Relay.flow_named hplan hstep reached declared absent hkey
      alone).2 _ hfed).1⟩

/-- An optional take that is absent is not absent everywhere: planning hands its path on, although
the context leaves it unbound. -/
theorem missing_file_handed_on :
    ∃ plan step stage ctx, ∃ take ∈ stage.io.takes,
      Relay.flow.plan "out" none Relay.disk = .ok plan ∧ step ∈ plan.steps ∧
      Reached Relay.flow step Relay.disk stage ctx ∧ take.isRequired = false ∧
      ctx.takes.get? take.name = none ∧ stage.env.get? (":" ++ take.name) = none ∧
      ctx.env.get? (":" ++ take.name) = some (.str "/extra") ∧
      Relay.disk.exists? "/extra" = false := by
  obtain ⟨plan, first, second, stage, ctx, hplan, hsteps, reached, declared, -, hmissing, absent,
    hown, hbound, -⟩ := relay_second_reached
  have hstep : second ∈ plan.steps := by simp [hsteps]
  have hname : ":" ++ (Declared.optional "extra").name = ":extra" := by decide
  exact ⟨plan, second, stage, ctx, .optional "extra", declared, hplan, hstep, reached, rfl, absent,
    hname ▸ hown, hname ▸ hbound, hmissing⟩

end Toolflow
