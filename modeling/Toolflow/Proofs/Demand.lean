import Toolflow.Proofs.OutputReuse
import Toolflow.Proofs.StageCycles

/-! Which products on demand a plan makes.

What is asked for is found before planning, by following takes through a table of producers that
never changes. Planning walks the same takes with a table that shrinks on the way and remembers what
it has met. Both come to the stages that the target needs, so a product on demand is planned if the
user binds it, or if it is the target or a take of some planned stage. -/
namespace Toolflow

namespace Flow
variable {f : Flow} {producers : Table String} {target dep name : String} {queue : List String}
  {seen : NameSet}

/-- A dependency is asked for: it is the target, or a stage that the target needs takes it. -/
def Asks (f : Flow) (target dep : String) : Prop :=
  dep = target ∨ ∃ name stage, f.Needs target name ∧ f.stages.get? name = some stage ∧
    ∃ take ∈ stage.io.takes, take.name = dep

/-- The producer of what is asked for is needed. -/
theorem Asks.needs (h : f.Asks target dep) (made : f.Produces name dep) : f.Needs target name := by
  rcases h with rfl | ⟨consumer, stage, needed, known, take, taken, rfl⟩
  · exact .target made
  · exact .take needed known taken made

theorem mem_takesFor_iff : name ∈ f.takesFor producers dep ↔ ∃ maker stage,
    producers.get? dep = some maker ∧ f.stages.get? maker = some stage ∧
      ∃ take ∈ stage.io.takes, take.name = name := by
  unfold takesFor
  cases hstage : (producers.get? dep).bind f.stages.get? with
  | none =>
    constructor
    · intro h
      cases h
    · rintro ⟨maker, stage, hmaker, known, -⟩
      rw [hmaker, Option.bind_some, known] at hstage
      cases hstage
  | some stage =>
    obtain ⟨maker, hmaker, known⟩ := Option.bind_eq_some_iff.mp hstage
    constructor
    · intro h
      obtain ⟨take, taken, heq⟩ := List.mem_map.mp h
      exact ⟨maker, stage, hmaker, known, take, taken, heq⟩
    · rintro ⟨other, found, hother, hfound, take, taken, heq⟩
      cases hmaker.symm.trans hother
      cases known.symm.trans hfound
      exact List.mem_map.mpr ⟨take, taken, heq⟩

/-- What the producer of something asked for takes is asked for too. -/
theorem Asks.takesFor (hproducers : f.producers = .ok producers) (h : f.Asks target dep)
    (taken : name ∈ f.takesFor producers dep) : f.Asks target name := by
  obtain ⟨maker, stage, hmaker, known, htake⟩ := mem_takesFor_iff.mp taken
  have made : f.Produces maker dep := (get?_producers hproducers ..).mp hmaker
  exact Or.inr ⟨maker, stage, h.needs made, known, htake⟩

/-- The rounds only add what is asked for. -/
theorem demandFreely_asks (hproducers : f.producers = .ok producers)
    (hqueue : ∀ dep ∈ queue, f.Asks target dep)
    (hseen : ∀ dep, seen.contains dep = true → f.Asks target dep)
    (h : (f.demandFreely producers queue seen).contains dep = true) : f.Asks target dep := by
  induction queue, seen using demandFreely.induct f producers with
  | case1 seen =>
    rw [demandFreely] at h
    exact hseen dep h
  | case2 seen next rest known ih =>
    rw [demandFreely, if_pos known] at h
    exact ih (fun dep hdep => hqueue dep (List.mem_cons_of_mem _ hdep)) hseen h
  | case3 seen next rest unknown ih =>
    obtain ⟨hnext, hrest⟩ := List.forall_mem_cons.mp hqueue
    rw [demandFreely, if_neg unknown] at h
    refine ih (List.forall_mem_append.mpr ⟨fun name taken => ?_, hrest⟩) (fun dep hdep => ?_) h
    · exact hnext.takesFor hproducers taken
    · rcases (Table.contains_insert ..).mp hdep with rfl | hold
      · exact hnext
      · exact hseen dep hold

/-- The rounds keep what has been seen and come to all that is queued. They end when the takes of
every producer have been seen, if at each moment those that have not are in the queue. -/
theorem demandFreely_closed
    (hseen : ∀ dep, seen.contains dep = true → ∀ name ∈ f.takesFor producers dep,
      seen.contains name = true ∨ name ∈ queue) :
    (∀ dep, seen.contains dep = true ∨ dep ∈ queue →
      (f.demandFreely producers queue seen).contains dep = true) ∧
    ∀ dep, (f.demandFreely producers queue seen).contains dep = true →
      ∀ name ∈ f.takesFor producers dep,
        (f.demandFreely producers queue seen).contains name = true := by
  induction queue, seen using demandFreely.induct f producers with
  | case1 seen =>
    rw [demandFreely]
    refine ⟨fun dep hdep => hdep.resolve_right List.not_mem_nil, fun dep hdep name taken => ?_⟩
    exact (hseen dep hdep name taken).resolve_right List.not_mem_nil
  | case2 seen next rest known ih =>
    rw [demandFreely, if_pos known]
    -- the name that leaves the queue has been seen already
    have hleft : ∀ name, seen.contains name = true ∨ name ∈ next :: rest →
        seen.contains name = true ∨ name ∈ rest := by
      intro name hname
      rcases hname with hold | hqueued
      · exact Or.inl hold
      · rcases List.mem_cons.mp hqueued with rfl | hrest
        · exact Or.inl known
        · exact Or.inr hrest
    obtain ⟨hall, hclosed⟩ := ih fun dep hdep name taken => hleft name (hseen dep hdep name taken)
    exact ⟨fun dep hdep => hall dep (hleft dep hdep), hclosed⟩
  | case3 seen next rest unknown ih =>
    rw [demandFreely, if_neg unknown]
    have hadded : ∀ name, (seen.add next).contains name = true ↔
        name = next ∨ seen.contains name = true := fun name => Table.contains_insert ..
    have hleft : ∀ name, seen.contains name = true ∨ name ∈ next :: rest →
        (seen.add next).contains name = true ∨ name ∈ f.takesFor producers next ++ rest := by
      intro name hname
      rcases hname with hold | hqueued
      · exact Or.inl ((hadded name).mpr (Or.inr hold))
      · rcases List.mem_cons.mp hqueued with rfl | hrest
        · exact Or.inl ((hadded name).mpr (Or.inl rfl))
        · exact Or.inr (List.mem_append_right _ hrest)
    obtain ⟨hall, hclosed⟩ := ih (by
      intro dep hdep name taken
      rcases (hadded dep).mp hdep with rfl | hold
      · exact Or.inr (List.mem_append_left _ taken)
      · exact hleft name (hseen dep hold name taken))
    exact ⟨fun dep hdep => hall dep (hleft dep hdep), hclosed⟩

/-- What is demanded is the target and the takes of all stages that it needs. -/
theorem demanded_iff (hproducers : f.producers = .ok producers) :
    (f.demanded producers target).contains dep = true ↔ f.Asks target dep := by
  rw [demanded_eq]
  have hempty : ∀ dep, (Table.empty : NameSet).contains dep ≠ true := fun _ h => by cases h
  constructor
  · exact demandFreely_asks hproducers (List.forall_mem_singleton.mpr (Or.inl rfl))
      fun dep h => absurd h (hempty dep)
  · have hstart : ∀ dep, (Table.empty : NameSet).contains dep = true →
        ∀ name ∈ f.takesFor producers dep,
          (Table.empty : NameSet).contains name = true ∨ name ∈ [target] :=
      fun dep h => absurd h (hempty dep)
    obtain ⟨hall, hclosed⟩ := demandFreely_closed hstart
    have htarget := hall target (Or.inr (List.mem_singleton_self _))
    have hmade : ∀ name, f.Needs target name → ∃ dep, producers.get? dep = some name ∧
        (f.demandFreely producers [target] .empty).contains dep = true := by
      intro name needed
      induction needed with
      | target made => exact ⟨target, (get?_producers hproducers ..).mpr made, htarget⟩
      | @take maker other stage take needed known taken made ih =>
        obtain ⟨dep, hdep, hin⟩ := ih
        have htake : take.name ∈ f.takesFor producers dep :=
          mem_takesFor_iff.mpr ⟨maker, stage, hdep, known, take, taken, rfl⟩
        exact ⟨take.name, (get?_producers hproducers ..).mpr made, hclosed dep hin _ htake⟩
    rintro (rfl | ⟨name, stage, needed, known, take, taken, rfl⟩)
    · exact htarget
    · obtain ⟨dep, hdep, hin⟩ := hmade name needed
      exact hclosed dep hin _ (mem_takesFor_iff.mpr ⟨name, stage, hdep, known, take, taken, rfl⟩)

end Flow

/-- The output paths that the user binds reach the stage that declares the product. -/
theorem PlanSources.inputsOf_produces (s : PlanSources) {stage : Stage} (paths : ValueTable)
    {d : Declared} (h : d ∈ stage.io.produces) :
    (s.inputsOf stage paths).produces.get? d.name = s.flow.dependencies.get? d.name := by
  have hlook : (s.inputsOf stage paths).produces.get? d.name =
      ((stage.io.produces.find? (·.name = d.name)).bind fun d =>
        s.flow.dependencies.get? d.name).or none :=
    Table.get?_foldl_insert (fun t d => by cases s.flow.dependencies.get? d.name <;> rfl)
      (fun d e hname => by simp only [hname]) _ _ _
  rw [hlook, Option.or_none]
  cases hfound : stage.io.produces.find? (·.name = d.name) with
  | none => simpa using List.find?_eq_none.mp hfound d h
  | some e =>
    have hname : e.name = d.name := by simpa using List.find?_some hfound
    rw [Option.bind_some, hname]

/-- A stage is told of its products which ones are demanded. -/
theorem PlanSources.inputsOf_demanded (s : PlanSources) {stage : Stage} (paths : ValueTable)
    {d : Declared} (h : d ∈ stage.io.produces) :
    (s.inputsOf stage paths).demanded.contains d.name = s.demanded.contains d.name := by
  have hlook : (s.inputsOf stage paths).demanded.get? d.name =
      ((stage.io.produces.find? (·.name = d.name)).bind fun d =>
        if s.demanded.contains d.name then some () else none).or none :=
    Table.get?_foldl_insert (fun t d => by cases s.demanded.contains d.name <;> rfl)
      (fun d e hname => by simp only [hname]) _ _ _
  have hcontains : ∀ t : NameSet, t.contains d.name = (t.get? d.name).isSome := fun _ => rfl
  rw [hcontains, hlook, Option.or_none]
  cases hfound : stage.io.produces.find? (·.name = d.name) with
  | none => simpa using List.find?_eq_none.mp hfound d h
  | some e =>
    have hname : e.name = d.name := by simpa using List.find?_some hfound
    rw [Option.bind_some, hname]
    cases s.demanded.contains d.name <;> rfl

namespace Context
variable {io : Interface} {stage : String} {inputs : StageInputs} {env : Environment}
  {roots : Roots} {disk : Disk} {ctx : Context}

/-- The path that the user binds to a product that is declared once. -/
theorem ofInputs_produces (h : ofInputs io stage inputs env roots disk = .ok ctx)
    (hnodup : (io.produces.map Declared.name).Nodup) {d : Declared} (hd : d ∈ io.produces) :
    ctx.produces.get? d.name =
      ((inputs.produces.get? d.name).bind Value.present?).map env.resolve := by
  unfold ofInputs at h
  obtain ⟨takes, -, h⟩ := bind_eq_ok.mp h
  obtain ⟨values, -, h⟩ := bind_eq_ok.mp h
  cases h
  rw [Bindings.get?_foldl_set, find?_reverse_of_nodup hnodup hd, Option.bind_some]

/-- A product on demand has a path if the user binds one, or if it is demanded and the module has
one for it. -/
theorem outputPath_isSome_iff {defaults : ValueTable} {demanded : NameSet} {d : Declared}
    (hd : d.strictness = .onDemand) :
    (ctx.outputPath defaults demanded d).isSome = true ↔
      (ctx.produces.get? d.name).isSome = true ∨
        ((defaults.get? d.name).bind Value.present?).isSome = true ∧
          demanded.contains d.name = true := by
  unfold outputPath
  cases ctx.produces.get? d.name with
  | some v => simp
  | none =>
    by_cases hasked : demanded.contains d.name = true
    · rw [if_pos (Or.inr hasked), Option.isSome_map]
      simp [hasked]
    · simp [hd, hasked]

end Context

/-- A name has a binding other than `null`. -/
theorem isSome_present_iff (v : Option Value) :
    (v.bind Value.present?).isSome = true ↔ ∃ w, v = some w ∧ w.isNull = false := by
  cases v with
  | none => simp
  | some w => cases hw : w.isNull <;> simp [Value.present?, hw]

section
variable {f : Flow} {target : String} {cache : Option Fingerprints} {disk : Disk} {plan : Plan}

/-- A planned stage has a product on demand among its outputs exactly if the user binds a path to
it, or if its module has a path for it and it is asked for: it is the target, or a stage of the plan
declares it as a take. -/
theorem onDemand_planned_iff (named : f.Named) (h : f.plan target cache disk = .ok plan)
    {step : PlanStep} (hstep : step ∈ plan.steps) :
    ∃ stage base defaults, f.stages.get? step.stage = some stage ∧
      Context.ofInputs stage.io step.stage step.inputs step.env f.roots disk = .ok base ∧
      stage.module.outputs base = .ok defaults ∧
      ∀ d ∈ stage.io.produces, d.strictness = .onDemand →
        ((∃ v, step.outputs.get? d.name = some v) ↔
          (∃ v, f.dependencies.get? d.name = some v ∧ v.isNull = false) ∨
          (∃ v, defaults.get? d.name = some v ∧ v.isNull = false) ∧
            (d.name = target ∨ ∃ other ∈ plan.steps, ∃ consumer,
              f.stages.get? other.stage = some consumer ∧
                ∃ take ∈ consumer.io.takes, take.name = d.name)) := by
  obtain ⟨producers, hproducers, hbuilt⟩ := plan_built named h
  obtain ⟨stage, ctx, paths, reached, houtputs, hinputs⟩ := hbuilt step hstep
  have hnodup := Flow.producers_nodup hproducers reached.known
  obtain ⟨base, defaults, hbase, hdefaults, -, houtput⟩ := Context.build_output reached.built hnodup
  refine ⟨stage, base, defaults, reached.known, hbase, hdefaults, fun d hd hdemand => ?_⟩
  have hasked : step.inputs.demanded.contains d.name = true ↔ d.name = target ∨
      ∃ other ∈ plan.steps, ∃ consumer, f.stages.get? other.stage = some consumer ∧
        ∃ take ∈ consumer.io.takes, take.name = d.name := by
    rw [hinputs, PlanSources.inputsOf_demanded _ _ hd]
    refine (Flow.demanded_iff hproducers).trans (or_congr_right ?_)
    constructor
    · rintro ⟨name, consumer, needed, known, htake⟩
      obtain ⟨other, hother, rfl⟩ := List.mem_map.mp ((plan_needed_iff named h name).mpr needed)
      exact ⟨other, hother, consumer, known, htake⟩
    · rintro ⟨other, hother, consumer, known, htake⟩
      have needed := (plan_needed_iff named h other.stage).mp (List.mem_map_of_mem hother)
      exact ⟨other.stage, consumer, needed, known, htake⟩
  have hexplicit : (base.produces.get? d.name).isSome = true ↔
      ∃ v, f.dependencies.get? d.name = some v ∧ v.isNull = false := by
    rw [Context.ofInputs_produces hbase hnodup hd, Option.isSome_map, isSome_present_iff, hinputs,
      PlanSources.inputsOf_produces _ _ hd]
    rfl
  rw [← Option.isSome_iff_exists, houtputs,
    Bindings.get?_bound (Context.ascending_outputs reached.built), houtput d hd, Option.isSome_map,
    Context.outputPath_isSome_iff hdemand, hexplicit, isSome_present_iff, hasked]

end

/-- A synthesis plans its log when the log is the target, and not when the netlist is. -/
theorem synthesis_log_planned :
    ∃ synth asked step unasked other,
      Modules.Synthesis.make ⟨.null, .empty, "synth"⟩ = .ok synth ∧
      (synthesisFlow synth).Named ∧
      (synthesisFlow synth).plan "synth_log" none Relay.disk = .ok asked ∧ step ∈ asked.steps ∧
      (∃ v, step.outputs.get? "synth_log" = some v) ∧
      (synthesisFlow synth).plan "eblif" none Relay.disk = .ok unasked ∧
      other ∈ unasked.steps ∧ other.stage = step.stage ∧
      ¬ ∃ v, other.outputs.get? "synth_log" = some v := by
  have hchecks : okAnd (Modules.Synthesis.make ⟨.null, .empty, "synth"⟩) (fun synth =>
      synth.io.produces.contains (.onDemand "synth_log") &&
      synth.io.takes.all (·.name ≠ "synth_log") &&
      okAnd ((synthesisFlow synth).plan "synth_log" none Relay.disk) (fun asked =>
        singleAnd asked.steps fun step =>
          step.stage == "synth" &&
          okAnd (Context.ofInputs synth.io step.stage step.inputs step.env {} Relay.disk)
            fun base => okAnd (synth.outputs base) fun defaults =>
              (defaults.get? "synth_log").any fun v => !v.isNull) &&
      okAnd ((synthesisFlow synth).plan "eblif" none Relay.disk) fun unasked =>
        singleAnd unasked.steps fun other => other.stage == "synth") = true := by
    decide +kernel
  obtain ⟨synth, hsynth, hchecks⟩ := exists_of_okAnd hchecks
  simp only [Bool.and_eq_true] at hchecks
  obtain ⟨⟨⟨hdeclared, htakes⟩, hasked⟩, hunasked⟩ := hchecks
  have hdeclared : Declared.onDemand "synth_log" ∈ synth.io.produces := by simpa using hdeclared
  obtain ⟨asked, hplan, hasked⟩ := exists_of_okAnd hasked
  obtain ⟨step, hsteps, hasked⟩ := exists_of_singleAnd hasked
  obtain ⟨hstage, hbase⟩ := Bool.and_eq_true_iff.mp hasked
  obtain ⟨base, hbase, hdefaults⟩ := exists_of_okAnd hbase
  obtain ⟨defaults, hdefaults, hpath⟩ := exists_of_okAnd hdefaults
  obtain ⟨v, hv, hpresent⟩ := (Option.any_eq_true _ _).mp hpath
  obtain ⟨unasked, hplan', hunasked⟩ := exists_of_okAnd hunasked
  obtain ⟨other, hothers, hother⟩ := exists_of_singleAnd hunasked
  have named : (synthesisFlow synth).Named := Flow.named_of_all rfl
  have hstep : step ∈ asked.steps := by simp [hsteps]
  have hmem : other ∈ unasked.steps := by simp [hothers]
  have hstage : step.stage = "synth" := by simpa using hstage
  have hother : other.stage = "synth" := by simpa using hother
  have hknown : ∀ {stage}, (synthesisFlow synth).stages.get? "synth" = some stage →
      stage.module = synth := by
    intro stage h
    cases h
    rfl
  refine ⟨synth, asked, step, unasked, other, hsynth, named, hplan, hstep, ?_, hplan', hmem,
    hother.trans hstage.symm, ?_⟩
  · obtain ⟨stage, base', defaults', known, hbase', hdefaults', hiff⟩ :=
      onDemand_planned_iff named hplan hstep
    rw [hstage] at known
    have hmodule := hknown known
    have hio : stage.io = synth.io := congrArg ToolModule.io hmodule
    rw [hio] at hbase' hiff
    rw [hmodule] at hdefaults'
    cases hbase.symm.trans hbase'
    cases hdefaults.symm.trans hdefaults'
    exact (hiff (.onDemand "synth_log") hdeclared rfl).mpr
      (Or.inr ⟨⟨v, hv, by simpa using hpresent⟩, Or.inl rfl⟩)
  · obtain ⟨stage, base', defaults', known, -, -, hiff⟩ :=
      onDemand_planned_iff named hplan' hmem
    rw [hother] at known
    have hio : stage.io = synth.io := congrArg ToolModule.io (hknown known)
    rw [hio] at hiff
    intro hbound
    rcases (hiff (.onDemand "synth_log") hdeclared rfl).mp hbound with ⟨w, hw, -⟩ | ⟨-, hask⟩
    · have hnone : (synthesisFlow synth).dependencies.get? "synth_log" = none := rfl
      cases hnone.symm.trans hw
    · rcases hask with htarget | ⟨third, hthird, consumer, hconsumer, take, taken, hname⟩
      · revert htarget
        decide
      · have hsame : third = other := by simpa [hothers] using hthird
        rw [hsame, hother] at hconsumer
        have htaken : take ∈ synth.io.takes := hknown hconsumer ▸ taken
        have hne := List.all_eq_true.mp htakes take htaken
        exact absurd hname (of_decide_eq_true hne)

end Toolflow
