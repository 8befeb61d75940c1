import Mathlib.Data.List.Induction
import Toolflow.Proofs.Freshness
import Toolflow.Proofs.PlanCoverage

/-! What a plan predicts.

Planning expects a stage to run unless every path it is planned to take is as the stage saw it last,
or belongs to an optional take and never was there, no step in front of it that has to run makes one
of its takes, and all it has to write is there. What the steps that have to run write is listed as
made anew. -/
namespace Toolflow

open Fingerprints

/-- Planning passes over a path of a take: it is there as it was recorded, or the take is optional
and the path is neither recorded nor there. -/
def Fingerprints.Expects (c : Fingerprints) (disk : Disk) (consumer : String) (take : Declared)
    (path : String) : Prop :=
  c.differs disk consumer path = false ∨
    take.isRequired = false ∧ c.record? path consumer = none ∧ disk.exists? path = false

instance (c : Fingerprints) (disk : Disk) (consumer : String) (take : Declared) (path : String) :
    Decidable (c.Expects disk consumer take path) :=
  inferInstanceAs (Decidable (_ ∨ _))

namespace PlanStep

/-- A step makes one of the takes of the other. -/
def Feeds (earlier step : PlanStep) : Prop :=
  ∃ take, step.inputs.takes.contains take = true ∧ earlier.outputs.contains take = true

instance (earlier step : PlanStep) : Decidable (earlier.Feeds step) :=
  decidable_of_iff (∃ take ∈ step.inputs.takes.keys, earlier.outputs.contains take = true)
    (exists_congr fun _ => and_congr_left' Table.contains_iff_mem_keys.symm)

/-- Planning finds no reason of its own to run a step. -/
structure Idle (step : PlanStep) (io : Interface) (c : Fingerprints) (disk : Disk) : Prop where
  known : c.hasConsumer step.stage = true
  expected : ∀ take ∈ io.takes, ∀ planned, step.inputs.takes.get? take.name = some planned →
    ∀ path ∈ planned.strings, c.Expects disk step.stage take path
  written : ∀ v ∈ mandatoryOutputs io.produces step.outputs, disk.holds v = true

end PlanStep

namespace PlanSources
variable {s : PlanSources} {stage : Stage} {inputs : StageInputs} {outputs : ValueTable}
  {rebuilt : NameSet}

theorem takeChanged_eq_false_iff {c : Fingerprints} {name : String} {take : Declared} :
    s.takeChanged c name inputs rebuilt take = false ↔
      ∀ planned, inputs.takes.get? take.name = some planned →
        rebuilt.contains take.name = false ∧
          ∀ path ∈ planned.strings, c.Expects s.disk name take path := by
  unfold takeChanged
  cases inputs.takes.get? take.name with
  | none => simp
  | some planned =>
    simp only [Bool.or_eq_false_iff, List.any_eq_false, Bool.not_eq_true, Option.some.injEq,
      forall_eq']
    refine and_congr_right fun _ => forall₂_congr fun path _ => ?_
    unfold Expects
    rw [← probe_eq_same_iff, ← probe_eq_untracked_iff c s.disk]
    cases c.probe s.disk path name <;> simp

/-- When planning expects a stage to be skipped. -/
theorem mustRun_eq_false_iff : s.mustRun stage inputs outputs rebuilt = false ↔
    ∃ c, s.cache = some c ∧ c.hasConsumer stage.name = true ∧
      (∀ take ∈ stage.io.takes, ∀ planned, inputs.takes.get? take.name = some planned →
        rebuilt.contains take.name = false ∧
          ∀ path ∈ planned.strings, c.Expects s.disk stage.name take path) ∧
      ∀ v ∈ mandatoryOutputs stage.io.produces outputs, s.disk.holds v = true := by
  unfold mustRun
  cases s.cache with
  | none => simp
  | some c =>
    simp only [Bool.or_eq_false_iff, Bool.not_eq_eq_eq_not, Bool.not_false, List.any_eq_false,
      Bool.not_eq_true, takeChanged_eq_false_iff, Bool.not_true, and_assoc, Option.some.injEq,
      exists_eq_left', Bool.not_eq_false]

/-- How far planning has told which steps have to run. -/
structure Predicts (s : PlanSources) (p : Planning) : Prop where
  rebuilt : ∀ dep, p.rebuilt.contains dep = true ↔
    ∃ step ∈ p.steps, step.required = true ∧ step.outputs.contains dep = true
  steps : ∀ before step after, p.steps = before ++ step :: after →
    ∃ stage, ∃ rebuilt : NameSet, s.flow.stages.get? step.stage = some stage ∧
      stage.name = step.stage ∧
      (∀ take, step.inputs.takes.contains take = true → ∃ d ∈ stage.io.takes, d.name = take) ∧
      step.required = s.mustRun stage step.inputs step.outputs rebuilt ∧
      ∀ dep, rebuilt.contains dep = true ↔
        ∃ earlier ∈ before, earlier.required = true ∧ earlier.outputs.contains dep = true

theorem inputsOf_declared (s : PlanSources) (stage : Stage) (paths : ValueTable) {take : String}
    (h : (s.inputsOf stage paths).takes.contains take = true) :
    ∃ d ∈ stage.io.takes, d.name = take := by
  obtain ⟨v, hv⟩ := Table.contains_eq_true_iff.mp h
  rw [s.get?_inputsOf_eq, Option.bind_eq_some_iff] at hv
  obtain ⟨d, hd, -⟩ := hv
  exact ⟨d, List.mem_of_find?_eq_some hd, by simpa using List.find?_some hd⟩

theorem keeps_predicts (s : PlanSources) : s.Keeps s.Predicts where
  bind _ _ _ hp _ := ⟨hp.rebuilt, hp.steps⟩
  miss _ _ hp := ⟨hp.rebuilt, hp.steps⟩
  add p stage after known _ hp hadd := by
    obtain ⟨ctx, hbuilt, rfl⟩ := addStep_eq_ok_iff.mp hadd
    constructor
    · intro dep
      unfold afterStep
      dsimp only
      simp only [List.mem_append, List.mem_singleton, or_and_right, exists_or, exists_eq_left]
      rw [← hp.rebuilt dep]
      cases hrequired : (s.stepOf p stage ctx).required with
      | true =>
        rw [if_pos rfl, NameSet.contains_union, ← Table.contains_iff_mem_keys, or_comm]
        simp [stepOf]
      | false => simp
    · intro before step rest order
      unfold afterStep at order
      dsimp only at order
      rcases List.eq_nil_or_concat' rest with rfl | ⟨rest, last, rfl⟩
      · obtain ⟨rfl, hlast⟩ := List.append_inj' order rfl
        cases hlast
        exact ⟨stage, p.rebuilt, known, rfl, fun take => s.inputsOf_declared stage p.paths, rfl,
          hp.rebuilt⟩
      · rw [← List.cons_append, ← List.append_assoc] at order
        exact hp.steps before step rest (List.append_inj' order rfl).1

end PlanSources

section
variable {f : Flow} {target : String} {cache : Option Fingerprints} {disk : Disk} {plan : Plan}

/-- A step is expected to be skipped exactly if there are fingerprints, planning finds no reason of
its own to run it, and no step in front of it that has to run makes one of its takes. -/
theorem plan_required_eq_false_iff (named : f.Named) (h : f.plan target cache disk = .ok plan)
    {before after : List PlanStep} {step : PlanStep} (order : plan.steps = before ++ step :: after)
    {stage : Stage} (known : f.stages.get? step.stage = some stage) :
    step.required = false ↔ ∃ c, cache = some c ∧ step.Idle stage.io c disk ∧
      ∀ earlier ∈ before, earlier.required = true → ¬ earlier.Feeds step := by
  obtain ⟨producers, p, -, -, hsteps, -, hkeeps⟩ := plan_keeps named h
  have hpredicts := hkeeps _ (PlanSources.keeps_predicts _)
    ⟨by simp [Planning.start, Table.contains], by simp [Planning.start]⟩
  obtain ⟨found, rebuilt, hfound, hname, hdeclared, hrequired, hrebuilt⟩ :=
    hpredicts.steps before step after (hsteps ▸ order)
  cases hfound.symm.trans known
  have hfeeds : (∀ take ∈ stage.io.takes, step.inputs.takes.contains take.name = true →
      rebuilt.contains take.name = false) ↔
        ∀ earlier ∈ before, earlier.required = true → ¬ earlier.Feeds step := by
    constructor
    · rintro hnone earlier hearlier hruns ⟨take, htake, hmade⟩
      obtain ⟨d, hd, rfl⟩ := hdeclared take htake
      have hcontains := (hrebuilt d.name).mpr ⟨earlier, hearlier, hruns, hmade⟩
      rw [hnone d hd htake] at hcontains
      cases hcontains
    · intro hnone d hd htake
      by_contra hcontains
      obtain ⟨earlier, hearlier, hruns, hmade⟩ := (hrebuilt d.name).mp (by simpa using hcontains)
      exact hnone earlier hearlier hruns ⟨d.name, htake, hmade⟩
  rw [hrequired, PlanSources.mustRun_eq_false_iff, ← hfeeds]
  refine exists_congr fun c => and_congr_right fun _ => ?_
  rw [hname]
  constructor
  · rintro ⟨hknown, htakes, hwritten⟩
    refine ⟨⟨hknown, fun d hd planned hplanned => (htakes d hd planned hplanned).2, hwritten⟩,
      fun d hd htake => ?_⟩
    obtain ⟨planned, hplanned⟩ := Table.contains_eq_true_iff.mp htake
    exact (htakes d hd planned hplanned).1
  · rintro ⟨⟨hknown, hexpected, hwritten⟩, hnone⟩
    exact ⟨hknown, fun d hd planned hplanned =>
      ⟨hnone d hd (Table.contains_eq_true_iff.mpr ⟨planned, hplanned⟩),
        hexpected d hd planned hplanned⟩, hwritten⟩

/-- No step of a plan has to run exactly if planning finds no reason of its own to run any. -/
theorem plan_idle_iff {c : Fingerprints} (named : f.Named)
    (h : f.plan target (some c) disk = .ok plan) :
    (∀ step ∈ plan.steps, step.required = false) ↔
      ∀ step ∈ plan.steps, ∀ stage, f.stages.get? step.stage = some stage →
        step.Idle stage.io c disk := by
  constructor
  · intro hnone step hstep stage known
    obtain ⟨before, after, order⟩ := List.append_of_mem hstep
    obtain ⟨found, hfound, idle, -⟩ :=
      (plan_required_eq_false_iff named h order known).mp (hnone step hstep)
    cases hfound
    exact idle
  · intro hidle
    -- By induction on the steps in front: none of them has to run, so none makes a take anew.
    have hprefix : ∀ before after, plan.steps = before ++ after →
        ∀ step ∈ before, step.required = false := by
      intro before
      induction before using List.reverseRecOn with
      | nil => simp
      | append_singleton before step ih =>
        intro after order
        rw [List.append_assoc] at order
        have hbefore := ih _ order
        have hstep : step ∈ plan.steps := by simp [order]
        obtain ⟨producers, -, hbuilt⟩ := plan_built named h
        obtain ⟨stage, ctx, paths, reached, -⟩ := hbuilt step hstep
        refine List.forall_mem_append.mpr ⟨hbefore, List.forall_mem_singleton.mpr ?_⟩
        refine (plan_required_eq_false_iff named h order reached.known).mpr
          ⟨c, rfl, hidle step hstep stage reached.known, fun earlier hearlier hruns => ?_⟩
        cases (hbefore earlier hearlier).symm.trans hruns
    exact hprefix plan.steps [] (List.append_nil _).symm

end

/-! ### What is listed as made anew -/

theorem countRebuilds_eq (steps : List PlanStep) : countRebuilds steps =
    ((steps.filter (·.required)).flatMap (·.outputs.keys)).foldl
      (fun (counts : Table Nat) name => counts.insert name ((counts.get? name).getD 0 + 1))
      .empty := by
  rw [List.foldl_flatMap]
  rfl

/-- Counting names one by one lists each of them with how often it occurs. -/
theorem get?_tally (names : List String) (counts : Table Nat) (dep : String) :
    (names.foldl (fun (counts : Table Nat) name =>
      counts.insert name ((counts.get? name).getD 0 + 1)) counts).get? dep =
        if dep ∈ names then some ((counts.get? dep).getD 0 + names.count dep)
        else counts.get? dep := by
  induction names generalizing counts with
  | nil => simp
  | cons name rest ih =>
    rw [List.foldl_cons, ih, List.count_cons]
    by_cases hname : name = dep
    · subst hname
      simp only [Table.get?_insert_self, Option.getD_some, beq_self_eq_true, if_true,
        List.mem_cons_self]
      split
      · congr 1
        omega
      · rename_i habsent
        rw [List.count_eq_zero_of_not_mem habsent]
    · simp [hname, Ne.symm hname, Table.get?_insert_of_ne _ _ (Ne.symm hname)]

/-- A dependency is counted once for each step that has to run and writes it. -/
theorem get?_countRebuilds (steps : List PlanStep) (dep : String) :
    (countRebuilds steps).get? dep =
      if dep ∈ (steps.filter (·.required)).flatMap (·.outputs.keys) then
        some (((steps.filter (·.required)).flatMap (·.outputs.keys)).count dep)
      else none := by
  rw [countRebuilds_eq, get?_tally]
  simp

namespace PlanSources
variable {s : PlanSources} {producers : Table String} {p : Planning}

/-- Of the products of a stage those without a path are noted as unmapped. -/
theorem bindProducts_unmapped (cwd : String) (outputs : Bindings) (l : List Declared)
    (p : Planning) (dep : String) :
    (l.foldl (Planning.bindProduct cwd outputs) p).unmapped.contains dep = true ↔
      p.unmapped.contains dep = true ∨ outputs.get? dep = none ∧ ∃ d ∈ l, d.name = dep := by
  induction l generalizing p with
  | nil => simp
  | cons d rest ih =>
    rw [List.foldl_cons, ih]
    simp only [List.mem_cons, exists_eq_or_imp]
    unfold Planning.bindProduct
    by_cases hdep : d.name = dep
    · subst hdep
      cases outputs.get? d.name with
      | none => simp [NameSet.add, Table.contains_insert]
      | some v => simp [Planning.bind]
    · cases outputs.get? d.name with
      | none => simp [NameSet.add, Table.contains_insert, hdep, Ne.symm hdep]
      | some v => simp [Planning.bind, hdep]

/-- The others are bound. -/
theorem bindProducts_bound {cwd : String} {outputs : Bindings} {l : List Declared}
    {d : Declared} (hd : d ∈ l) {v : Value} (hv : outputs.get? d.name = some v) (p : Planning) :
    (l.foldl (Planning.bindProduct cwd outputs) p).paths.contains d.name = true := by
  induction l generalizing p with
  | nil => cases hd
  | cons first rest ih =>
    rw [List.foldl_cons]
    rcases List.mem_cons.mp hd with rfl | hd
    · refine (bindProducts_rest cwd outputs rest _).2 d.name ?_
      unfold Planning.bindProduct
      rw [hv]
      exact (Table.contains_insert ..).mpr (Or.inl rfl)
    · exact ih hd _

/-- What the steps write is bound, and none of it is noted as unmapped. -/
structure Mapped (producers : Table String) (p : Planning) : Prop where
  planned : ∀ step ∈ p.steps, p.planned.contains step.stage = true
  made : ∀ step ∈ p.steps, ∀ dep, step.outputs.contains dep = true →
    producers.get? dep = some step.stage ∧ p.paths.contains dep = true
  unmapped : ∀ dep, p.unmapped.contains dep = true →
    ∃ name, producers.get? dep = some name ∧ p.planned.contains name = true
  apart : ∀ step ∈ p.steps, ∀ dep, step.outputs.contains dep = true →
    p.unmapped.contains dep = false

/-- The products of a stage that has not been planned are neither made nor unmapped. -/
theorem Mapped.untouched (hp : Mapped producers p) {dep name : String}
    (hdep : producers.get? dep = some name) (unplanned : p.planned.contains name = false) :
    p.unmapped.contains dep = false ∧ ∀ step ∈ p.steps, step.outputs.contains dep = false := by
  constructor
  · by_contra hcontains
    obtain ⟨other, hother, hdone⟩ := hp.unmapped dep (by simpa using hcontains)
    cases hother.symm.trans hdep
    cases unplanned.symm.trans hdone
  · intro step hstep
    by_contra hcontains
    obtain ⟨hmade, -⟩ := hp.made step hstep dep (by simpa using hcontains)
    cases hmade.symm.trans hdep
    cases unplanned.symm.trans (hp.planned step hstep)

/-- What a step writes are declared products for which its context has a path. -/
theorem stepOf_output {stage : Stage} {ctx : Context}
    (hbuilt : Context.build stage.module stage.name (s.inputsOf stage p.paths) (envOf p stage)
      s.flow.roots s.disk = .ok ctx) {dep : String}
    (hdep : (s.stepOf p stage ctx).outputs.contains dep = true) :
    ∃ d ∈ stage.io.produces, d.name = dep ∧ ∃ v, ctx.outputs.get? d.name = some v := by
  obtain ⟨v, hv⟩ := Table.contains_eq_true_iff.mp hdep
  have hbound : ctx.outputs.get? dep = some v :=
    (Bindings.get?_bound (Context.ascending_outputs hbuilt) dep).symm.trans hv
  obtain ⟨d, hd, rfl⟩ := Context.output_declared hbuilt hbound
  exact ⟨d, hd, rfl, v, hbound⟩

theorem keeps_mapped (hproducers : s.flow.producers = .ok producers) :
    s.Keeps (Mapped producers) where
  bind p dep v hp _ := by
    refine ⟨hp.planned, fun step hstep other hother => ?_, hp.unmapped, hp.apart⟩
    obtain ⟨hmade, hbound⟩ := hp.made step hstep other hother
    exact ⟨hmade, (Table.contains_insert ..).mpr (Or.inr hbound)⟩
  miss _ _ hp := ⟨hp.planned, hp.made, hp.unmapped, hp.apart⟩
  add p stage after known unplanned hp hadd := by
    obtain ⟨ctx, hbuilt, rfl⟩ := addStep_eq_ok_iff.mp hadd
    have hplanned : ∀ name, (s.afterStep p stage ctx).planned.contains name = true ↔
        name = stage.name ∨ p.planned.contains name = true :=
      fun name => Table.contains_insert ..
    have hunmapped : ∀ dep, (s.afterStep p stage ctx).unmapped.contains dep = true ↔
        p.unmapped.contains dep = true ∨
          ctx.outputs.get? dep = none ∧ ∃ d ∈ stage.io.produces, d.name = dep :=
      bindProducts_unmapped s.disk.cwd ctx.outputs stage.io.produces p
    have hdeclared : ∀ d ∈ stage.io.produces, producers.get? d.name = some stage.name :=
      fun d hd => (Flow.get?_producers hproducers ..).mpr
        ⟨stage, Table.mem_of_get? known, d, hd, rfl⟩
    have huntouched := fun d hd => hp.untouched (hdeclared d hd) unplanned
    have hsteps : (s.afterStep p stage ctx).steps = p.steps ++ [s.stepOf p stage ctx] := rfl
    constructor
    · rw [hsteps, List.forall_mem_append, List.forall_mem_singleton]
      exact ⟨fun step hstep => (hplanned _).mpr (Or.inr (hp.planned step hstep)),
        (hplanned _).mpr (Or.inl rfl)⟩
    · rw [hsteps, List.forall_mem_append, List.forall_mem_singleton]
      refine ⟨fun step hstep dep hdep => ?_, fun dep hdep => ?_⟩
      · obtain ⟨hmade, hbound⟩ := hp.made step hstep dep hdep
        exact ⟨hmade, (bindProducts_rest s.disk.cwd ctx.outputs stage.io.produces p).2 dep hbound⟩
      · obtain ⟨d, hd, rfl, v, hv⟩ := stepOf_output hbuilt hdep
        exact ⟨hdeclared d hd, bindProducts_bound hd hv p⟩
    · intro dep hdep
      rcases (hunmapped dep).mp hdep with hold | ⟨-, d, hd, rfl⟩
      · obtain ⟨name, hname, hdone⟩ := hp.unmapped dep hold
        exact ⟨name, hname, (hplanned name).mpr (Or.inr hdone)⟩
      · exact ⟨stage.name, hdeclared d hd, (hplanned _).mpr (Or.inl rfl)⟩
    · rw [hsteps, List.forall_mem_append, List.forall_mem_singleton]
      refine ⟨fun step hstep dep hdep => ?_, fun dep hdep => ?_⟩
      · rw [Bool.eq_false_iff]
        intro hcontains
        rcases (hunmapped dep).mp hcontains with hold | ⟨-, d, hd, rfl⟩
        · cases (hp.apart step hstep dep hdep).symm.trans hold
        · cases ((huntouched d hd).2 step hstep).symm.trans hdep
      · obtain ⟨d, hd, rfl, v, hv⟩ := stepOf_output hbuilt hdep
        rw [Bool.eq_false_iff]
        intro hcontains
        rcases (hunmapped d.name).mp hcontains with hold | ⟨hnone, -⟩
        · cases (huntouched d hd).1.symm.trans hold
        · cases hnone.symm.trans hv

end PlanSources

/-- What a step that has to run writes is listed as made anew, over files that exist or not. -/
theorem status_of_required {f : Flow} {target : String} {cache : Option Fingerprints} {disk : Disk}
    {plan : Plan} (named : f.Named) (h : f.plan target cache disk = .ok plan) {step : PlanStep}
    (hstep : step ∈ plan.steps) (hrequired : step.required = true) {dep : String}
    (hdep : step.outputs.contains dep = true) (ocache : Option Fingerprints) (other : Disk) :
    plan.status dep ocache other = .rebuild ∨ plan.status dep ocache other = .scheduled := by
  obtain ⟨producers, p, hproducers, rfl, hkeeps⟩ := plan_reaches named h
  have hmapped := hkeeps _ (PlanSources.keeps_mapped hproducers)
    ⟨by simp [Planning.start], by simp [Planning.start],
      by simp [Planning.start, Table.contains], by simp [Planning.start]⟩
  obtain ⟨v, hv⟩ := Table.contains_eq_true_iff.mp (hmapped.made step hstep dep hdep).2
  have hcount : 0 < ((countRebuilds p.steps).get? dep).getD 0 := by
    have hmem : dep ∈ (p.steps.filter (·.required)).flatMap (·.outputs.keys) :=
      List.mem_flatMap.mpr ⟨step, List.mem_filter.mpr ⟨hstep, hrequired⟩,
        Table.contains_iff_mem_keys.mp hdep⟩
    rw [get?_countRebuilds, if_pos hmem]
    exact List.count_pos_iff.mpr hmem
  unfold Plan.status
  dsimp only
  rw [hmapped.apart step hstep dep hdep, hv]
  dsimp only
  rw [if_neg Bool.false_ne_true, if_pos hcount]
  split
  · exact Or.inl rfl
  · exact Or.inr rfl

end Toolflow
