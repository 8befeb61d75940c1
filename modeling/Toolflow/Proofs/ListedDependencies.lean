import Toolflow.Proofs.CompleteContexts
import Toolflow.Proofs.Predictions

/-! Where a plan lists the dependencies of its steps.

A dependency is asked for before its producer is planned or after, and planning gives up the
producer of a product that gets no path. So that a dependency is in exactly one of the tables rests
on two facts. What has been met stays met, and a producer is given up only for a product that is
unmapped; and a product that gets no path has no binding either, since a binding would have been its
path. -/
namespace Toolflow

namespace Flow
variable {f : Flow} {name dep : String}

/-- No dependency is bound to `null`. -/
def BindsPaths (f : Flow) : Prop := ∀ dep v, f.dependencies.get? dep = some v → v.isNull = false

theorem produces_iff (ordered : f.stages.Ascending) : f.Produces name dep ↔
    ∃ stage, f.stages.get? name = some stage ∧ ∃ d ∈ stage.io.produces, d.name = dep :=
  exists_congr fun _ => and_congr_left' ordered.get?_eq_some_iff.symm

/-- A step leaves a product of its stage without a path. -/
def Leaves (f : Flow) (step : PlanStep) (dep : String) : Prop :=
  f.Produces step.stage dep ∧ step.outputs.get? dep = none

/-- A stage takes a dependency. -/
def TakenBy (f : Flow) (name dep : String) : Prop :=
  ∃ stage, f.stages.get? name = some stage ∧ ∃ take ∈ stage.io.takes, take.name = dep

end Flow

namespace Planning

/-- A dependency is listed: bound, missing or unmapped. -/
def Lists (p : Planning) (dep : String) : Prop :=
  p.paths.contains dep = true ∨ p.missing.contains dep = true ∨ p.unmapped.contains dep = true

/-- What is listed stays listed. -/
def Spreads (p after : Planning) : Prop := ∀ dep, p.Lists dep → after.Lists dep

theorem Spreads.refl (p : Planning) : p.Spreads p := fun _ h => h

theorem Spreads.trans {p next after : Planning} (h : p.Spreads next) (h' : next.Spreads after) :
    p.Spreads after := fun dep hdep => h' dep (h dep hdep)

end Planning

namespace PlanSources
variable {s : PlanSources} {producers : Table String} {target : String} {p after : Planning}
  {stage : Stage} {ctx : Context} {visiting : List String}

/-- What the tables of planning say, and that they cover the steps: only a product without a path
has lost its producer, and whatever a step takes or produces is listed. -/
structure Listing (s : PlanSources) (producers : Table String) (p : Planning) : Prop where
  freed : ∀ dep, p.producers.get? dep = none →
    producers.get? dep = none ∨ p.unmapped.contains dep = true
  unmapped : ∀ dep, p.unmapped.contains dep = true → s.flow.dependencies.get? dep = none ∧
    ∃ step ∈ p.steps, s.flow.Leaves step dep
  missing : ∀ dep, p.missing.contains dep = true → producers.get? dep = none ∧
    s.flow.dependencies.get? dep = none
  products : ∀ step ∈ p.steps, ∀ dep, s.flow.Produces step.stage dep →
    p.paths.contains dep = true ∧ step.outputs.contains dep = true ∨
      p.unmapped.contains dep = true
  takes : ∀ step ∈ p.steps, ∀ dep, s.flow.TakenBy step.stage dep → p.Lists dep

theorem listing_start : s.Listing producers (.start producers) where
  freed _ h := Or.inl h
  unmapped _ h := by cases h
  missing _ h := by cases h
  products _ h := by cases h
  takes _ h := by cases h

/-- What has been planned has its products listed. -/
theorem Listing.lists_product (listing : s.Listing producers p)
    (sound : p.Sound s.flow producers target) (hproducers : s.flow.producers = .ok producers)
    {dep name : String} (made : producers.get? dep = some name)
    (planned : p.planned.contains name = true) : p.Lists dep := by
  obtain ⟨step, hstep, rfl⟩ := (sound.planned name).mp planned
  have declared := (Flow.get?_producers hproducers dep step.stage).mp made
  rcases listing.products step hstep dep declared with ⟨hbound, -⟩ | hunmapped
  · exact Or.inl hbound
  · exact Or.inr (Or.inr hunmapped)

/-! ### Dependencies that no stage is left to produce -/

theorem spreads_bind (p : Planning) (cwd dep : String) (v : Value) :
    p.Spreads (p.bind cwd dep v) := fun _ h =>
  h.imp_left fun hbound => (Table.contains_insert ..).mpr (Or.inr hbound)

/-- Meeting a dependency without a producer lists it. -/
theorem source_lists (s : PlanSources) (p : Planning) (dep : String) :
    p.Spreads (s.source p dep) ∧ (s.source p dep).Lists dep := by
  unfold source
  cases s.flow.dependencies.get? dep with
  | some v =>
    exact ⟨spreads_bind p _ dep v, Or.inl ((Table.contains_insert ..).mpr (Or.inl rfl))⟩
  | none =>
    dsimp only
    split
    · rename_i hunmapped
      exact ⟨.refl p, Or.inr (Or.inr hunmapped)⟩
    · refine ⟨fun other h => h.imp_right fun hrest => hrest.imp_left fun hmissing => ?_,
        Or.inr (Or.inl ((Table.contains_insert ..).mpr (Or.inl rfl)))⟩
      exact (Table.contains_insert ..).mpr (Or.inr hmissing)

theorem Listing.source (listing : s.Listing producers p) {dep : String}
    (free : p.producers.get? dep = none) : s.Listing producers (s.source p dep) := by
  have hspreads := (s.source_lists p dep).1
  unfold PlanSources.source at hspreads ⊢
  cases hbinding : s.flow.dependencies.get? dep with
  | some v =>
    rw [hbinding] at hspreads
    refine ⟨listing.freed, listing.unmapped, listing.missing, fun step hstep other made => ?_,
      fun step hstep other taken => hspreads other (listing.takes step hstep other taken)⟩
    refine (listing.products step hstep other made).imp_left fun ⟨hbound, hout⟩ => ⟨?_, hout⟩
    exact (Table.contains_insert ..).mpr (Or.inr hbound)
  | none =>
    rw [hbinding] at hspreads
    dsimp only at hspreads ⊢
    split
    · exact listing
    · rename_i hmapped
      rw [if_neg hmapped] at hspreads
      refine ⟨listing.freed, listing.unmapped, fun other hother => ?_, listing.products,
        fun step hstep other taken => hspreads other (listing.takes step hstep other taken)⟩
      rcases (Table.contains_insert ..).mp hother with rfl | hold
      · exact ⟨(listing.freed other free).resolve_right hmapped, hbinding⟩
      · exact listing.missing other hold

/-! ### Steps that are added -/

/-- The tables after a step has been added. -/
theorem afterStep_tables (s : PlanSources) (p : Planning) (stage : Stage) (ctx : Context) :
    p.Spreads (s.afterStep p stage ctx) ∧ (s.afterStep p stage ctx).missing = p.missing ∧
      (∀ dep, p.paths.contains dep = true →
        (s.afterStep p stage ctx).paths.contains dep = true) ∧
      ∀ dep, (s.afterStep p stage ctx).unmapped.contains dep = true ↔
        p.unmapped.contains dep = true ∨
          ctx.outputs.get? dep = none ∧ ∃ d ∈ stage.io.produces, d.name = dep := by
  have hunmapped := bindProducts_unmapped s.disk.cwd ctx.outputs stage.io.produces p
  have hpaths := (bindProducts_rest s.disk.cwd ctx.outputs stage.io.produces p).2
  have hmissing : (stage.io.produces.foldl (Planning.bindProduct s.disk.cwd ctx.outputs)
      p).missing = p.missing :=
    bindProducts_keeps s.disk.cwd (P := fun q => q.missing = p.missing) (fun _ _ _ hq => hq)
      (fun _ _ _ hq => hq) ctx.outputs stage.io.produces rfl
  refine ⟨fun dep hdep => ?_, hmissing, hpaths, hunmapped⟩
  rcases hdep with hbound | hmissed | hleft
  · exact Or.inl (hpaths dep hbound)
  · refine Or.inr (Or.inl ?_)
    show (stage.io.produces.foldl (Planning.bindProduct s.disk.cwd ctx.outputs)
      p).missing.contains dep = true
    rw [hmissing]
    exact hmissed
  · exact Or.inr (Or.inr ((hunmapped dep).mpr (Or.inl hleft)))

/-- A product that gets no path is not bound in the configuration. -/
theorem unbound_of_unmapped (binds : s.flow.BindsPaths)
    (hnodup : (stage.io.produces.map Declared.name).Nodup)
    (hbuilt : Context.build stage.module stage.name (s.inputsOf stage p.paths) (envOf p stage)
      s.flow.roots s.disk = .ok ctx) {d : Declared} (hd : d ∈ stage.io.produces)
    (hnone : ctx.outputs.get? d.name = none) : s.flow.dependencies.get? d.name = none := by
  cases hv : s.flow.dependencies.get? d.name with
  | none => rfl
  | some v =>
    have hinput := (s.inputsOf_produces p.paths hd).trans hv
    have hbound := Context.build_explicit hnodup hbuilt hd hinput (binds d.name v hv)
    cases hnone.symm.trans hbound

/-- Adding a step whose takes are listed keeps the tables right. -/
theorem Listing.add (listing : s.Listing producers p) (binds : s.flow.BindsPaths)
    (ordered : s.flow.stages.Ascending) (hproducers : s.flow.producers = .ok producers)
    (known : s.flow.stages.get? stage.name = some stage)
    (met : ∀ take ∈ stage.io.takes, p.Lists take.name) (hadd : s.addStep p stage = .ok after) :
    s.Listing producers after ∧ p.Spreads after := by
  obtain ⟨ctx, hbuilt, rfl⟩ := addStep_eq_ok_iff.mp hadd
  obtain ⟨hspreads, hmissing, hpaths, hunmapped⟩ := s.afterStep_tables p stage ctx
  have hsteps : (s.afterStep p stage ctx).steps = p.steps ++ [s.stepOf p stage ctx] := rfl
  have hout : ∀ dep, (s.stepOf p stage ctx).outputs.get? dep = ctx.outputs.get? dep :=
    Bindings.get?_bound (Context.ascending_outputs hbuilt)
  have hmade : ∀ dep, s.flow.Produces stage.name dep ↔ ∃ d ∈ stage.io.produces, d.name = dep := by
    intro dep
    rw [Flow.produces_iff ordered, known]
    simp
  refine ⟨⟨fun dep hnone => ?_, fun dep hleft => ?_, fun dep hmissed => ?_, ?_, ?_⟩, hspreads⟩
  · have hfreed := (bindProducts_rest s.disk.cwd ctx.outputs stage.io.produces p).1 dep
    have hnone := hfreed.symm.trans hnone
    split at hnone
    · rename_i hgiven
      exact Or.inr ((hunmapped dep).mpr (Or.inr hgiven))
    · exact (listing.freed dep hnone).imp_right fun hold => (hunmapped dep).mpr (Or.inl hold)
  · rcases (hunmapped dep).mp hleft with hold | ⟨hnone, hdeclared⟩
    · obtain ⟨hunbound, step, hstep, hleaves⟩ := listing.unmapped dep hold
      exact ⟨hunbound, step, List.mem_append_left _ hstep, hleaves⟩
    · refine ⟨?_, s.stepOf p stage ctx, by simp [hsteps], (hmade dep).mpr hdeclared,
        (hout dep).trans hnone⟩
      obtain ⟨d, hd, rfl⟩ := hdeclared
      exact unbound_of_unmapped binds (Flow.producers_nodup hproducers known) hbuilt hd hnone
  · rw [hmissing] at hmissed
    exact listing.missing dep hmissed
  · rw [hsteps, List.forall_mem_append, List.forall_mem_singleton]
    refine ⟨fun step hstep dep made => ?_, fun dep made => ?_⟩
    · exact (listing.products step hstep dep made).imp
        (fun ⟨hbound, hout⟩ => ⟨hpaths dep hbound, hout⟩)
        (fun hleft => (hunmapped dep).mpr (Or.inl hleft))
    · obtain ⟨d, hd, rfl⟩ := (hmade dep).mp made
      cases hv : ctx.outputs.get? d.name with
      | none => exact Or.inr ((hunmapped d.name).mpr (Or.inr ⟨hv, d, hd, rfl⟩))
      | some v =>
        exact Or.inl ⟨bindProducts_bound hd hv p,
          Table.contains_eq_true_iff.mpr ⟨v, (hout d.name).trans hv⟩⟩
  · rw [hsteps, List.forall_mem_append, List.forall_mem_singleton]
    refine ⟨fun step hstep dep taken => hspreads dep (listing.takes step hstep dep taken), ?_⟩
    rintro dep ⟨found, hfound, take, htake, rfl⟩
    cases known.symm.trans hfound
    exact hspreads take.name (met take htake)

/-! ### Planning -/

/-- Planning stands where it should, and its tables are right. -/
structure Accounts (s : PlanSources) (producers : Table String) (target : String)
    (visiting : List String) (p : Planning) : Prop where
  stands : s.Stands producers target visiting p
  listing : s.Listing producers p

/-- Meeting a dependency lists it. -/
theorem Accounts.meet (hp : s.Accounts producers target visiting p)
    (hproducers : s.flow.producers = .ok producers)
    {planner : Planning → String → Except Failure Planning} {unmet : Fault} {required : Bool}
    {dep : String}
    (plan : ∀ name, s.flow.Needs target name → planner p name = .ok after →
      s.Accounts producers target visiting after ∧ p.Grows after ∧ p.Spreads after ∧
        after.planned.contains name = true)
    (needed : ∀ name, producers.get? dep = some name → s.flow.Needs target name)
    (h : s.meet planner unmet required p dep = .ok after) :
    s.Accounts producers target visiting after ∧ p.Spreads after ∧ after.Lists dep := by
  have hstands := (hp.stands.meet (fun name hneeded hplan =>
    ⟨(plan name hneeded hplan).1.stands, (plan name hneeded hplan).2.1,
      (plan name hneeded hplan).2.2.2⟩) needed h).1
  obtain ⟨-, ⟨hmet, rfl⟩ | ⟨-, ⟨name, hname, hplan⟩ | ⟨hfree, rfl⟩⟩⟩ := meet_eq_ok_iff.mp h
  · exact ⟨hp, .refl _, Or.inl hmet⟩
  · have hkept := hp.stands.sound.kept dep name hname
    obtain ⟨hafter, -, hspreads, hplanned⟩ := plan name (needed name hkept) hplan
    exact ⟨hafter, hspreads,
      hafter.listing.lists_product hafter.stands.sound hproducers hkept hplanned⟩
  · obtain ⟨hspreads, hlists⟩ := s.source_lists p dep
    exact ⟨⟨hstands, hp.listing.source hfree⟩, hspreads, hlists⟩

/-- Meeting all takes of a stage lists them. -/
theorem Accounts.meetAll (hp : s.Accounts producers target visiting p)
    (hproducers : s.flow.producers = .ok producers)
    {planner : Planning → String → Except Failure Planning} {unmet : Declared → Fault}
    {takes : List Declared}
    (plan : ∀ p name after, s.Accounts producers target visiting p → s.flow.Needs target name →
      planner p name = .ok after → s.Accounts producers target visiting after ∧ p.Grows after ∧
        p.Spreads after ∧ after.planned.contains name = true)
    (needed : ∀ take ∈ takes, ∀ name, producers.get? take.name = some name →
      s.flow.Needs target name)
    (h : takes.foldlM (fun p take => s.meet planner (unmet take) take.isRequired p take.name) p =
      .ok after) :
    s.Accounts producers target visiting after ∧ p.Spreads after ∧
      ∀ take ∈ takes, after.Lists take.name := by
  induction takes generalizing p with
  | nil =>
    cases h
    exact ⟨hp, .refl _, by simp⟩
  | cons take rest ih =>
    rw [List.foldlM_cons] at h
    obtain ⟨next, hnext, h⟩ := bind_eq_ok.mp h
    obtain ⟨hnext, hspreads, hlists⟩ :=
      hp.meet hproducers (fun name => plan p name next hp) (needed take List.mem_cons_self) hnext
    obtain ⟨hafter, hspread, hrest⟩ :=
      ih hnext (fun take htake => needed take (List.mem_cons_of_mem _ htake)) h
    exact ⟨hafter, hspreads.trans hspread, List.forall_mem_cons.mpr ⟨hspread _ hlists, hrest⟩⟩

/-- Planning a stage keeps the tables right. -/
theorem Accounts.planStage (named : s.flow.Named) (ordered : s.flow.stages.Ascending)
    (binds : s.flow.BindsPaths) (hproducers : s.flow.producers = .ok producers) {fuel : Nat}
    {name : String} (room : Room s.flow fuel visiting)
    (hp : s.Accounts producers target visiting p) (needed : s.flow.Needs target name)
    (h : s.planStage fuel visiting p name = .ok after) :
    s.Accounts producers target visiting after ∧ p.Grows after ∧ p.Spreads after ∧
      after.planned.contains name = true := by
  induction fuel generalizing visiting p after name with
  | zero => exact absurd rfl room.fuel_ne_zero
  | succ fuel ih =>
    obtain ⟨hstands, hgrows, hdone⟩ := hp.stands.planStage named hproducers room needed h
    rcases planStage_cases named h with
      ⟨hplanned, rfl⟩ | ⟨hplanned, hvisiting, stage, met, rfl, hknown, hmet, hadd⟩
    · exact ⟨hp, .refl _, .refl _, hplanned⟩
    · have hwaits : s.Accounts producers target (visiting ++ [stage.name]) p :=
        ⟨hp.stands.wait hplanned, hp.listing⟩
      obtain ⟨hmet, hspreads, hlists⟩ := hwaits.meetAll hproducers
        (fun p name after hp needed => ih (room.next hvisiting hknown) hp needed)
        (fun take htake other hother => .take needed hknown htake
          ((Flow.get?_producers hproducers ..).mp hother)) hmet
      obtain ⟨hlisting, hspread⟩ := hmet.listing.add binds ordered hproducers hknown hlists hadd
      exact ⟨⟨hstands, hlisting⟩, hgrows, hspreads.trans hspread, hdone⟩

end PlanSources

/-- What a plan deals with: its target, and what its stages take and produce. -/
def Flow.Concerns (f : Flow) (plan : Plan) (dep : String) : Prop :=
  dep = plan.target ∨
    ∃ step ∈ plan.steps, f.TakenBy step.stage dep ∨ f.Produces step.stage dep

/-- One of the tables of a plan lists a dependency, and only one. -/
def Plan.ListsOnce (plan : Plan) (dep : String) : Prop :=
  [plan.paths.contains dep, plan.missing.contains dep, plan.unmapped.contains dep].count true = 1

section
variable {f : Flow} {target : String} {cache : Option Fingerprints} {disk : Disk} {plan : Plan}

/-- Where planning for a target ends, with its tables. -/
theorem plan_listing (named : f.Named) (ordered : f.stages.Ascending) (binds : f.BindsPaths)
    (h : f.plan target cache disk = .ok plan) :
    ∃ producers, ∃ p : Planning, f.producers = .ok producers ∧
      plan = ⟨target, p.steps, p.paths, countRebuilds p.steps, p.missing, p.unmapped⟩ ∧
      p.Sound f producers target ∧
      (f.planSources producers target cache disk).Listing producers p ∧
      p.paths.contains target = true := by
  unfold Flow.plan at h
  obtain ⟨producers, hproducers, hrest⟩ := bind_eq_ok.mp h
  obtain ⟨p, hp, hplan⟩ := bind_eq_ok.mp hrest
  cases hplan
  have hstart : (f.planSources producers target cache disk).Accounts producers target []
      (.start producers) :=
    ⟨⟨Planning.sound_start, by simp⟩, PlanSources.listing_start⟩
  have hbound := (PlanSources.meet_eq_ok_iff.mp hp).1 rfl
  obtain ⟨haccounts, -, -⟩ := hstart.meet hproducers
    (fun name needed => PlanSources.Accounts.planStage named ordered binds hproducers
      (PlanSources.room_start f) hstart needed)
    (fun name hname => .target ((Flow.get?_producers hproducers ..).mp hname)) hp
  exact ⟨producers, p, hproducers, rfl, haccounts.stands.sound, haccounts.listing, hbound⟩

/-- No two steps of a plan write the same product. -/
theorem plan_outputs_nodup (named : f.Named) (h : f.plan target cache disk = .ok plan) :
    (plan.steps.flatMap (·.outputs.keys)).Nodup := by
  obtain ⟨producers, p, -, hsteps, -, sound, -⟩ := plan_sound named h
  obtain ⟨_, -, hbuilt⟩ := plan_built named h
  refine List.nodup_flatMap.mpr ⟨fun step hstep => ?_, ?_⟩
  · obtain ⟨stage, ctx, paths, reached, houtputs, -⟩ := hbuilt step hstep
    have ascending := Bindings.ascending_bound (Context.ascending_outputs reached.built)
    rw [houtputs]
    exact ascending.imp fun hlt => hlt.ne
  · refine (List.pairwise_map.mp (plan_distinct named h)).imp_of_mem
      fun {step other} hstep hother hne dep hdep hdep' => hne ?_
    obtain ⟨v, hv⟩ := Table.contains_eq_true_iff.mp (Table.contains_iff_mem_keys.mpr hdep)
    obtain ⟨w, hw⟩ := Table.contains_eq_true_iff.mp (Table.contains_iff_mem_keys.mpr hdep')
    rw [hsteps] at hstep hother
    exact Option.some.inj
      ((sound.made step hstep dep v hv).symm.trans (sound.made other hother dep w hw))

/-- Every product of a step that has to run is counted once, and nothing else is counted. -/
theorem plan_rebuilds_iff (named : f.Named) (h : f.plan target cache disk = .ok plan)
    (dep : String) (n : Nat) : plan.rebuilds.get? dep = some n ↔
      n = 1 ∧ ∃ step ∈ plan.steps, step.required = true ∧ ∃ v, step.outputs.get? dep = some v := by
  have hnodup : ((plan.steps.filter (·.required)).flatMap (·.outputs.keys)).Nodup :=
    (plan_outputs_nodup named h).sublist (List.filter_sublist.flatMap _)
  have hcounts : plan.rebuilds = countRebuilds plan.steps := by
    obtain ⟨producers, p, -, rfl, -⟩ := plan_reaches named h
    rfl
  have hmem : dep ∈ (plan.steps.filter (·.required)).flatMap (·.outputs.keys) ↔
      ∃ step ∈ plan.steps, step.required = true ∧ ∃ v, step.outputs.get? dep = some v := by
    simp only [List.mem_flatMap, List.mem_filter, and_assoc]
    refine exists_congr fun step => and_congr_right fun _ => and_congr_right fun _ => ?_
    rw [← Table.contains_iff_mem_keys, Table.contains_eq_true_iff]
  rw [hcounts, get?_countRebuilds, ← hmem]
  split
  · rename_i hcounted
    rw [List.count_eq_one_of_mem hnodup hcounted]
    simp [hcounted, eq_comm]
  · rename_i habsent
    simp [habsent]

/-- What a plan lists as unmapped, its steps leave without a path. -/
theorem plan_unmapped_iff (named : f.Named) (ordered : f.stages.Ascending) (binds : f.BindsPaths)
    (h : f.plan target cache disk = .ok plan) (dep : String) :
    plan.unmapped.contains dep = true ↔ ∃ step ∈ plan.steps, f.Leaves step dep := by
  obtain ⟨producers, p, -, rfl, -, listing, -⟩ := plan_listing named ordered binds h
  refine ⟨fun hleft => (listing.unmapped dep hleft).2, ?_⟩
  rintro ⟨step, hstep, made, hnone⟩
  refine (listing.products step hstep dep made).resolve_left ?_
  rintro ⟨-, hout⟩
  obtain ⟨v, hv⟩ := Table.contains_eq_true_iff.mp hout
  cases hnone.symm.trans hv

/-- What is unmapped has no path: only the step that leaves it could have written it. -/
theorem plan_unmapped_apart (named : f.Named) (ordered : f.stages.Ascending) (binds : f.BindsPaths)
    (h : f.plan target cache disk = .ok plan) {dep : String}
    (hleft : plan.unmapped.contains dep = true) :
    plan.paths.contains dep = false ∧ plan.missing.contains dep = false := by
  have hdistinct := plan_distinct named h
  obtain ⟨producers, p, hproducers, rfl, sound, listing, -⟩ := plan_listing named ordered binds h
  obtain ⟨hunbound, step, hstep, declared, hnone⟩ := listing.unmapped dep hleft
  have made := (Flow.get?_producers hproducers dep step.stage).mpr declared
  rw [Bool.eq_false_iff, Bool.eq_false_iff]
  refine ⟨fun hpath => ?_, fun hmissed => ?_⟩
  · obtain ⟨v, hv⟩ := Table.contains_eq_true_iff.mp hpath
    rcases (sound.bound dep v hv).2 with ⟨other, hother, hout⟩ | ⟨-, hbinding⟩
    · have hsame := Option.some.inj ((sound.made other hother dep v hout).symm.trans made)
      have hstep := List.inj_on_of_nodup_map hdistinct hother hstep hsame
      rw [hstep, hnone] at hout
      cases hout
    · cases hunbound.symm.trans hbinding
  · cases made.symm.trans (listing.missing dep hmissed).1

/-- What has a path is not missing. -/
theorem plan_missing_apart (named : f.Named) (ordered : f.stages.Ascending) (binds : f.BindsPaths)
    (h : f.plan target cache disk = .ok plan) {dep : String}
    (hmissed : plan.missing.contains dep = true) : plan.paths.contains dep = false := by
  obtain ⟨producers, p, hproducers, rfl, sound, listing, -⟩ := plan_listing named ordered binds h
  obtain ⟨hunmade, hunbound⟩ := listing.missing dep hmissed
  rw [Bool.eq_false_iff]
  intro hpath
  obtain ⟨v, hv⟩ := Table.contains_eq_true_iff.mp hpath
  rcases (sound.bound dep v hv).2 with ⟨step, hstep, hout⟩ | ⟨-, hbinding⟩
  · cases hunmade.symm.trans (sound.made step hstep dep v hout)
  · cases hunbound.symm.trans hbinding

/-- What a plan deals with is listed; what it lists as missing is neither produced nor bound. -/
theorem plan_lists (named : f.Named) (ordered : f.stages.Ascending) (binds : f.BindsPaths)
    (h : f.plan target cache disk = .ok plan) {dep : String} (concerned : f.Concerns plan dep) :
    (plan.paths.contains dep = true ∨ plan.missing.contains dep = true ∨
      plan.unmapped.contains dep = true) ∧
    (plan.missing.contains dep = true ↔
      (∀ name, ¬ f.Produces name dep) ∧ f.dependencies.get? dep = none) := by
  have hunmapped := plan_unmapped_iff named ordered binds h dep
  obtain ⟨producers, p, hproducers, rfl, sound, listing, htarget⟩ :=
    plan_listing named ordered binds h
  have hlists : p.Lists dep := by
    rcases concerned with rfl | ⟨step, hstep, taken | made⟩
    · exact Or.inl htarget
    · exact listing.takes step hstep dep taken
    · exact (listing.products step hstep dep made).imp And.left Or.inr
  refine ⟨hlists, fun hmissed => ?_, fun ⟨hunmade, hunbound⟩ => ?_⟩
  · obtain ⟨hnone, hunbound⟩ := listing.missing dep hmissed
    refine ⟨fun name made => ?_, hunbound⟩
    cases hnone.symm.trans ((Flow.get?_producers hproducers dep name).mpr made)
  · rcases hlists with hpath | hmissed | hleft
    · obtain ⟨v, hv⟩ := Table.contains_eq_true_iff.mp hpath
      rcases (sound.bound dep v hv).2 with ⟨step, hstep, hout⟩ | ⟨-, hbinding⟩
      · have made := (Flow.get?_producers hproducers ..).mp (sound.made step hstep dep v hout)
        exact absurd made (hunmade step.stage)
      · cases hunbound.symm.trans hbinding
    · exact hmissed
    · obtain ⟨step, -, made, -⟩ := hunmapped.mp hleft
      exact absurd made (hunmade step.stage)

/-- A plan lists all it deals with, each dependency once: as unmapped what one of its stages
declares as a product and gives no path, as missing what is neither produced nor bound. It counts
once each product of the steps that have to run. -/
theorem plan_classifies (named : f.Named) (ordered : f.stages.Ascending) (binds : f.BindsPaths)
    (h : f.plan target cache disk = .ok plan) :
    (∀ dep, f.Concerns plan dep → plan.ListsOnce dep ∧
      (plan.unmapped.contains dep = true ↔ ∃ step ∈ plan.steps, f.Leaves step dep) ∧
      (plan.missing.contains dep = true ↔
        (∀ name, ¬ f.Produces name dep) ∧ f.dependencies.get? dep = none)) ∧
    ∀ dep n, plan.rebuilds.get? dep = some n ↔
      n = 1 ∧ ∃ step ∈ plan.steps, step.required = true ∧ ∃ v, step.outputs.get? dep = some v := by
  refine ⟨fun dep concerned => ?_, plan_rebuilds_iff named h⟩
  obtain ⟨hlists, hmissing⟩ := plan_lists named ordered binds h concerned
  refine ⟨?_, plan_unmapped_iff named ordered binds h dep, hmissing⟩
  unfold Plan.ListsOnce
  cases hleft : plan.unmapped.contains dep with
  | true =>
    obtain ⟨hpath, hmissed⟩ := plan_unmapped_apart named ordered binds h hleft
    rw [hpath, hmissed]
    rfl
  | false =>
    cases hmissed : plan.missing.contains dep with
    | true =>
      rw [plan_missing_apart named ordered binds h hmissed]
      rfl
    | false =>
      have hpath := hlists.resolve_right (by simp [hleft, hmissed])
      rw [hpath]
      rfl

end

/-- A synthesis that nobody gives a build directory and whose log nobody wants: the one is missing,
the other unmapped. -/
theorem synthesis_classifies : ∃ synth plan,
    Modules.Synthesis.make ⟨.null, .empty, "synth"⟩ = .ok synth ∧ (synthesisFlow synth).Named ∧
    (synthesisFlow synth).stages.Ascending ∧ (synthesisFlow synth).BindsPaths ∧
    (synthesisFlow synth).plan "eblif" none Relay.disk = .ok plan ∧
    plan.ListsOnce "build_dir" ∧ plan.missing.contains "build_dir" = true ∧
    plan.ListsOnce "synth_log" ∧ plan.unmapped.contains "synth_log" = true ∧
    plan.rebuilds.get? "eblif" = some 1 := by
  have hchecks : okAnd (Modules.Synthesis.make ⟨.null, .empty, "synth"⟩) (fun synth =>
      synth.io.takes.contains (.optional "build_dir") &&
      synth.io.produces.contains (.onDemand "synth_log") &&
      synth.io.produces.all (·.name ≠ "build_dir") &&
      okAnd ((synthesisFlow synth).plan "eblif" none Relay.disk) fun plan =>
        singleAnd plan.steps fun step => step.stage == "synth" && step.required &&
          (step.outputs.get? "eblif").isSome && (step.outputs.get? "synth_log").isNone) = true := by
    decide +kernel
  obtain ⟨synth, hsynth, hchecks⟩ := exists_of_okAnd hchecks
  simp only [Bool.and_eq_true] at hchecks
  obtain ⟨⟨⟨htake, hproduct⟩, hmakes⟩, hplan⟩ := hchecks
  obtain ⟨plan, hplan, hsteps⟩ := exists_of_okAnd hplan
  obtain ⟨step, hsteps, hstep⟩ := exists_of_singleAnd hsteps
  simp only [Bool.and_eq_true, beq_iff_eq] at hstep
  obtain ⟨⟨⟨hstage, hrequired⟩, heblif⟩, hlog⟩ := hstep
  have named : (synthesisFlow synth).Named := Flow.named_of_all rfl
  have ordered : (synthesisFlow synth).stages.Ascending := Table.ascending_ofList _
  have binds : (synthesisFlow synth).BindsPaths := by
    intro dep v hv
    have hsources : (synthesisFlow synth).dependencies =
        Table.empty.insert "sources" (.str "/src") := rfl
    rw [hsources, Table.get?_insert] at hv
    split at hv
    · cases hv
      rfl
    · cases hv
  have hmem : step ∈ plan.steps := by simp [hsteps]
  have htake : Declared.optional "build_dir" ∈ synth.io.takes := by simpa using htake
  have hproduct : Declared.onDemand "synth_log" ∈ synth.io.produces := by simpa using hproduct
  obtain ⟨stage, known, hio⟩ : ∃ stage,
      (synthesisFlow synth).stages.get? step.stage = some stage ∧ stage.io = synth.io := by
    rw [hstage]
    exact ⟨_, rfl, rfl⟩
  have htaken : (synthesisFlow synth).TakenBy step.stage "build_dir" :=
    ⟨stage, known, .optional "build_dir", hio ▸ htake, rfl⟩
  have hmade : (synthesisFlow synth).Produces step.stage "synth_log" :=
    (Flow.produces_iff ordered).mpr
      ⟨stage, known, .onDemand "synth_log", hio ▸ hproduct, rfl⟩
  obtain ⟨hlists, hcounts⟩ := plan_classifies named ordered binds hplan
  obtain ⟨hdir, -, hmissing⟩ := hlists "build_dir" (Or.inr ⟨step, hmem, Or.inl htaken⟩)
  obtain ⟨hlogOnce, hunmapped, -⟩ := hlists "synth_log" (Or.inr ⟨step, hmem, Or.inr hmade⟩)
  refine ⟨synth, plan, hsynth, named, ordered, binds, hplan, hdir, hmissing.mpr ⟨?_, rfl⟩,
    hlogOnce, hunmapped.mpr ⟨step, hmem, hmade, by simpa using hlog⟩,
    (hcounts "eblif" 1).mpr ⟨rfl, step, hmem, hrequired, Option.isSome_iff_exists.mp heblif⟩⟩
  rintro name ⟨stage, hstage, d, hd, hname⟩
  cases List.mem_singleton.mp hstage
  exact of_decide_eq_true (List.all_eq_true.mp hmakes d hd) hname

end Toolflow
