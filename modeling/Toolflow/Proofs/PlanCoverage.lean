import Mathlib.Data.List.Perm.Subperm
import Toolflow.Proofs.Copying
import Toolflow.Proofs.Planning

/-! Which stages a plan holds, and what feeds them.

A target needs the stage that produces it and the producers of whatever a needed stage takes. While
a plan is made the table of producers shrinks: a product that gets no path loses its producer, but
only once that producer has been planned. So a dependency without a producer is closed for good, and
what the configuration binds it to stays. A plan therefore holds exactly the stages that are needed,
each after the producers of its takes. -/
namespace Toolflow

namespace Flow

/-- A stage declares a product. -/
def Produces (f : Flow) (name dep : String) : Prop :=
  ∃ stage, (name, stage) ∈ f.stages.entries ∧ ∃ d ∈ stage.io.produces, d.name = dep

/-- The stages that a target needs: its producer, and the producers of what those take. -/
inductive Needs (f : Flow) (target : String) : String → Prop
  | target {name : String} (made : f.Produces name target) : Needs f target name
  | take {name other : String} {stage : Stage} {take : Declared} (needed : Needs f target name)
      (known : f.stages.get? name = some stage) (taken : take ∈ stage.io.takes)
      (made : f.Produces other take.name) : Needs f target other

/-- What a dependency is bound to: an output of one of the steps `before`, or, where none of the
steps `all` has it as an output, its binding in the configuration. -/
def Feeds (f : Flow) (before all : List PlanStep) (dep : String) (v : Value) : Prop :=
  (∃ step ∈ before, step.outputs.get? dep = some v) ∨
    (∀ step ∈ all, step.outputs.get? dep = none) ∧ f.dependencies.get? dep = some v

theorem Feeds.snoc {f : Flow} {before all : List PlanStep} {dep : String} {v : Value}
    (h : f.Feeds before all dep v) {step : PlanStep} (hstep : step.outputs.get? dep = none) :
    f.Feeds before (all ++ [step]) dep v :=
  h.imp_right fun ⟨hall, hv⟩ =>
    ⟨List.forall_mem_append.mpr ⟨hall, List.forall_mem_singleton.mpr hstep⟩, hv⟩

theorem enterProducts_iff {name : String} {l : List Declared} {t after : Table String}
    (h : l.foldlM (enterProduct name) t = .ok after) (dep n : String) :
    after.get? dep = some n ↔ t.get? dep = some n ∨ n = name ∧ ∃ d ∈ l, d.name = dep := by
  induction l generalizing t with
  | nil =>
    cases h
    simp
  | cons d rest ih =>
    rw [List.foldlM_cons] at h
    obtain ⟨next, hnext, h⟩ := bind_eq_ok.mp h
    unfold enterProduct at hnext
    cases hd : t.get? d.name with
    | some other =>
      rw [hd] at hnext
      cases hnext
    | none =>
      rw [hd] at hnext
      cases hnext
      rw [ih h, Table.get?_insert]
      simp only [List.mem_cons, exists_eq_or_imp]
      by_cases hdep : dep = d.name
      · subst hdep
        simp only [hd, if_true, Option.some.injEq, reduceCtorEq, true_or, and_true, false_or]
        exact ⟨fun h => h.elim Eq.symm And.left, fun h => Or.inl h.symm⟩
      · simp [hdep, Ne.symm hdep]

/-- The table of producers lists for each dependency the stage that declares it as a product. -/
theorem get?_producers {f : Flow} {producers : Table String} (h : f.producers = .ok producers)
    (dep name : String) : producers.get? dep = some name ↔ f.Produces name dep := by
  have hfold : ∀ (l : List (String × Stage)) (t after : Table String),
      l.foldlM (fun t e => e.2.io.produces.foldlM (enterProduct e.1) t) t = .ok after →
      (after.get? dep = some name ↔ t.get? dep = some name ∨
        ∃ stage, (name, stage) ∈ l ∧ ∃ d ∈ stage.io.produces, d.name = dep) := by
    intro l
    induction l with
    | nil =>
      intro t after h
      cases h
      simp
    | cons e rest ih =>
      intro t after h
      rw [List.foldlM_cons] at h
      obtain ⟨next, hnext, h⟩ := bind_eq_ok.mp h
      rw [ih next after h, enterProducts_iff hnext]
      constructor
      · rintro ((hold | ⟨rfl, hd⟩) | ⟨stage, hmem, hd⟩)
        · exact Or.inl hold
        · exact Or.inr ⟨e.2, List.mem_cons_self, hd⟩
        · exact Or.inr ⟨stage, List.mem_cons_of_mem _ hmem, hd⟩
      · rintro (hold | ⟨stage, hmem, hd⟩)
        · exact Or.inl (Or.inl hold)
        · rcases List.mem_cons.mp hmem with rfl | hmem
          · exact Or.inl (Or.inr ⟨rfl, hd⟩)
          · exact Or.inr ⟨stage, hmem, hd⟩
  rw [hfold _ _ _ (producers_eq f ▸ h)]
  simp [Produces]

end Flow

namespace Planning

/-- The producer of a dependency has been planned, if there is one. -/
def Closed (producers : Table String) (p : Planning) (dep : String) : Prop :=
  ∀ name, producers.get? dep = some name → p.planned.contains name = true

/-- What has been planned stays planned, and what has a path keeps one. -/
structure Grows (p after : Planning) : Prop where
  planned : ∀ name, p.planned.contains name = true → after.planned.contains name = true
  paths : ∀ dep, p.paths.contains dep = true → after.paths.contains dep = true

theorem Grows.refl (p : Planning) : p.Grows p := ⟨fun _ h => h, fun _ h => h⟩

theorem Grows.trans {p next after : Planning} (h : p.Grows next) (h' : next.Grows after) :
    p.Grows after :=
  ⟨fun name hp => h'.planned name (h.planned name hp), fun dep hp => h'.paths dep (h.paths dep hp)⟩

theorem grows_bind (p : Planning) (cwd dep : String) (v : Value) : p.Grows (p.bind cwd dep v) :=
  ⟨fun _ h => h, fun _ h => (Table.contains_insert ..).mpr (Or.inr h)⟩

theorem Closed.mono {producers : Table String} {p after : Planning} {dep : String}
    (h : p.Closed producers dep) (grows : p.Grows after) : after.Closed producers dep :=
  fun name hname => grows.planned name (h name hname)

/-- A closed dependency has no producer that is still to be planned. -/
theorem Closed.ne_unplanned {producers : Table String} {p : Planning} {dep name : String}
    (h : p.Closed producers dep) (unplanned : p.planned.contains name = false) :
    producers.get? dep ≠ some name := by
  intro hname
  rw [h name hname] at unplanned
  cases unplanned

end Planning

/-- A step fits where the steps `before` are in front of it: the producers of all its takes are
planned, its required takes are bound, and what is bound comes from a step in front of it or from
the configuration. -/
structure Flow.Fits (f : Flow) (producers : Table String) (p : Planning) (before : List PlanStep)
    (step : PlanStep) (stage : Stage) : Prop where
  closed : ∀ take ∈ stage.io.takes, p.Closed producers take.name
  required : ∀ take ∈ stage.io.takes, take.isRequired = true →
    ∃ v, step.inputs.takes.get? take.name = some v
  fed : ∀ take ∈ stage.io.takes, ∀ v, step.inputs.takes.get? take.name = some v →
    f.Feeds before p.steps take.name v

/-- Where planning stands, seen from the producers it started with. -/
structure Planning.Sound (f : Flow) (producers : Table String) (target : String) (p : Planning) :
    Prop where
  kept : ∀ dep name, p.producers.get? dep = some name → producers.get? dep = some name
  closed : ∀ dep, p.producers.get? dep = none → p.Closed producers dep
  unmade : ∀ dep, p.producers.get? dep = none → ∀ step ∈ p.steps, step.outputs.get? dep = none
  planned : ∀ name, p.planned.contains name = true ↔ ∃ step ∈ p.steps, step.stage = name
  needed : ∀ step ∈ p.steps, f.Needs target step.stage
  made : ∀ step ∈ p.steps, ∀ dep v, step.outputs.get? dep = some v →
    producers.get? dep = some step.stage
  bound : ∀ dep v, p.paths.get? dep = some v →
    p.Closed producers dep ∧ f.Feeds p.steps p.steps dep v
  fits : ∀ before step after, p.steps = before ++ step :: after →
    ∃ stage, f.stages.get? step.stage = some stage ∧ f.Fits producers p before step stage

namespace Planning
variable {f : Flow} {producers : Table String} {target dep : String} {p : Planning}

theorem sound_start : (start producers).Sound f producers target where
  kept _ _ h := h
  closed dep h name hname := by
    cases h.symm.trans hname
  unmade := by simp [start]
  planned name := by simp [start, Table.contains]
  needed := by simp [start]
  made := by simp [start]
  bound dep v h := by simp [start] at h
  fits before step after h := by simp [start] at h

/-- A dependency without a producer may be bound as the configuration has it. -/
theorem Sound.bind (h : p.Sound f producers target) (free : p.producers.get? dep = none)
    {v : Value} (hv : f.dependencies.get? dep = some v) (cwd : String) :
    (p.bind cwd dep v).Sound f producers target where
  kept := h.kept
  closed := h.closed
  unmade := h.unmade
  planned := h.planned
  needed := h.needed
  made := h.made
  bound other w hw := by
    by_cases hother : other = dep
    · subst hother
      simp only [Planning.bind, Table.get?_insert_self, Option.some.injEq] at hw
      subst hw
      exact ⟨h.closed _ free, Or.inr ⟨h.unmade _ free, hv⟩⟩
    · simp only [Planning.bind, Table.get?_insert_of_ne _ _ hother] at hw
      exact h.bound other w hw
  fits before step after horder := by
    obtain ⟨stage, hstage, hfits⟩ := h.fits before step after horder
    exact ⟨stage, hstage, hfits.closed, hfits.required, hfits.fed⟩

theorem Sound.miss (h : p.Sound f producers target) (missing : NameSet) :
    Sound f producers target { p with missing } where
  kept := h.kept
  closed := h.closed
  unmade := h.unmade
  planned := h.planned
  needed := h.needed
  made := h.made
  bound := h.bound
  fits before step after horder := by
    obtain ⟨stage, hstage, hfits⟩ := h.fits before step after horder
    exact ⟨stage, hstage, hfits.closed, hfits.required, hfits.fed⟩

end Planning

namespace PlanSources
variable {s : PlanSources} {p after : Planning} {stage : Stage} {producers : Table String}
  {target : String}

/-- Noting the products of a stage gives up the producers of those without a path, and no path. -/
theorem bindProducts_rest (cwd : String) (outputs : Bindings) (l : List Declared) (p : Planning) :
    (∀ dep, (l.foldl (Planning.bindProduct cwd outputs) p).producers.get? dep =
        if outputs.get? dep = none ∧ ∃ d ∈ l, d.name = dep then none
        else p.producers.get? dep) ∧
      ∀ dep, p.paths.contains dep = true →
        (l.foldl (Planning.bindProduct cwd outputs) p).paths.contains dep = true := by
  induction l generalizing p with
  | nil => simp
  | cons d rest ih =>
    obtain ⟨hproducers, hpaths⟩ := ih (Planning.bindProduct cwd outputs p d)
    rw [List.foldl_cons]
    refine ⟨fun dep => ?_, fun dep hdep => hpaths dep ?_⟩
    · rw [hproducers]
      simp only [List.mem_cons, exists_eq_or_imp]
      cases hd : outputs.get? d.name with
      | none =>
        simp only [Planning.bindProduct, hd, Table.get?_erase]
        by_cases hdep : dep = d.name
        · subst hdep
          simp [hd]
        · simp [hdep, Ne.symm hdep]
      | some v =>
        simp only [Planning.bindProduct, hd, Planning.bind]
        by_cases hdep : dep = d.name
        · subst hdep
          simp [hd]
        · simp [Ne.symm hdep]
    · unfold Planning.bindProduct
      cases outputs.get? d.name with
      | none => exact hdep
      | some v => exact (p.grows_bind cwd d.name v).paths dep hdep

/-- What the step of a stage adds to planning. A product that gets no path gives up its producer. -/
structure Adds (s : PlanSources) (producers : Table String) (p : Planning) (stage : Stage)
    (step : PlanStep) (after : Planning) : Prop where
  grows : p.Grows after
  steps : after.steps = p.steps ++ [step]
  named : step.stage = stage.name
  inputs : step.inputs = s.inputsOf stage p.paths
  planned : ∀ name, after.planned.contains name = true ↔
    name = stage.name ∨ p.planned.contains name = true
  freed : ∀ dep, after.producers.get? dep = p.producers.get? dep ∨
    after.producers.get? dep = none ∧ step.outputs.get? dep = none ∧
      producers.get? dep = some stage.name
  made : ∀ dep v, step.outputs.get? dep = some v → producers.get? dep = some stage.name
  paths : ∀ dep v, after.paths.get? dep = some v →
    p.paths.get? dep = some v ∨ step.outputs.get? dep = some v

theorem addStep_adds (hproducers : s.flow.producers = .ok producers)
    (known : s.flow.stages.get? stage.name = some stage) (hadd : s.addStep p stage = .ok after) :
    ∃ step, s.Adds producers p stage step after := by
  obtain ⟨ctx, hbuilt, rfl⟩ := addStep_eq_ok_iff.mp hadd
  obtain ⟨-, -, hpaths⟩ := bindProducts_spec s.disk.cwd ctx.outputs stage.io.produces p
  obtain ⟨hfreed, hgrown⟩ := bindProducts_rest s.disk.cwd ctx.outputs stage.io.produces p
  have hbound : ∀ name, (s.stepOf p stage ctx).outputs.get? name = ctx.outputs.get? name :=
    Bindings.get?_bound (Context.ascending_outputs hbuilt)
  have hdeclared : ∀ d ∈ stage.io.produces, producers.get? d.name = some stage.name :=
    fun d hd => (Flow.get?_producers hproducers ..).mpr
      ⟨stage, Table.mem_of_get? known, d, hd, rfl⟩
  have hplanned : ∀ name, (p.planned.add stage.name).contains name = true ↔
      name = stage.name ∨ p.planned.contains name = true :=
    fun name => Table.contains_insert ..
  refine ⟨s.stepOf p stage ctx, ⟨fun name h => (hplanned name).mpr (Or.inr h), hgrown⟩, rfl, rfl,
    rfl, hplanned, fun dep => ?_, fun dep v hv => ?_, fun dep v hv => ?_⟩
  · by_cases hdep : ctx.outputs.get? dep = none ∧ ∃ d ∈ stage.io.produces, d.name = dep
    · obtain ⟨hnone, d, hd, rfl⟩ := hdep
      refine Or.inr ⟨?_, (hbound _).trans hnone, hdeclared d hd⟩
      exact (hfreed _).trans (if_pos ⟨hnone, d, hd, rfl⟩)
    · exact Or.inl ((hfreed dep).trans (if_neg hdep))
  · rw [hbound] at hv
    obtain ⟨d, hd, rfl⟩ := Context.output_declared hbuilt hv
    exact hdeclared d hd
  · rw [hbound]
    exact hpaths dep v hv

section
variable {step : PlanStep}

/-- A dependency that was closed before a step was added is none of its outputs. -/
theorem Adds.unmade (adds : s.Adds producers p stage step after)
    (unplanned : p.planned.contains stage.name = false) {dep : String}
    (closed : p.Closed producers dep) : step.outputs.get? dep = none := by
  cases hv : step.outputs.get? dep with
  | none => rfl
  | some v => exact absurd (adds.made dep v hv) (closed.ne_unplanned unplanned)

/-- A dependency that is left without a producer is closed, and no step has it as an output. -/
theorem Adds.free (adds : s.Adds producers p stage step after)
    (sound : p.Sound s.flow producers target)
    (unplanned : p.planned.contains stage.name = false) {dep : String}
    (free : after.producers.get? dep = none) :
    after.Closed producers dep ∧ ∀ step ∈ after.steps, step.outputs.get? dep = none := by
  rw [adds.steps, List.forall_mem_append, List.forall_mem_singleton]
  rcases adds.freed dep with hsame | ⟨-, hnone, hself⟩
  · rw [hsame] at free
    have hclosed := sound.closed dep free
    exact ⟨hclosed.mono adds.grows, sound.unmade dep free, adds.unmade unplanned hclosed⟩
  · refine ⟨fun name hname => ?_, fun old hold => ?_, hnone⟩
    · cases hself.symm.trans hname
      exact (adds.planned _).mpr (Or.inl rfl)
    · cases hv : old.outputs.get? dep with
      | none => rfl
      | some v =>
        have hsame := (sound.made old hold dep v hv).symm.trans hself
        have hplanned := (sound.planned old.stage).mpr ⟨old, hold, rfl⟩
        rw [Option.some.inj hsame, unplanned] at hplanned
        cases hplanned

/-- What is bound after a step has been added was bound before, or it is an output of the step. -/
theorem Adds.bound (adds : s.Adds producers p stage step after)
    (sound : p.Sound s.flow producers target)
    (unplanned : p.planned.contains stage.name = false) {dep : String} {v : Value}
    (hv : after.paths.get? dep = some v) :
    after.Closed producers dep ∧ s.flow.Feeds after.steps after.steps dep v := by
  rw [adds.steps]
  rcases adds.paths dep v hv with hold | hout
  · obtain ⟨hclosed, hfeeds⟩ := sound.bound dep v hold
    refine ⟨hclosed.mono adds.grows, (hfeeds.snoc (adds.unmade unplanned hclosed)).imp_left ?_⟩
    exact fun ⟨step, hstep, hv⟩ => ⟨step, List.mem_append_left _ hstep, hv⟩
  · refine ⟨fun name hname => ?_, Or.inl ⟨step, by simp, hout⟩⟩
    cases (adds.made dep v hout).symm.trans hname
    exact (adds.planned _).mpr (Or.inl rfl)

/-- The steps in front still fit, and so does the step that is added once its takes have been
met. -/
theorem Adds.fits (adds : s.Adds producers p stage step after)
    (sound : p.Sound s.flow producers target)
    (known : s.flow.stages.get? stage.name = some stage)
    (unplanned : p.planned.contains stage.name = false)
    (met : ∀ take ∈ stage.io.takes, p.Closed producers take.name ∧
      (take.isRequired = true → p.paths.contains take.name = true))
    {before rest : List PlanStep} {other : PlanStep}
    (order : after.steps = before ++ other :: rest) :
    ∃ found, s.flow.stages.get? other.stage = some found ∧
      s.flow.Fits producers after before other found := by
  have hsteps := adds.steps
  rw [order] at hsteps
  rcases List.eq_nil_or_concat' rest with rfl | ⟨rest, last, rfl⟩
  · obtain ⟨rfl, hlast⟩ := List.append_inj' hsteps rfl
    cases hlast
    refine ⟨stage, adds.named ▸ known, fun take htake => (met take htake).1.mono adds.grows,
      fun take htake hrequired => ?_, fun take htake v hv => ?_⟩
    · rw [adds.inputs, s.get?_inputsOf_declared _ htake]
      exact Table.contains_eq_true_iff.mp ((met take htake).2 hrequired)
    · rw [adds.inputs] at hv
      obtain ⟨hclosed, hfeeds⟩ := sound.bound take.name v (get?_inputsOf hv)
      rw [adds.steps]
      exact hfeeds.snoc (adds.unmade unplanned hclosed)
  · rw [← List.cons_append, ← List.append_assoc] at hsteps
    obtain ⟨found, hfound, hfits⟩ :=
      sound.fits before other rest (List.append_inj' hsteps rfl).1.symm
    refine ⟨found, hfound, fun take htake => (hfits.closed take htake).mono adds.grows,
      hfits.required, fun take htake v hv => ?_⟩
    rw [adds.steps]
    exact (hfits.fed take htake v hv).snoc (adds.unmade unplanned (hfits.closed take htake))

/-- A needed stage whose takes have been met may be added. -/
theorem Adds.sound (adds : s.Adds producers p stage step after)
    (sound : p.Sound s.flow producers target)
    (known : s.flow.stages.get? stage.name = some stage)
    (unplanned : p.planned.contains stage.name = false) (needed : s.flow.Needs target stage.name)
    (met : ∀ take ∈ stage.io.takes, p.Closed producers take.name ∧
      (take.isRequired = true → p.paths.contains take.name = true)) :
    after.Sound s.flow producers target where
  kept dep name h := by
    rcases adds.freed dep with hsame | ⟨hnone, -⟩
    · exact sound.kept dep name (hsame ▸ h)
    · cases hnone.symm.trans h
  closed _ free := (adds.free sound unplanned free).1
  unmade _ free := (adds.free sound unplanned free).2
  planned name := by
    rw [adds.planned, sound.planned, adds.steps, or_comm]
    simp [or_and_right, exists_or, adds.named, eq_comm]
  needed := by
    rw [adds.steps, List.forall_mem_append, List.forall_mem_singleton, adds.named]
    exact ⟨sound.needed, needed⟩
  made := by
    rw [adds.steps, List.forall_mem_append, List.forall_mem_singleton, adds.named]
    exact ⟨sound.made, adds.made⟩
  bound _ _ hv := adds.bound sound unplanned hv
  fits _ _ _ order := adds.fits sound known unplanned met order

end

/-- Where planning stands while the given stages wait for others to be planned. -/
structure Stands (s : PlanSources) (producers : Table String) (target : String)
    (visiting : List String) (p : Planning) : Prop where
  sound : p.Sound s.flow producers target
  unplanned : ∀ v ∈ visiting, p.planned.contains v = false

variable {visiting : List String}

/-- Meeting a dependency that is needed closes it, and binds it if it is required. -/
theorem Stands.meet (hp : s.Stands producers target visiting p)
    {planner : Planning → String → Except Failure Planning} {unmet : Fault} {required : Bool}
    {dep : String}
    (plan : ∀ name, s.flow.Needs target name → planner p name = .ok after →
      s.Stands producers target visiting after ∧ p.Grows after ∧
        after.planned.contains name = true)
    (needed : ∀ name, producers.get? dep = some name → s.flow.Needs target name)
    (h : s.meet planner unmet required p dep = .ok after) :
    s.Stands producers target visiting after ∧ p.Grows after ∧ after.Closed producers dep ∧
      (required = true → after.paths.contains dep = true) := by
  obtain ⟨hrequired, ⟨hmet, rfl⟩ | ⟨name, hname, hplan⟩ | ⟨hfree, ⟨v, hv, rfl⟩ | ⟨missing, rfl⟩⟩⟩ :=
    meet_cases h
  · obtain ⟨v, hv⟩ := Table.contains_eq_true_iff.mp hmet
    exact ⟨hp, .refl _, (hp.sound.bound dep v hv).1, hrequired⟩
  · have hkept := hp.sound.kept dep name hname
    obtain ⟨hafter, hgrows, hplanned⟩ := plan name (needed name hkept) hplan
    refine ⟨hafter, hgrows, fun other hother => ?_, hrequired⟩
    cases hkept.symm.trans hother
    exact hplanned
  · exact ⟨⟨hp.sound.bind hfree hv s.disk.cwd, hp.unplanned⟩, p.grows_bind _ _ _,
      hp.sound.closed dep hfree, hrequired⟩
  · exact ⟨⟨hp.sound.miss missing, hp.unplanned⟩, ⟨fun _ h => h, fun _ h => h⟩,
      hp.sound.closed dep hfree, hrequired⟩

/-- So does meeting all takes of a stage. -/
theorem Stands.meetAll (hp : s.Stands producers target visiting p)
    {planner : Planning → String → Except Failure Planning} {unmet : Declared → Fault}
    {takes : List Declared}
    (plan : ∀ p name after, s.Stands producers target visiting p → s.flow.Needs target name →
      planner p name = .ok after → s.Stands producers target visiting after ∧ p.Grows after ∧
        after.planned.contains name = true)
    (needed : ∀ take ∈ takes, ∀ name, producers.get? take.name = some name →
      s.flow.Needs target name)
    (h : takes.foldlM (fun p take => s.meet planner (unmet take) take.isRequired p take.name) p =
      .ok after) :
    s.Stands producers target visiting after ∧ p.Grows after ∧
      ∀ take ∈ takes, after.Closed producers take.name ∧
        (take.isRequired = true → after.paths.contains take.name = true) := by
  induction takes generalizing p with
  | nil =>
    cases h
    exact ⟨hp, .refl _, by simp⟩
  | cons take rest ih =>
    rw [List.foldlM_cons] at h
    obtain ⟨next, hnext, h⟩ := bind_eq_ok.mp h
    obtain ⟨hnext, hgrows, hclosed, hrequired⟩ :=
      hp.meet (fun name => plan p name next hp) (needed take List.mem_cons_self) hnext
    obtain ⟨hafter, hgrown, hrest⟩ :=
      ih hnext (fun take htake => needed take (List.mem_cons_of_mem _ htake)) h
    exact ⟨hafter, hgrows.trans hgrown, List.forall_mem_cons.mpr
      ⟨⟨hclosed.mono hgrown, fun h => hgrown.paths _ (hrequired h)⟩, hrest⟩⟩

/-- Distinct stages of a flow are no more than the flow has. -/
theorem length_visiting_le {f : Flow} (nodup : visiting.Nodup)
    (known : ∀ v ∈ visiting, v ∈ f.stages.keys) : visiting.length ≤ f.stages.size := by
  have hsub := (List.subperm_of_subset nodup known).length_le
  simpa [Table.keys, Table.size] using hsub

/-- Distinct stages of the flow wait, and the fuel is enough for all the others. -/
structure Room (f : Flow) (fuel : Nat) (visiting : List String) : Prop where
  room : f.stages.size < fuel + visiting.length
  nodup : visiting.Nodup
  known : ∀ v ∈ visiting, v ∈ f.stages.keys

theorem room_start (f : Flow) : Room f (f.stages.size + 1) [] :=
  ⟨Nat.lt_succ_self _, List.nodup_nil, by simp⟩

theorem Room.fuel_ne_zero {f : Flow} {fuel : Nat} (h : Room f fuel visiting) : fuel ≠ 0 := by
  have hlength := length_visiting_le h.nodup h.known
  have hroom := h.room
  omega

/-- There is room for one more stage of the flow to wait. -/
theorem Room.next {f : Flow} {fuel : Nat} {name : String} (h : Room f (fuel + 1) visiting)
    (hvisiting : name ∉ visiting) {stage : Stage} (hknown : f.stages.get? name = some stage) :
    Room f fuel (visiting ++ [name]) where
  room := by
    have hroom := h.room
    simp only [List.length_append, List.length_singleton]
    omega
  nodup := by
    rw [List.nodup_append_comm]
    exact List.nodup_cons.mpr ⟨hvisiting, h.nodup⟩
  known := List.forall_mem_append.mpr ⟨h.known, List.forall_mem_singleton.mpr
    (List.mem_map.mpr ⟨_, Table.mem_of_get? hknown, rfl⟩)⟩

/-- A stage that is not planned may wait for others. -/
theorem Stands.wait (hp : s.Stands producers target visiting p) {name : String}
    (hplanned : p.planned.contains name = false) :
    s.Stands producers target (visiting ++ [name]) p :=
  ⟨hp.sound, List.forall_mem_append.mpr ⟨hp.unplanned, List.forall_mem_singleton.mpr hplanned⟩⟩

/-- Planning a stage that is needed plans it, after the producers of its takes. The stages that wait
are distinct, so the fuel lasts. -/
theorem Stands.planStage (named : s.flow.Named) (hproducers : s.flow.producers = .ok producers)
    {fuel : Nat} {name : String} (room : Room s.flow fuel visiting)
    (hp : s.Stands producers target visiting p) (needed : s.flow.Needs target name)
    (h : s.planStage fuel visiting p name = .ok after) :
    s.Stands producers target visiting after ∧ p.Grows after ∧
      after.planned.contains name = true := by
  induction fuel generalizing visiting p after name with
  | zero => exact absurd rfl room.fuel_ne_zero
  | succ fuel ih =>
    rcases planStage_cases named h with
      ⟨hplanned, rfl⟩ | ⟨hplanned, hvisiting, stage, met, rfl, hknown, hmet, hadd⟩
    · exact ⟨hp, .refl _, hplanned⟩
    · obtain ⟨hmet, hgrows, htakes⟩ := (hp.wait hplanned).meetAll
        (fun p name after hp needed => ih (room.next hvisiting hknown) hp needed)
        (fun take htake other hother => .take needed hknown htake
          ((Flow.get?_producers hproducers ..).mp hother)) hmet
      obtain ⟨hunplanned, hself⟩ := List.forall_mem_append.mp hmet.unplanned
      obtain ⟨step, adds⟩ := addStep_adds hproducers hknown hadd
      have hsound := adds.sound hmet.sound hknown (hself _ (List.mem_singleton_self _)) needed
        htakes
      refine ⟨⟨hsound, fun v hv => ?_⟩, hgrows.trans adds.grows,
        (adds.planned _).mpr (Or.inl rfl)⟩
      have hne : v ≠ stage.name := fun heq => hvisiting (heq ▸ hv)
      rw [Bool.eq_false_iff, ne_eq, adds.planned, not_or]
      exact ⟨hne, by simpa using hunplanned v hv⟩

end PlanSources

section
variable {f : Flow} {target : String} {cache : Option Fingerprints} {disk : Disk} {plan : Plan}

/-- Where planning for a target ends. -/
theorem plan_sound (named : f.Named) (h : f.plan target cache disk = .ok plan) :
    ∃ producers, ∃ p : Planning, f.producers = .ok producers ∧ plan.steps = p.steps ∧
      plan.paths = p.paths ∧ p.Sound f producers target ∧ p.Closed producers target ∧
        p.paths.contains target = true := by
  unfold Flow.plan at h
  obtain ⟨producers, hproducers, hrest⟩ := bind_eq_ok.mp h
  obtain ⟨p, hp, hplan⟩ := bind_eq_ok.mp hrest
  cases hplan
  have hstart : (f.planSources producers target cache disk).Stands producers target []
      (.start producers) := ⟨Planning.sound_start, by simp⟩
  obtain ⟨hstands, -, hclosed, hbound⟩ := hstart.meet
    (fun name needed => PlanSources.Stands.planStage named hproducers (PlanSources.room_start f)
      hstart needed)
    (fun name hname => .target ((Flow.get?_producers hproducers ..).mp hname)) hp
  exact ⟨producers, p, hproducers, rfl, rfl, hstands.sound, hclosed, hbound rfl⟩

/-- A plan holds exactly the stages that its target needs. -/
theorem plan_needed_iff (named : f.Named) (h : f.plan target cache disk = .ok plan)
    (name : String) : name ∈ plan.steps.map PlanStep.stage ↔ f.Needs target name := by
  obtain ⟨producers, p, hproducers, hsteps, -, sound, hclosed, -⟩ := plan_sound named h
  rw [hsteps, List.mem_map, ← sound.planned]
  constructor
  · intro hplanned
    obtain ⟨step, hstep, rfl⟩ := (sound.planned name).mp hplanned
    exact sound.needed step hstep
  · intro hneeds
    induction hneeds with
    | target made => exact hclosed _ ((Flow.get?_producers hproducers ..).mpr made)
    | take needed known taken made ih =>
      obtain ⟨step, hstep, rfl⟩ := (sound.planned _).mp ih
      obtain ⟨before, after, order⟩ := List.append_of_mem hstep
      obtain ⟨stage, hstage, hfits⟩ := sound.fits before step after order
      cases known.symm.trans hstage
      exact hfits.closed _ taken _ ((Flow.get?_producers hproducers ..).mpr made)

/-- A plan holds each stage that its target needs, once, and no other. A step stands behind the
steps whose outputs it takes; its required takes are bound, and so is the target. -/
theorem plan_complete (named : f.Named) (h : f.plan target cache disk = .ok plan) :
    (plan.steps.map PlanStep.stage).Nodup ∧
      (∀ name, name ∈ plan.steps.map PlanStep.stage ↔ f.Needs target name) ∧
      (∀ before step after, plan.steps = before ++ step :: after →
        ∃ stage, f.stages.get? step.stage = some stage ∧ ∀ take ∈ stage.io.takes,
          (take.isRequired = true → ∃ v, step.inputs.takes.get? take.name = some v) ∧
          ∀ v, step.inputs.takes.get? take.name = some v →
            f.Feeds before plan.steps take.name v) ∧
      ∃ v, plan.paths.get? target = some v := by
  obtain ⟨producers, p, -, hsteps, hpaths, sound, -, hbound⟩ := plan_sound named h
  refine ⟨plan_distinct named h, plan_needed_iff named h, fun before step after order => ?_, ?_⟩
  · rw [hsteps] at order ⊢
    obtain ⟨stage, hstage, hfits⟩ := sound.fits before step after order
    exact ⟨stage, hstage, fun take htake => ⟨hfits.required take htake, hfits.fed take htake⟩⟩
  · rw [hpaths]
    exact Table.contains_eq_true_iff.mp hbound

end

/-- Both copies of the relay are needed for what the second one writes. -/
theorem relay_plan_complete :
    ∃ plan, Relay.flow.Named ∧ Relay.flow.plan "out" none Relay.disk = .ok plan ∧
      plan.steps.map PlanStep.stage = ["first", "second"] ∧
      (∀ name, name ∈ plan.steps.map PlanStep.stage ↔ Relay.flow.Needs "out" name) ∧
      ∃ v, plan.paths.get? "out" = some v := by
  have hplan : okAnd (Relay.flow.plan "out" none Relay.disk) (fun plan =>
      plan.steps.map PlanStep.stage = ["first", "second"]) = true := by
    decide +kernel
  obtain ⟨plan, hplan, hstages⟩ := exists_of_okAnd hplan
  obtain ⟨-, hneeds, -, hbound⟩ := plan_complete Relay.flow_named hplan
  exact ⟨plan, Relay.flow_named, hplan, of_decide_eq_true hstages, hneeds, hbound⟩

end Toolflow
