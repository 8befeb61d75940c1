import Toolflow.Proofs.Freshness

/-! The ways a step can go.

A step whose stage or context cannot be had changes nothing. Otherwise it is skipped, or its module
runs and fails, or leaves out a product, or does all of its work; the two failures drop every record
of the stage. `StepRun` lists these endings with the session each of them leaves. -/
namespace Toolflow

namespace PlanStep

/-- The paths of a product, as planned. -/
def pathsOf (step : PlanStep) (product : Declared) : List String :=
  ((step.outputs.get? product.name).map (·.strings)).getD []

/-- The products a stage declares, each with its paths. -/
def products (step : PlanStep) (produces : List Declared) : List (Declared × String) :=
  produces.flatMap fun d => (step.pathsOf d).map (d, ·)

def productPaths (step : PlanStep) (produces : List Declared) : List String :=
  (step.products produces).map (·.2)

theorem mem_pathsOf {step : PlanStep} {product : Declared} {path : String} :
    path ∈ step.pathsOf product ↔
      ∃ v, step.outputs.get? product.name = some v ∧ path ∈ v.strings := by
  unfold pathsOf
  cases step.outputs.get? product.name <;> simp

theorem mem_products {step : PlanStep} {produces : List Declared} {product : Declared}
    {path : String} :
    (product, path) ∈ step.products produces ↔
      product ∈ produces ∧ path ∈ step.pathsOf product := by
  unfold products
  rw [List.mem_flatMap]
  constructor
  · rintro ⟨d, hd, hpath⟩
    obtain ⟨p, hp, heq⟩ := List.mem_map.mp hpath
    cases heq
    exact ⟨hd, hp⟩
  · rintro ⟨hd, hpath⟩
    exact ⟨product, hd, List.mem_map.mpr ⟨path, hpath, rfl⟩⟩

theorem mem_productPaths {step : PlanStep} {produces : List Declared} {path : String} :
    path ∈ step.productPaths produces ↔ ∃ d ∈ produces, path ∈ step.pathsOf d := by
  unfold productPaths
  rw [List.mem_map]
  constructor
  · rintro ⟨⟨d, p⟩, hmem, rfl⟩
    obtain ⟨hd, hp⟩ := mem_products.mp hmem
    exact ⟨d, hd, hp⟩
  · rintro ⟨d, hd, hp⟩
    exact ⟨(d, path), mem_products.mpr ⟨hd, hp⟩, rfl⟩

theorem mem_mandatoryPaths_iff {step : PlanStep} {produces : List Declared} {path : String} :
    path ∈ step.mandatoryPaths produces ↔
      ∃ d, (d, path) ∈ step.products produces ∧ d.strictness ≠ .optional := by
  rw [mem_mandatoryPaths]
  constructor
  · rintro ⟨d, hd, hstrict, hpath⟩
    exact ⟨d, mem_products.mpr ⟨hd, mem_pathsOf.mpr hpath⟩, hstrict⟩
  · rintro ⟨d, hmem, hstrict⟩
    obtain ⟨hd, hpath⟩ := mem_products.mp hmem
    exact ⟨d, hd, hstrict, mem_pathsOf.mp hpath⟩

end PlanStep

/-- The stage of a step and the context it is given on a disk. -/
structure Reached (flow : Flow) (step : PlanStep) (disk : Disk) (stage : Stage) (ctx : Context) :
    Prop where
  known : flow.stages.get? step.stage = some stage
  built : Context.build stage.module step.stage step.inputs step.env flow.roots disk = .ok ctx

theorem Reached.unique {flow : Flow} {step : PlanStep} {disk : Disk} {stage other : Stage}
    {ctx octx : Context} (h : Reached flow step disk stage ctx)
    (ho : Reached flow step disk other octx) : other = stage ∧ octx = ctx := by
  have hstage : other = stage := Option.some.inj (ho.known.symm.trans h.known)
  subst hstage
  exact ⟨rfl, Except.ok.inj (ho.built.symm.trans h.built)⟩

namespace Build
open Fingerprints
variable {α β : Type}

/-- The state a computation ends with. -/
def last {σ α : Type} : EStateM.Result Failure σ α → σ
  | .ok _ after => after
  | .error _ after => after

/-- Whether a computation succeeds with a result and a state that pass a test. -/
def doneAnd {σ α : Type} (x : EStateM.Result Failure σ α) (p : α → σ → Bool) : Bool :=
  match x with
  | .ok a after => p a after
  | .error .. => false

theorem exists_of_doneAnd {σ α : Type} {x : EStateM.Result Failure σ α} {p : α → σ → Bool}
    (h : doneAnd x p = true) : ∃ a after, x = .ok a after ∧ p a after = true := by
  cases x with
  | error cause after => cases h
  | ok a after => exact ⟨a, after, rfl, h⟩

/-- Whether a computation fails with a cause and a state that pass a test. -/
def failedAnd {σ α : Type} (x : EStateM.Result Failure σ α) (p : Failure → σ → Bool) : Bool :=
  match x with
  | .ok .. => false
  | .error cause after => p cause after

theorem exists_of_failedAnd {σ α : Type} {x : EStateM.Result Failure σ α}
    {p : Failure → σ → Bool} (h : failedAnd x p = true) :
    ∃ cause after, x = .error cause after ∧ p cause after = true := by
  cases x with
  | error cause after => exact ⟨cause, after, rfl, h⟩
  | ok a after => cases h

theorem say_run (r : Reporter) (level : Int) (message : String) (host : Host)
    (session : Session) :
    say r level message host session =
      .ok () ⟨{ session.bench with printed := session.bench.printed ++ r.line level message },
        session.cache⟩ := rfl

theorem failingStage_run (stage : String) (cause : Failure) (host : Host) (session : Session) :
    (failingStage stage cause : Build α) host session =
      .error (.stage stage .exec cause) session := rfl

theorem ofExcept_ok_run (a : α) (host : Host) (session : Session) :
    (ofExcept (.ok a) : Build α) host session = .ok a session := rfl

theorem record_run_option (path consumer : String) (host : Host) (bench : Bench)
    (cache : Option Fingerprints) :
    ∃ changed, record path consumer host ⟨bench, cache⟩ =
      .ok changed ⟨bench, cache.map (·.note bench.disk consumer path)⟩ := by
  cases cache with
  | none => exact ⟨true, rfl⟩
  | some c => exact ⟨_, record_run path consumer⟩

theorem forM_cons_run (f : α → Build Unit) (a : α) (l : List α) (host : Host)
    (session : Session) :
    (a :: l).forM f host session = (f a >>= fun _ => l.forM f) host session := rfl

/-- A loop whose body always goes on is a run through the list. -/
theorem forIn_run {body : α → PUnit → Build (ForInStep PUnit)} {f : α → Build Unit}
    (each : ∀ a r, body a r = f a >>= fun _ => pure (.yield ⟨⟩)) (l : List α) (host : Host)
    (session : Session) :
    (forIn l ⟨⟩ body >>= fun _ => pure ()) host session = l.forM f host session := by
  induction l generalizing session with
  | nil => rfl
  | cons a rest ih =>
    rw [List.forIn_cons, each, forM_cons_run]
    simp only [bind_run] at ih ⊢
    cases f a host session with
    | error cause after => rfl
    | ok done after => exact ih after

/-- The check of one path of a product. -/
def checkPath (step : PlanStep) (product : Declared) (path : String) : Build Unit := do
  if (← disk).exists? path then
    let _ ← record path step.stage
  else if product.strictness ≠ .optional then
    forget step.stage
    failingStage step.stage (.fault (.productMissing product.name path))

theorem checkProduct_run (step : PlanStep) (product : Declared) (host : Host)
    (session : Session) :
    checkProduct step product host session =
      (step.pathsOf product).forM (checkPath step product) host session := by
  refine forIn_run (fun path r => ?_) (step.pathsOf product) host session
  funext host session
  unfold checkPath
  simp only [bind_run, disk_run]
  by_cases hex : session.bench.disk.exists? path = true
  · simp only [if_pos hex, bind_run]
    cases record path step.stage host session <;> rfl
  · by_cases hstrict : product.strictness = .optional
    · simp only [if_neg hex, if_neg (not_not.mpr hstrict), pure_run]
    · simp only [if_neg hex, if_pos hstrict, ne_eq, bind_run]
      cases forget step.stage host session <;> rfl

theorem checkPath_cases (step : PlanStep) (product : Declared) (path : String) (host : Host)
    (bench : Bench) (cache : Option Fingerprints) :
    (checkPath step product path host ⟨bench, cache⟩ =
        .ok () ⟨bench, cache.map (noteThere bench.disk step.stage · [path])⟩ ∧
      (product.strictness ≠ .optional → bench.disk.exists? path = true)) ∨
    (product.strictness ≠ .optional ∧ bench.disk.exists? path = false ∧
      checkPath step product path host ⟨bench, cache⟩ =
        .error (.stage step.stage .exec (.fault (.productMissing product.name path)))
          ⟨bench, cache.map (·.forget step.stage)⟩) := by
  unfold checkPath
  rw [bind_run, disk_run]
  by_cases hex : bench.disk.exists? path = true
  · obtain ⟨changed, hrecord⟩ := record_run_option path step.stage host bench cache
    refine Or.inl ⟨?_, fun _ => hex⟩
    simp only [hex, if_true, bind_run, hrecord, pure_run, noteThere, List.foldl_cons,
      List.foldl_nil]
  · by_cases hstrict : product.strictness = .optional
    · refine Or.inl ⟨?_, fun hne => absurd hstrict hne⟩
      simp only [hex, hstrict, noteThere, List.foldl_cons, List.foldl_nil]
      cases cache <;> rfl
    · refine Or.inr ⟨hstrict, by simpa using hex, ?_⟩
      simp only [hex, ne_eq, hstrict, not_false_eq_true, if_true]
      rfl

theorem forM_append_run (f : α → Build Unit) (l m : List α) (host : Host) (session : Session) :
    (l ++ m).forM f host session = (l.forM f >>= fun _ => m.forM f) host session := by
  induction l generalizing session with
  | nil => rfl
  | cons a rest ih =>
    rw [List.cons_append, forM_cons_run, bind_run, bind_run, forM_cons_run, bind_run]
    cases f a host session with
    | error cause after => rfl
    | ok done after => exact (ih after).trans (bind_run ..)

theorem checkProducts_run (step : PlanStep) (produces : List Declared) (host : Host)
    (session : Session) :
    produces.forM (checkProduct step) host session =
      (step.products produces).forM (fun e => checkPath step e.1 e.2) host session := by
  induction produces generalizing session with
  | nil => rfl
  | cons d rest ih =>
    have hpaths : ∀ (paths : List String) session,
        (paths.map (d, ·)).forM (fun e => checkPath step e.1 e.2) host session =
          paths.forM (checkPath step d) host session := by
      intro paths
      induction paths with
      | nil => intro session; rfl
      | cons path later ihp =>
        intro session
        rw [List.map_cons, forM_cons_run, forM_cons_run, bind_run, bind_run]
        simp only [ihp]
    unfold PlanStep.products at ih ⊢
    rw [forM_cons_run, List.flatMap_cons, forM_append_run, bind_run, bind_run, hpaths,
      checkProduct_run]
    simp only [ih]

/-- After a run the products are recorded as far as they are there. The first one that has to be
there and is not fails the stage, and no record of the stage is left. -/
theorem checkProducts_cases (step : PlanStep) (host : Host) (bench : Bench)
    (products : List (Declared × String)) (cache : Option Fingerprints) :
    (products.forM (fun e => checkPath step e.1 e.2) host ⟨bench, cache⟩ =
        .ok () ⟨bench, cache.map (noteThere bench.disk step.stage · (products.map (·.2)))⟩ ∧
      ∀ e ∈ products, e.1.strictness ≠ .optional → bench.disk.exists? e.2 = true) ∨
    ∃ e noted, e ∈ products ∧ e.1.strictness ≠ .optional ∧ bench.disk.exists? e.2 = false ∧
      products.forM (fun e => checkPath step e.1 e.2) host ⟨bench, cache⟩ =
        .error (.stage step.stage .exec (.fault (.productMissing e.1.name e.2)))
          ⟨bench, (cache.map (noteThere bench.disk step.stage · noted)).map
            (·.forget step.stage)⟩ := by
  induction products generalizing cache with
  | nil =>
    refine Or.inl ⟨?_, by simp⟩
    cases cache <;> rfl
  | cons e rest ih =>
    rw [forM_cons_run, bind_run]
    rcases checkPath_cases step e.1 e.2 host bench cache with
      ⟨hok, hthere⟩ | ⟨hstrict, hgone, herror⟩
    · have hnoted : ∀ l, (cache.map (noteThere bench.disk step.stage · [e.2])).map
          (noteThere bench.disk step.stage · l) =
            cache.map (noteThere bench.disk step.stage · (e.2 :: l)) := by
        intro l
        cases cache <;> rfl
      rw [hok]
      dsimp only
      rcases ih (cache.map (noteThere bench.disk step.stage · [e.2])) with
        ⟨hrest, hall⟩ | ⟨missing, noted, hmem, hstrict, hgone, herror⟩
      · refine Or.inl ⟨?_, List.forall_mem_cons.mpr ⟨hthere, hall⟩⟩
        rw [hrest, hnoted, List.map_cons]
      · refine Or.inr ⟨missing, e.2 :: noted, List.mem_cons_of_mem _ hmem, hstrict, hgone, ?_⟩
        rw [herror, hnoted]
    · refine Or.inr ⟨e, [], List.mem_cons_self, hstrict, hgone, ?_⟩
      rw [herror]
      cases cache <;> rfl

end Build

/-- A module at work: it starts on a disk with its phases counted from zero and ends on another. -/
def Stage.Ran (stage : Stage) (r : Reporter) (ctx : Context) (host : Host) (disk : Disk)
    (result : EStateM.Result Failure Bench Unit) : Prop :=
  ∃ bench : Bench, bench.disk = disk ∧ bench.phases = 0 ∧
    stage.module.execute ctx ⟨r, stage.io.phases⟩ host bench = result

/-- The endings of a step, each with what it answers and the session it leaves. -/
inductive StepRun (flow : Flow) (r : Reporter) (report : BuildReport) (step : PlanStep)
    (host : Host) (session : Session) : EStateM.Result Failure Session BuildReport → Prop
  | unbuilt (cause : Failure)
      (unreached : ∀ stage ctx, ¬ Reached flow step session.bench.disk stage ctx) :
      StepRun flow r report step host session (.error cause session)
  | skipped (stage : Stage) (ctx : Context) (bench : Bench)
      (reached : Reached flow step session.bench.disk stage ctx)
      (fresh : (step.examine ctx stage.io.produces session.bench.disk session.cache).1 = false)
      (kept : bench.disk = session.bench.disk) :
      StepRun flow r report step host session
        (.ok { report with skipped := report.skipped ++ [step.stage] }
          ⟨bench, (step.examine ctx stage.io.produces session.bench.disk session.cache).2⟩)
  | failed (stage : Stage) (ctx : Context) (bench : Bench) (cause : Failure)
      (reached : Reached flow step session.bench.disk stage ctx)
      (stale : (step.examine ctx stage.io.produces session.bench.disk session.cache).1 = true)
      (ran : stage.Ran r ctx host session.bench.disk (.error cause bench)) :
      StepRun flow r report step host session
        (.error (.stage stage.name .exec cause)
          ⟨bench, (step.examine ctx stage.io.produces session.bench.disk session.cache).2.map
            (·.forget stage.name)⟩)
  | incomplete (stage : Stage) (ctx : Context) (bench : Bench) (product : Declared)
      (path : String) (noted : List String)
      (reached : Reached flow step session.bench.disk stage ctx)
      (stale : (step.examine ctx stage.io.produces session.bench.disk session.cache).1 = true)
      (ran : stage.Ran r ctx host session.bench.disk (.ok () bench))
      (planned : (product, path) ∈ step.products stage.io.produces)
      (strict : product.strictness ≠ .optional)
      (gone : bench.disk.exists? path = false) :
      StepRun flow r report step host session
        (.error (.stage step.stage .exec (.fault (.productMissing product.name path)))
          ⟨bench, ((step.examine ctx stage.io.produces session.bench.disk session.cache).2.map
            (Fingerprints.noteThere bench.disk step.stage · noted)).map (·.forget step.stage)⟩)
  | succeeded (stage : Stage) (ctx : Context) (bench after : Bench)
      (reached : Reached flow step session.bench.disk stage ctx)
      (stale : (step.examine ctx stage.io.produces session.bench.disk session.cache).1 = true)
      (ran : stage.Ran r ctx host session.bench.disk (.ok () bench))
      (complete : ∀ path ∈ step.mandatoryPaths stage.io.produces, bench.disk.exists? path = true)
      (kept : after.disk = bench.disk) :
      StepRun flow r report step host session
        (.ok { report with executed := report.executed ++ [step.stage] }
          ⟨after, (step.examine ctx stage.io.produces session.bench.disk session.cache).2.map
            (Fingerprints.noteThere bench.disk step.stage ·
              (step.productPaths stage.io.produces))⟩)

namespace Build
open Fingerprints

theorem execute_cases (r : Reporter) (stage : Stage) (ctx : Context) (host : Host)
    (session : Session) :
    (∃ bench, stage.Ran r ctx host session.bench.disk (.ok () bench) ∧
      execute r stage ctx host session = .ok () ⟨bench, session.cache⟩) ∨
    ∃ bench cause, stage.Ran r ctx host session.bench.disk (.error cause bench) ∧
      execute r stage ctx host session =
        .error (.stage stage.name .exec cause)
          ⟨bench, session.cache.map (·.forget stage.name)⟩ := by
  cases hrun : stage.module.execute ctx ⟨r, stage.io.phases⟩ host
      { session.bench with phases := 0 } with
  | ok done bench =>
    exact Or.inl ⟨bench, ⟨{ session.bench with phases := 0 }, rfl, rfl, hrun⟩,
      by simp only [execute, hrun]⟩
  | error cause bench =>
    refine Or.inr ⟨bench, cause, ⟨{ session.bench with phases := 0 }, rfl, rfl, hrun⟩, ?_⟩
    simp only [execute, hrun]
    rfl

/-- Every step goes in one of the listed ways. -/
theorem runStep_cases (flow : Flow) (r : Reporter) (report : BuildReport) (step : PlanStep)
    (host : Host) (session : Session) :
    StepRun flow r report step host session (runStep flow r report step host session) := by
  unfold runStep
  rw [bind_run]
  cases hstage : flow.stages.get? step.stage with
  | none =>
    have hunknown : flow.stage step.stage =
        .error (.fault (.unknownStage step.stage flow.platform)) := by
      simp only [Flow.stage, hstage, refuse]
    rw [hunknown]
    refine .unbuilt _ fun stage ctx reached => ?_
    cases hstage.symm.trans reached.known
  | some stage =>
    have hknown : flow.stage step.stage = .ok stage := by simp only [Flow.stage, hstage]
    rw [hknown, ofExcept_ok_run]
    dsimp only
    rw [bind_run, disk_run]
    dsimp only
    cases hctx : Context.build stage.module step.stage step.inputs step.env flow.roots
        session.bench.disk with
    | error cause =>
      dsimp only
      rw [bind_run, failingStage_run]
      refine .unbuilt _ fun other ctx reached => ?_
      have hsame : other = stage := Option.some.inj (reached.known.symm.trans hstage)
      have hbuilt := reached.built
      rw [hsame, hctx] at hbuilt
      cases hbuilt
    | ok ctx =>
      have reached : Reached flow step session.bench.disk stage ctx := ⟨hstage, hctx⟩
      dsimp only
      rw [bind_run, pure_run]
      dsimp only
      rw [bind_run, isStale_run]
      dsimp only
      by_cases hstale :
          (step.examine ctx stage.io.produces session.bench.disk session.cache).1 = true
      · rw [if_pos hstale, bind_run, say_run]
        dsimp only
        rw [bind_run]
        rcases execute_cases r stage ctx host
            ⟨{ session.bench with
              printed := session.bench.printed ++
                r.line 1 s!"Executing stage `{step.stage}`:" },
              (step.examine ctx stage.io.produces session.bench.disk session.cache).2⟩ with
          ⟨bench, ran, hrun⟩ | ⟨bench, cause, ran, hrun⟩
        · rw [hrun]
          dsimp only
          rw [bind_run, checkProducts_run]
          rcases checkProducts_cases step host bench (step.products stage.io.produces)
              (step.examine ctx stage.io.produces session.bench.disk session.cache).2 with
            ⟨hok, hthere⟩ | ⟨⟨product, path⟩, noted, hmem, hstrict, hgone, herror⟩
          · rw [hok]
            refine .succeeded stage ctx bench _ reached hstale ran (fun path hpath => ?_) rfl
            obtain ⟨d, hd, hstrict⟩ := PlanStep.mem_mandatoryPaths_iff.mp hpath
            exact hthere _ hd hstrict
          · rw [herror]
            exact .incomplete stage ctx bench product path noted reached hstale ran hmem hstrict
              hgone
        · rw [hrun]
          exact .failed stage ctx bench cause reached hstale ran
      · rw [if_neg hstale, bind_run, say_run]
        exact .skipped stage ctx _ reached (by simpa using hstale) rfl

theorem foldlM_cons_run (f : β → α → Build β) (b : β) (a : α) (l : List α) (host : Host)
    (session : Session) :
    (a :: l).foldlM f b host session =
      match f b a host session with
      | .ok next after => l.foldlM f next host after
      | .error cause after => .error cause after := by
  rw [List.foldlM_cons]
  refine (bind_run (f b a) (fun next => l.foldlM f next) host session).trans ?_
  cases f b a host session <;> rfl

theorem foldlM_append_run {f : β → α → Build β} {b next : β} {l : List α} {host : Host}
    {session after : Session} (h : l.foldlM f b host session = .ok next after) (m : List α) :
    (l ++ m).foldlM f b host session = m.foldlM f next host after := by
  rw [List.foldlM_append, bind_run, h]

theorem foldlM_snoc_run {f : β → α → Build β} {b next : β} {l : List α} {host : Host}
    {session after : Session} (h : l.foldlM f b host session = .ok next after) (a : α) :
    (l ++ [a]).foldlM f b host session = f next a host after := by
  rw [foldlM_append_run h, foldlM_cons_run]
  cases f next a host after <;> rfl

theorem recordProducts_run (paths : List String) (host : Host) (session : Session) :
    (paths.forM (fun path => do let _ ← recordProduct path) : Build Unit) host session =
      .ok () ⟨session.bench,
        session.cache.map (noteThere session.bench.disk targetConsumer · paths)⟩ := by
  obtain ⟨bench, cache⟩ := session
  induction paths generalizing cache with
  | nil => cases cache <;> rfl
  | cons path rest ih =>
    rw [forM_cons_run, bind_run]
    cases cache with
    | none =>
      rw [bind_run, recordProduct_run_none]
      exact ih none
    | some c =>
      rw [bind_run, recordProduct_run]
      exact ih (some (noteThere bench.disk targetConsumer c [path]))

/-- A build runs its steps and then records the files of the target. -/
theorem runPlan_cases (flow : Flow) (plan : Plan) (r : Reporter) (host : Host)
    (session : Session) :
    (∃ cause after, plan.steps.foldlM (runStep flow r) {} host session = .error cause after ∧
      runPlan flow plan r host session = .error cause after) ∨
    (∃ report after, plan.steps.foldlM (runStep flow r) {} host session = .ok report after ∧
      plan.targetPath? = none ∧
      runPlan flow plan r host session = .error (.fault (.targetUnresolved plan.target)) after) ∨
    ∃ report after v bench, plan.steps.foldlM (runStep flow r) {} host session = .ok report after ∧
      plan.targetPath? = some v ∧ bench.disk = after.bench.disk ∧
      runPlan flow plan r host session = .ok report
        ⟨bench, after.cache.map (noteThere after.bench.disk targetConsumer · v.strings)⟩ := by
  unfold runPlan
  rw [bind_run]
  cases hfold : plan.steps.foldlM (runStep flow r) {} host session with
  | error cause after => exact Or.inl ⟨cause, after, rfl, rfl⟩
  | ok report after =>
    dsimp only
    cases htarget : plan.targetPath? with
    | none => exact Or.inr (Or.inl ⟨report, after, rfl, rfl, rfl⟩)
    | some v =>
      refine Or.inr (Or.inr ⟨report, after, v, { after.bench with
        printed := after.bench.printed ++ r.line 0 s!"Target `{plan.target}` -> {v.text}" },
        rfl, rfl, rfl, ?_⟩)
      dsimp only
      rw [bind_run, recordProducts_run]
      rfl

end Build

/-- A step that comes to its end is skipped, which leaves the disk alone, or it is executed. -/
theorem runStep_ok {flow : Flow} {r : Reporter} {report next : BuildReport} {step : PlanStep}
    {host : Host} {session after : Session}
    (run : Build.runStep flow r report step host session = .ok next after) :
    ∃ stage ctx, Reached flow step session.bench.disk stage ctx ∧
      ((step.examine ctx stage.io.produces session.bench.disk session.cache).1 = false ∧
        after.bench.disk = session.bench.disk ∧ next.executed = report.executed ∨
      (step.examine ctx stage.io.produces session.bench.disk session.cache).1 = true ∧
        next.executed = report.executed ++ [step.stage]) := by
  have hcases := Build.runStep_cases flow r report step host session
  rw [run] at hcases
  cases hcases with
  | skipped stage ctx ended reached fresh kept =>
    exact ⟨stage, ctx, reached, Or.inl ⟨fresh, kept, rfl⟩⟩
  | succeeded stage ctx ran ended reached stale hran complete kept =>
    exact ⟨stage, ctx, reached, Or.inr ⟨stale, rfl⟩⟩

/-- A step that comes to its end leaves the records of other consumers alone, but for those that it
renews to what stands at their paths. -/
theorem runStep_others {flow : Flow} {r : Reporter} {report next : BuildReport} {step : PlanStep}
    {host : Host} {bench : Bench} {c : Fingerprints} {after : Session}
    (run : Build.runStep flow r report step host ⟨bench, some c⟩ = .ok next after) :
    ∃ records, after.cache = some records ∧ (c.Orderly → records.Orderly) ∧
      ∀ path consumer, consumer ≠ step.stage →
        records.record? path consumer = c.record? path consumer ∨
          bench.disk.exists? path = true ∧
            records.record? path consumer = (bench.disk.contentAt path).print? := by
  have hcases := Build.runStep_cases flow r report step host ⟨bench, some c⟩
  rw [run] at hcases
  cases hcases with
  | skipped stage ctx ended reached fresh kept =>
    obtain ⟨records, hcache, horderly, hrecords⟩ :=
      PlanStep.record?_examine step ctx stage.io.produces bench.disk c
    refine ⟨records, hcache, horderly, fun path consumer hne => ?_⟩
    rw [hrecords]
    split
    · rename_i hnoted
      exact Or.inr ⟨hnoted.2.2, rfl⟩
    · exact Or.inl (if_neg fun hown => hne hown.1)
  | succeeded stage ctx ran ended reached stale hran complete kept =>
    obtain ⟨records, hcache, horderly, hrecords⟩ :=
      PlanStep.record?_examine step ctx stage.io.produces bench.disk c
    refine ⟨_, by rw [hcache, Option.map_some], fun h =>
      Fingerprints.orderly_noteThere (horderly h) _ _ _, fun path consumer hne => ?_⟩
    rw [Fingerprints.record?_noteThere, if_neg fun hown => hne hown.1, hrecords]
    split
    · rename_i hnoted
      exact Or.inr ⟨hnoted.2.2, rfl⟩
    · exact Or.inl (if_neg fun hown => hne hown.1)

/-- It loses none of them. -/
theorem runStep_tracks {flow : Flow} {r : Reporter} {report next : BuildReport} {step : PlanStep}
    {host : Host} {bench : Bench} {c : Fingerprints} {after : Session}
    (run : Build.runStep flow r report step host ⟨bench, some c⟩ = .ok next after)
    {records : Fingerprints} (cache : after.cache = some records) {consumer : String}
    (other : consumer ≠ step.stage) (path : String)
    (tracked : (c.record? path consumer).isSome = true) :
    (records.record? path consumer).isSome = true := by
  obtain ⟨found, hfound, -, hrecords⟩ := runStep_others run
  cases cache.symm.trans hfound
  rcases hrecords path consumer other with hsame | ⟨hthere, hrenewed⟩
  · rwa [hsame]
  · rw [hrenewed]
    exact Disk.print?_isSome hthere

/-- The stages of a flow are listed under their own names. -/
def Flow.Named (flow : Flow) : Prop :=
  ∀ name stage, flow.stages.get? name = some stage → stage.name = name

theorem Flow.named_of_all {flow : Flow}
    (h : (flow.stages.entries.all fun e => e.2.name == e.1) = true) : flow.Named := by
  intro name stage hstage
  simpa using List.all_eq_true.mp h _ (Table.mem_of_get? hstage)

end Toolflow
