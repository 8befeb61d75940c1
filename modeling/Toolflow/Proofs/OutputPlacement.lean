import Toolflow.Modules.Directories
import Toolflow.Modules.Synthesis
import Toolflow.Proofs.Copying
import Toolflow.Proofs.Planning
import Toolflow.Proofs.Values

/-! Where the outputs of a step go when it is planned and when it runs.

The context of a step is built twice, on the disk of the plan and on the one that earlier steps have
left. Modules place their outputs by the takes that are bound, so both contexts agree on outputs for
every module exactly if the same optional takes have their files. An earlier step that makes such a
file is all it takes to tell them apart. -/
namespace Toolflow

/-- Optional takes have their files on both disks or on neither. -/
def SameFinds (io : Interface) (step : PlanStep) (disk other : Disk) : Prop :=
  ∀ take d planned, io.take? take = some d → d.isRequired = false →
    step.inputs.takes.get? take = some planned → planned.isNull = false →
    disk.holds (step.env.resolve planned) = other.holds (step.env.resolve planned)

/-- The same module with another mapping of outputs. -/
def ToolModule.placing (m : ToolModule) (outputs : Context → Except Failure ValueTable) :
    ToolModule := { m with outputs }

/-- Every declared product at the same path. -/
def Interface.everywhere (io : Interface) (path : String) : ValueTable :=
  io.produces.foldl (fun t d => t.insert d.name (.str path)) .empty

theorem Interface.get?_everywhere {io : Interface} {d : Declared} (hd : d ∈ io.produces)
    (path : String) : (io.everywhere path).get? d.name = some (.str path) := by
  have hstep : ∀ (t : ValueTable) (d : Declared), t.insert d.name (.str path) =
      (some (Value.str path)).elim t (t.insert d.name) := fun _ _ => rfl
  have hlook := Table.get?_foldl_insert hstep (fun _ _ _ => rfl) io.produces .empty d.name
  unfold everywhere
  rw [hlook]
  cases hfound : io.produces.find? (·.name = d.name) with
  | none =>
    have hnone := List.find?_eq_none.mp hfound d hd
    simp at hnone
  | some e => rfl

theorem Bindings.checkResolved_eq_ok_iff (b : Bindings) :
    b.checkResolved = .ok () ↔ ∀ e ∈ b.bound.entries, Environment.unresolved e.2 = [] := by
  unfold checkResolved
  induction b.bound.entries with
  | nil => exact ⟨fun _ => by simp, fun _ => rfl⟩
  | cons e rest ih =>
    rw [List.forall_mem_cons]
    show (_ >>= fun _ => _) = _ ↔ _
    rw [bind_eq_ok]
    cases hnames : Environment.unresolved e.2 with
    | nil =>
      constructor
      · rintro ⟨-, -, hrest⟩
        exact ⟨rfl, ih.mp hrest⟩
      · rintro ⟨-, hrest⟩
        exact ⟨(), by simp only [hnames], ih.mpr hrest⟩
    | cons name more => simp [hnames, refuse]

namespace Context
variable {m : ToolModule} {step : PlanStep} {roots : Roots} {disk other : Disk}
  {ctx octx : Context}

theorem takeOn_congr_iff {io : Interface} :
    (∀ name, takeOn io step.inputs step.env other name =
      takeOn io step.inputs step.env disk name) ↔ SameFinds io step disk other := by
  constructor
  · intro h take d planned hd hoptional hplanned hnull
    have hholds : ∀ e : Disk, e.holds (step.env.resolve planned) = true ↔
        takeOn io step.inputs step.env e take = some (step.env.resolve planned) := by
      intro e
      rw [takeOn_eq_some_iff]
      constructor
      · exact fun he => ⟨d, planned, hd, hplanned, hnull, rfl, Or.inr he⟩
      · rintro ⟨d', planned', hd', -, -, -, hrequired | he⟩
        · cases hd.symm.trans hd'
          rw [hoptional] at hrequired
          cases hrequired
        · exact he
    rw [Bool.eq_iff_iff, hholds, hholds, h]
  · intro h name
    refine takeOn_congr fun d planned hd hplanned hnull => ?_
    cases hrequired : d.isRequired with
    | true => simp
    | false => rw [h name d planned hd hrequired hplanned hnull]

/-- Two contexts of a step bind the same takes exactly if they find the same files. -/
theorem takes_eq_iff
    (h : build m step.stage step.inputs step.env roots disk = .ok ctx)
    (ho : build m step.stage step.inputs step.env roots other = .ok octx) :
    octx.takes = ctx.takes ↔ SameFinds m.io step disk other := by
  rw [← takeOn_congr_iff]
  constructor
  · intro heq name
    rw [← build_take h, ← build_take ho, heq]
  · intro heq
    rw [build_takes h, build_takes ho]
    exact Bindings.foldl_set_congr heq

section
variable {stage : String} {inputs : StageInputs} {env : Environment}

/-- Whether a product goes where the module puts it: the user did not bind it, and it is demanded if
it is made on demand. -/
def PlacedByModule (ctx : Context) (inputs : StageInputs) (d : Declared) : Prop :=
  ctx.produces.get? d.name = none ∧ (d.strictness ≠ .onDemand ∨ inputs.demanded.contains d.name)

/-- An absolute path without references, in its normal form. -/
structure Plain (cwd path : String) : Prop where
  names : Reference.names path = []
  absolute : Pathname.absoluteText cwd path = path

theorem Plain.absolute_str {cwd path : String} (plain : Plain cwd path) :
    (Value.str path).absolute cwd = .str path := by
  simp [Value.absolute, Value.mapStrings, plain.absolute]

theorem outputPath_everywhere (ctx : Context) (demanded : NameSet) {cwd path : String}
    (plain : Plain cwd path) {io : Interface} {d : Declared} (hd : d ∈ io.produces) :
    ctx.outputPath (io.everywhere path) demanded d =
      (ctx.produces.get? d.name).or
        (if d.strictness ≠ .onDemand ∨ demanded.contains d.name then some (.str path)
        else none) := by
  have hresolve : ctx.env.resolve (.str path) = .str path :=
    ctx.env.resolve_of_literal (List.flatMap_eq_nil_iff.mpr (by simp [Value.strings, plain.names]))
  unfold outputPath
  cases ctx.produces.get? d.name with
  | some v => rfl
  | none =>
    rw [Option.none_or, Interface.get?_everywhere hd]
    simp [Value.present?, Value.isNull, hresolve]

/-- Outputs that are all resolved stay so when those the user did not bind go to a plain path. -/
theorem checkResolved_placing {base : Context} {defaults : ValueTable} {path : String}
    (plain : Plain disk.cwd path)
    (hresolved : (m.io.produces.foldl (fun b d => b.set d.name
      ((base.outputPath defaults inputs.demanded d).map (Value.absolute disk.cwd)))
      (Bindings.empty stage .output)).checkResolved = .ok ()) :
    (m.io.produces.foldl (fun b d => b.set d.name
      ((base.outputPath (m.io.everywhere path) inputs.demanded d).map (Value.absolute disk.cwd)))
      (Bindings.empty stage .output)).checkResolved = .ok () := by
  have hempty : (Bindings.empty stage .output).entries.Ascending := Table.ascending_empty
  rw [Bindings.checkResolved_eq_ok_iff] at hresolved ⊢
  rintro ⟨name, v⟩ hentry
  have hget := ((Bindings.ascending_foldl_set _ m.io.produces hempty).filterMap
    _).get?_eq_some_iff.mpr hentry
  have hv := (Bindings.get?_bound (Bindings.ascending_foldl_set _ _ hempty) name).symm.trans hget
  rw [Bindings.get?_foldl_set] at hv
  obtain ⟨d, hfound, hv⟩ := Option.bind_eq_some_iff.mp hv
  have hd : d ∈ m.io.produces := List.mem_reverse.mp (List.mem_of_find?_eq_some hfound)
  rw [outputPath_everywhere base inputs.demanded plain hd] at hv
  cases hexplicit : base.produces.get? d.name with
  | some w =>
    rw [hexplicit, Option.some_or, Option.map_some] at hv
    refine hresolved (name, v) (Table.mem_of_get? ?_)
    rw [Bindings.get?_bound (Bindings.ascending_foldl_set _ _ hempty), Bindings.get?_foldl_set,
      hfound]
    simp only [Option.bind_some, outputPath, hexplicit, Option.map_some]
    exact hv
  | none =>
    rw [hexplicit, Option.none_or] at hv
    split at hv
    · rw [Option.map_some, plain.absolute_str] at hv
      cases hv
      exact List.flatMap_eq_nil_iff.mpr (by simp [Value.strings, plain.names])
    · cases hv

/-- Any module of the same interface can place its products as it likes. -/
theorem build_placing {path : Bindings → String}
    (plain : ∀ takes, Plain disk.cwd (path takes))
    (h : build m stage inputs env roots disk = .ok ctx) :
    ∃ octx, build (m.placing fun c => .ok (m.io.everywhere (path c.takes))) stage inputs env roots
        disk = .ok octx ∧
      ∀ d ∈ m.io.produces, m.io.produces.reverse.find? (·.name = d.name) = some d →
        PlacedByModule ctx inputs d →
        octx.outputs.get? d.name = some (.str (path ctx.takes)) := by
  obtain ⟨base, defaults, outputs, hbase, hdefaults, houtputs, htakes, hresolved, rfl⟩ :=
    build_eq_ok_iff.mp h
  have hplain := plain base.takes
  have houtputs := ((foldlM_set (bindOutput_eq base defaults inputs.demanded disk.cwd)).mp
    houtputs).2
  have hplaced := fun d (hd : d ∈ m.io.produces) =>
    outputPath_everywhere base inputs.demanded hplain hd
  have hfold := (foldlM_set (bindOutput_eq base (m.io.everywhere (path base.takes))
    inputs.demanded disk.cwd) (l := m.io.produces) (b := .empty stage .output)).mpr
    ⟨fun d hd hbad => ?_, rfl⟩
  · refine ⟨_, build_eq_ok_iff.mpr ⟨base, _, _, hbase, rfl, hfold, htakes,
      checkResolved_placing hplain (houtputs ▸ hresolved), rfl⟩, ?_⟩
    intro d hd hfound hmodule
    dsimp only at hmodule ⊢
    rw [Bindings.get?_foldl_set, hfound, Option.bind_some, hplaced d hd, hmodule.1,
      Option.none_or, if_pos hmodule.2, Option.map_some, hplain.absolute_str]
  · rw [hplaced d hd] at hbad
    have hstrict : d.strictness ≠ .onDemand := by
      intro hdemand
      simp [Declared.isRequired, hdemand] at hbad
    simp [hstrict] at hbad

end
end Context

/-- A step's outputs under a mapping, built on two disks, go to the same places. -/
def PlacesAlike (stage : Stage) (step : PlanStep) (roots : Roots) (disk other : Disk)
    (outputs : Context → Except Failure ValueTable) : Prop :=
  ∀ ctx octx,
    Context.build (stage.module.placing outputs) step.stage step.inputs step.env roots disk =
      .ok ctx →
    Context.build (stage.module.placing outputs) step.stage step.inputs step.env roots other =
      .ok octx → octx.outputs.bound = ctx.outputs.bound

section
variable {flow : Flow} {step : PlanStep} {disk other : Disk} {stage : Stage} {ctx octx : Context}

theorem Reached.outputs_eq (h : Reached flow step disk stage ctx)
    (ho : Reached flow step other stage octx) (hcwd : other.cwd = disk.cwd)
    (hfinds : SameFinds stage.io step disk other) : octx.outputs.bound = ctx.outputs.bound := by
  rw [Context.build_ext h.built ho.built hcwd ((Context.takes_eq_iff h.built ho.built).mpr hfinds)]

/-- The paths of a step's optional takes. -/
def PlanStep.optionalPaths (step : PlanStep) (io : Interface) : List String :=
  (io.takes.filter (!·.isRequired)).flatMap fun d =>
    ((step.inputs.takes.get? d.name).map fun v => (step.env.resolve v).strings).getD []

theorem PlanStep.mem_optionalPaths {io : Interface} {path : String} :
    path ∈ step.optionalPaths io ↔ ∃ d ∈ io.takes, d.isRequired = false ∧
      ∃ planned, step.inputs.takes.get? d.name = some planned ∧
        path ∈ (step.env.resolve planned).strings := by
  unfold optionalPaths
  simp only [List.mem_flatMap, List.mem_filter, Bool.not_eq_true', and_assoc]
  refine exists_congr fun d => and_congr_right fun _ => and_congr_right fun _ => ?_
  cases step.inputs.takes.get? d.name <;> simp

theorem sameFinds_of_kept (io : Interface)
    (kept : ∀ path ∈ step.optionalPaths io, other.contentAt path = disk.contentAt path) :
    SameFinds io step disk other := by
  intro take d planned hd hoptional hplanned hnull
  obtain ⟨hmem, rfl⟩ := Interface.take?_eq_some hd
  refine (Disk.holds_congr fun path hpath => ?_).symm
  exact Disk.exists?_congr (kept path
    (PlanStep.mem_optionalPaths.mpr ⟨d, hmem, hoptional, planned, hplanned, hpath⟩))

/-- An absolute pathname is the same seen from anywhere. -/
theorem absoluteText_of_isAbsolute {path : String} (h : Pathname.isAbsolute path = true)
    (hsome : path.isEmpty = false) (cwd other : String) :
    Pathname.absoluteText cwd path = Pathname.absoluteText other path := by
  simp only [Pathname.absoluteText, Pathname.absolute, h, hsome, Bool.false_eq_true, if_false,
    not_true_eq_false]

theorem plain_root_names (cwd : String) : Context.Plain cwd "/a" ∧ Context.Plain cwd "/b" :=
  ⟨⟨by decide, (absoluteText_of_isAbsolute (by decide) (by decide) cwd "/").trans (by decide)⟩,
    ⟨by decide, (absoluteText_of_isAbsolute (by decide) (by decide) cwd "/").trans (by decide)⟩⟩

/-- A module with a product of its own can tell apart any two sets of takes. -/
theorem placesAlike_iff (h : Reached flow step disk stage ctx)
    (ho : Reached flow step other stage octx) (hcwd : other.cwd = disk.cwd)
    (hnodup : (stage.io.produces.map Declared.name).Nodup)
    {d : Declared} (hd : d ∈ stage.io.produces)
    (hmodule : Context.PlacedByModule ctx step.inputs d) :
    (∀ outputs, PlacesAlike stage step flow.roots disk other outputs) ↔
      SameFinds stage.io step disk other := by
  constructor
  · intro halike
    by_contra hdiffers
    have htakes : octx.takes ≠ ctx.takes :=
      fun heq => hdiffers ((Context.takes_eq_iff h.built ho.built).mp heq)
    let path := fun takes => if takes = ctx.takes then "/a" else "/b"
    have hplain : ∀ cwd takes, Context.Plain cwd (path takes) := by
      intro cwd takes
      by_cases heq : takes = ctx.takes
      · simpa only [path, if_pos heq] using (plain_root_names cwd).1
      · simpa only [path, if_neg heq] using (plain_root_names cwd).2
    obtain ⟨first, hfirst, hfirstOut⟩ := Context.build_placing (hplain _) h.built
    obtain ⟨second, hsecond, hsecondOut⟩ := Context.build_placing (hplain _) ho.built
    have hfound := find?_reverse_of_nodup hnodup hd
    have hproduces := Context.build_produces h.built ho.built
    have hfirstAt := hfirstOut d hd hfound hmodule
    have hsecondAt := hsecondOut d hd hfound ⟨hproduces ▸ hmodule.1, hmodule.2⟩
    have hsame := halike _ first second hfirst hsecond
    rw [← Bindings.get?_bound (Context.ascending_outputs hfirst), ← hsame,
      Bindings.get?_bound (Context.ascending_outputs hsecond), hsecondAt] at hfirstAt
    simp [path, htakes] at hfirstAt
  · intro hfinds outputs first second hfirst hsecond
    exact congrArg (·.outputs.bound) (Context.build_ext hfirst hsecond hcwd
      ((Context.takes_eq_iff hfirst hsecond).mpr hfinds))

end

/-- What a step that is reached owes to the disk of its plan. Its outputs are where they were
planned if its optional takes find the same files; with other finds some mapping of outputs for the
same interface moves them. They are the same as long as no earlier step writes a path that the step
takes optionally. -/
theorem outputs_at_execution {flow : Flow} {target : String} {cache records : Option Fingerprints}
    {bench : Bench} {plan : Plan} {before rest : List PlanStep} {step : PlanStep} {r : Reporter}
    {host : Host} {report : BuildReport} {session : Session} {stage : Stage} {ctx : Context}
    (named : flow.Named) (planned : flow.plan target cache bench.disk = .ok plan)
    (confined : ∀ step ∈ plan.steps, Confined flow plan.mentions step)
    (order : plan.steps = before ++ step :: rest)
    (sofar : before.foldlM (Build.runStep flow r) {} host ⟨bench, records⟩ = .ok report session)
    (reached : Reached flow step session.bench.disk stage ctx) :
    ∃ first, Reached flow step bench.disk stage first ∧ step.outputs = first.outputs.bound ∧
      (SameFinds stage.io step bench.disk session.bench.disk →
        ctx.outputs.bound = step.outputs) ∧
      (∀ d ∈ stage.io.produces, Context.PlacedByModule first step.inputs d →
        ((∀ outputs,
            PlacesAlike stage step flow.roots bench.disk session.bench.disk outputs) ↔
          SameFinds stage.io step bench.disk session.bench.disk)) ∧
      ((∀ earlier ∈ before, ∀ path ∈ earlier.outputPaths, path ∉ step.optionalPaths stage.io) →
        SameFinds stage.io step bench.disk session.bench.disk) := by
  have hstep : step ∈ plan.steps := by
    rw [order]
    exact List.mem_append_right _ List.mem_cons_self
  obtain ⟨producers, hproducers, hbuilt⟩ := plan_built named planned
  obtain ⟨found, first, -, hfirst, houtputs, -⟩ := hbuilt step hstep
  have hsame : found = stage := Option.some.inj (hfirst.known.symm.trans reached.known)
  subst hsame
  have hbefore : ∀ earlier ∈ before, Confined flow plan.mentions earlier := by
    intro earlier hmem
    refine confined earlier ?_
    rw [order]
    exact List.mem_append_left _ hmem
  obtain ⟨hcwd, hkept⟩ := Confined.steps hbefore r host {} ⟨bench, records⟩
  rw [sofar] at hcwd hkept
  refine ⟨first, hfirst, houtputs, fun hfinds => ?_, fun d hd hmodule => ?_, fun hapart => ?_⟩
  · rw [houtputs]
    exact hfirst.outputs_eq reached hcwd hfinds
  · exact placesAlike_iff hfirst reached hcwd
      (Flow.producers_nodup hproducers hfirst.known) hd hmodule
  · refine sameFinds_of_kept found.io fun path hpath => ?_
    have hmentioned : path ∈ step.mentions := by
      obtain ⟨d, -, -, planned, hplanned, hmem⟩ := PlanStep.mem_optionalPaths.mp hpath
      exact PlanStep.mentions_of_take hplanned hmem
    exact hkept path (Plan.mentions_of_step hstep hmentioned) fun earlier hmem hout =>
      hapart earlier hmem path hout hpath

/-- The second copy of a relay writes where it was planned to. -/
theorem relay_outputs_at_execution :
    ∃ plan first second report session stage ctx,
      Relay.flow.plan "out" none Relay.disk = .ok plan ∧ plan.steps = [first, second] ∧
      [first].foldlM (Build.runStep Relay.flow Relay.silent) {} Relay.host
        ⟨⟨Relay.disk, "", 0⟩, none⟩ = .ok report session ∧
      Reached Relay.flow second session.bench.disk stage ctx ∧
      ctx.outputs.bound = second.outputs := by
  have hplan : okAnd (Relay.flow.plan "out" none Relay.disk) (fun plan =>
      pairAnd plan.steps fun first second =>
        [first, second].all Relay.isCopy && plan.mentions.all isTopLevel &&
          Build.doneAnd ([first].foldlM (Build.runStep Relay.flow Relay.silent) {} Relay.host
            ⟨⟨Relay.disk, "", 0⟩, none⟩) fun _ session =>
              (Relay.flow.stages.get? second.stage).any fun stage =>
                (okAnd (Context.build stage.module second.stage second.inputs second.env
                  Relay.flow.roots session.bench.disk) fun _ => true) &&
                first.outputPaths.all fun path =>
                  path ∉ second.optionalPaths stage.io) = true := by
    decide +kernel
  obtain ⟨plan, hplan, hchecks⟩ := exists_of_okAnd hplan
  obtain ⟨first, second, hsteps, hchecks⟩ := exists_of_pairAnd hchecks
  simp only [Bool.and_eq_true] at hchecks
  obtain ⟨⟨hcopies, htops⟩, hrun⟩ := hchecks
  obtain ⟨report, session, sofar, hstage⟩ := Build.exists_of_doneAnd hrun
  obtain ⟨stage, hknown, hbuild⟩ := (Option.any_eq_true _ _).mp hstage
  obtain ⟨hbuilt, hapart⟩ := Bool.and_eq_true_iff.mp hbuild
  obtain ⟨ctx, hctx, -⟩ := exists_of_okAnd hbuilt
  have reached : Reached Relay.flow second session.bench.disk stage ctx := ⟨hknown, hctx⟩
  rw [← hsteps] at hcopies
  have confined : ∀ step ∈ plan.steps, Confined Relay.flow plan.mentions step :=
    fun step hstep => (Relay.deterministic hcopies htops step hstep).toConfined
  have order : plan.steps = [first] ++ second :: [] := hsteps
  have planned : Relay.flow.plan "out" none (⟨Relay.disk, "", 0⟩ : Bench).disk = .ok plan := hplan
  obtain ⟨-, -, -, hagree, -, hsame⟩ :=
    outputs_at_execution Relay.flow_named planned confined order sofar reached
  refine ⟨plan, first, second, report, session, stage, ctx, hplan, hsteps, sofar, reached,
    hagree (hsame ?_)⟩
  intro earlier hearlier path hpath
  rw [List.mem_singleton.mp hearlier] at hpath
  simpa using List.all_eq_true.mp hapart path hpath

/-- A flow that makes a build directory and synthesises into it if it is there. -/
def buildDirectoryFlow (mk synth : ToolModule) : Flow where
  part := "part"
  platform := "platform"
  stages := Table.ofList [
    ("mk", ⟨"mk", "common:mkdirs", mk, .empty, .empty⟩),
    ("synth", ⟨"synth", "common:synth", synth, .empty, ⟨Table.ofList [
      ("device", .str "d"), ("tcl_scripts", .str "/tcl"), ("top", .str "counter")]⟩⟩)]
  dependencies := Table.ofList [("sources", .str "/src")]
  defaultTarget := none
  roots := {}

/-- A directory that an earlier step makes moves the outputs of synthesis: they are planned without
it and written into it. -/
theorem made_directory_moves_outputs :
    ∃ mk synth plan first second report session stage ctx,
      Modules.Directories.make ⟨.map (Table.ofList [("build_dir", .str "/bld")]), .empty, "mk"⟩ =
        .ok mk ∧
      Modules.Synthesis.make ⟨.null, .empty, "synth"⟩ = .ok synth ∧
      (buildDirectoryFlow mk synth).plan "eblif" none Relay.disk = .ok plan ∧
      plan.steps = [first, second] ∧
      [first].foldlM (Build.runStep (buildDirectoryFlow mk synth) Relay.silent) {} Relay.host
        ⟨⟨Relay.disk, "", 0⟩, none⟩ = .ok report session ∧
      (∀ path ∈ plan.mentions, path ∉ first.outputPaths →
        session.bench.disk.contentAt path = Relay.disk.contentAt path) ∧
      Reached (buildDirectoryFlow mk synth) second session.bench.disk stage ctx ∧
      second.outputs.get? "eblif" = some (.str "/counter.eblif") ∧
      ctx.outputs.bound.get? "eblif" = some (.str "/bld/counter.eblif") := by
  have hchecks : okAnd (Modules.Directories.make
      ⟨.map (Table.ofList [("build_dir", .str "/bld")]), .empty, "mk"⟩) (fun mk =>
      okAnd (Modules.Synthesis.make ⟨.null, .empty, "synth"⟩) fun synth =>
      okAnd ((buildDirectoryFlow mk synth).plan "eblif" none Relay.disk) fun plan =>
      pairAnd plan.steps fun first second =>
        Build.doneAnd ([first].foldlM (Build.runStep (buildDirectoryFlow mk synth) Relay.silent) {}
          Relay.host ⟨⟨Relay.disk, "", 0⟩, none⟩) fun _ session =>
            (plan.mentions.all fun path => path ∈ first.outputPaths ∨
              session.bench.disk.contentAt path = Relay.disk.contentAt path) &&
            ((buildDirectoryFlow mk synth).stages.get? second.stage).any fun stage =>
              okAnd (Context.build stage.module second.stage second.inputs second.env
                (buildDirectoryFlow mk synth).roots session.bench.disk) fun ctx =>
                  second.outputs.get? "eblif" = some (.str "/counter.eblif") ∧
                    ctx.outputs.bound.get? "eblif" = some (.str "/bld/counter.eblif")) = true := by
    decide +kernel
  obtain ⟨mk, hmk, hchecks⟩ := exists_of_okAnd hchecks
  obtain ⟨synth, hsynth, hchecks⟩ := exists_of_okAnd hchecks
  obtain ⟨plan, hplan, hchecks⟩ := exists_of_okAnd hchecks
  obtain ⟨first, second, hsteps, hchecks⟩ := exists_of_pairAnd hchecks
  obtain ⟨report, session, sofar, hchecks⟩ := Build.exists_of_doneAnd hchecks
  obtain ⟨hkept, hstage⟩ := Bool.and_eq_true_iff.mp hchecks
  obtain ⟨stage, hknown, hbuild⟩ := (Option.any_eq_true _ _).mp hstage
  obtain ⟨ctx, hctx, houtputs⟩ := exists_of_okAnd hbuild
  obtain ⟨hplanned, hmoved⟩ := of_decide_eq_true houtputs
  refine ⟨mk, synth, plan, first, second, report, session, stage, ctx, hmk, hsynth, hplan, hsteps,
    sofar, fun path hpath hout => ?_, ⟨hknown, hctx⟩, hplanned, hmoved⟩
  exact (of_decide_eq_true (List.all_eq_true.mp hkept path hpath)).resolve_left hout

end Toolflow
