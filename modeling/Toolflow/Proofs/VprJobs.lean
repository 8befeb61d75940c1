import Toolflow.Modules.Builtin
import Toolflow.Proofs.CompleteContexts
import Toolflow.Proofs.MovingPrograms

/-! The jobs that VPR is run for.

VPR writes each of its files under a name of its own, beside the netlist or, when it packs, beside
the packed one. The module of a job makes ready what VPR reads, runs it, and then moves files to
where they are wanted: what it does after the run is a program that moves files. A file beside the
netlist is moved only if its output is bound by the user; else it is where it is wanted already,
since the default of the output is the place that VPR gives it. -/
namespace Toolflow.Modules.Vpr

variable {ctx : Context} {host : Host} {bench : Bench} {p : Progress} {job : Job}
  {eblif stem dir cwd source target : String} {start left : Disk} {content : String → ByteArray}

/-! ### What VPR does -/

/-- The module that has a job done. -/
def Job.make : Job → ModuleArgs → Except Failure ToolModule
  | .pack => Packing.make
  | .place => Placement.make
  | .route => Routing.make
  | .analysis => Timing.make

/-- What VPR writes into the directory it runs in: what a file is for, and its name. -/
def Job.files (stem : String) : Job → List (String × String)
  | .pack => [("pack_log", logName), ("timing_rpt", Packing.timingReport),
      ("util_rpt", Packing.utilizationReport), ("net", stem ++ ".net")]
  | .place => [("place", stem ++ ".place"), ("place_log", logName)]
  | .route => [("route", stem ++ ".route"), ("route_log", logName)]
  | .analysis => [("merged_post_implementation_v", stem ++ "_merged_post_implementation.v"),
      ("post_implementation_v", stem ++ "_post_synthesis.v"), ("analysis_log", logName)]

/-- The log of placing and of routing is no output: what it is for, and the name it is given. -/
def Job.ownLog? : Job → Option (String × String)
  | .place => some ("place_log", "place.log")
  | .route => some ("route_log", "route.log")
  | _ => none

/-- Where a file is wanted: at the output of that name, unless it is a log that is none. -/
def Job.goal? (job : Job) (ctx : Context) (dir name : String) : Option String :=
  match job.ownLog? with
  | some log => if name = log.1 then some (Pathname.join dir log.2) else ctx.outputs.str? name
  | none => ctx.outputs.str? name

/-- The directory that VPR runs in: the one of the netlist or, for packing, of the packed one. -/
def Job.directory (job : Job) (ctx : Context) (eblif : String) : String :=
  Pathname.directoryOf (if job = .pack then (ctx.outputs.str? "net").getD eblif else eblif)

/-- The disk that VPR finds: for placing without constraints an empty file of them is made. -/
def Job.prepared (job : Job) (ctx : Context) (eblif : String) (disk : Disk) :
    Except FileFault Disk :=
  if job = .place ∧ (Placement.constraints ctx eblif).2 = true then
    disk.write (Placement.constraints ctx eblif).1 .empty
  else .ok disk

/-- Whether a command line asks for a job on a netlist, in a directory. -/
structure Job.Asks (job : Job) (eblif dir : String) (c : Command) : Prop where
  netlist : eblif ∈ c.argv
  job : "--" ++ job.name ∈ c.argv
  cwd : c.cwd = some dir

/-- VPR succeeds in a job and writes its files, and nothing else. -/
structure Job.Writes (job : Job) (host : Host) (eblif stem dir : String) (start left : Disk)
    (content : String → ByteArray) : Prop where
  ran : ∀ c, job.Asks eblif dir c →
    ∃ outcome, host.run c start = (.ok outcome, left) ∧ outcome.ending = .exit 0
  tree : left.IsTree
  cwd : left.cwd = start.cwd
  written : ∀ file ∈ job.files stem, left.read (Pathname.join dir file.2) = .ok (content file.1)
  kept : ∀ place, (∀ file ∈ job.files stem, place ≠ left.leads (Pathname.join dir file.2)) →
    left.fileAt place = start.fileAt place

theorem asks_command (ctx : Context) (program : String) (job : Job) (s : Settings) (dir : String) :
    job.Asks s.eblif dir (command ctx program job s dir) :=
  ⟨by simp [command], by simp [command], rfl⟩

/-- VPR does the job. -/
theorem run_ok {s : Settings}
    (writes : job.Writes host eblif stem dir start left content) (hs : s.eblif = eblif)
    (hstart : bench.disk = start) :
    run ctx job s dir host bench = .ok () { bench with disk := left } := by
  subst hs hstart
  obtain ⟨outcome, hran, hexit⟩ := writes.ran _
    (asks_command ctx (host.locateTool bench.disk ctx.roots.bin "vpr") job s dir)
  unfold run
  rw [Exec.bind_ok (Exec.locateTool_run host bench ctx.roots.bin "vpr")]
  exact Exec.discard_ok ((Exec.during_eq_ok_iff _).mpr (Command.run_eq_ok_iff.mpr
    ⟨List.cons_ne_nil _ _, outcome, left, hran, hexit, rfl, rfl⟩))

/-- What the settings are made of is there. -/
theorem exists_settings (netlist : ctx.takes.get? "eblif" = some (.str eblif))
    (values : ∀ d ∈ declaredValues [], d.isRequired = true → ∃ v, ctx.values.get? d.name = some v)
    (sdc : Option String) : ∃ s, Settings.ofContext ctx sdc = .ok s ∧ s.eblif = eblif := by
  have htext : ∀ name, (∃ d ∈ declaredValues [], d.isRequired = true ∧ d.name = name) →
      ∃ text, ctx.values.requireText name = .ok text := by
    rintro _ ⟨d, hd, required, rfl⟩
    obtain ⟨v, hv⟩ := values d hd required
    exact ⟨v.text, by simp [Bindings.requireText, Bindings.require, hv, Bind.bind,
      Except.bind, Pure.pure, Except.pure]⟩
  obtain ⟨archDef, harch⟩ := htext "arch_def" (by decide +kernel)
  obtain ⟨deviceName, hdevice⟩ := htext "vpr_grid_layout_name" (by decide +kernel)
  obtain ⟨rrGraph, hgraph⟩ := htext "rr_graph_real_bin" (by decide +kernel)
  obtain ⟨lookahead, hlookahead⟩ := htext "rr_graph_lookahead_bin" (by decide +kernel)
  obtain ⟨placeDelay, hdelay⟩ := htext "vpr_place_delay" (by decide +kernel)
  unfold Settings.ofContext
  rw [harch, Bindings.requirePath_ok netlist, hdevice, hgraph, hlookahead, hdelay]
  exact ⟨_, rfl, rfl⟩

/-- A job on a netlist, and the disk that VPR is to find. -/
structure Job.Starts (job : Job) (ctx : Context) (disk start : Disk) (eblif stem : String) :
    Prop where
  netlist : ctx.takes.get? "eblif" = some (.str eblif)
  stemmed : Pathname.fileStem? eblif = some stem
  named : stem ≠ "."
  home : disk.leads disk.cwd = disk.cwd
  prepared : job.prepared ctx eblif disk = .ok start

/-- VPR finds the disk as it is, unless it is run for placing. -/
theorem Job.Starts.start_eq {disk : Disk} (starts : job.Starts ctx disk start eblif stem)
    (h : job ≠ .place) : start = disk := by
  have hprepared := starts.prepared
  rw [Job.prepared, if_neg fun hplace => h hplace.1] at hprepared
  exact (Except.ok.inj hprepared).symm

/-! ### Moving what VPR has written -/

/-- What is moved, and where to: all that is wanted but the packed netlist, which stays. -/
def Job.deliveries (job : Job) (ctx : Context) (stem dir : String) :
    List ((String × String) × String) :=
  (job.files stem).filterMap fun file =>
    if job = .pack ∧ file.1 = "net" then none else (job.goal? ctx dir file.1).map (file, ·)

/-- The moves from where VPR has put the files. -/
def Job.moves (job : Job) (ctx : Context) (stem dir : String) : List (String × String) :=
  (job.deliveries ctx stem dir).map fun d => (Pathname.join dir d.1.2, d.2)

theorem moves_moveOutput (source target : String) :
    (moveOutput source target).Moves cwd [(source, target)] := by
  unfold moveOutput
  split
  · exact Exec.moves_rename _
  · rename_i hsame
    exact Exec.moves_stay fun disk _ =>
      Disk.leads_alike (Pathname.alike_of_same (not_not.mp hsame))

theorem moves_saveLog (dir target : String) :
    (saveLog dir target).Moves cwd [(Pathname.join dir logName, target)] :=
  Exec.moves_rename _

/-- Of what VPR has left, only files that nobody wants are taken away. -/
structure Job.Tidies (job : Job) (ctx : Context) (stem dir : String) (left ready : Disk) :
    Prop where
  grown : left.Extends ready
  fixed : ∀ dir, ready.entries.get? dir = some .directory → left.entries.get? dir = some .directory
  kept : ∀ place, (∀ file ∈ job.files stem, job.goal? ctx dir file.1 = none →
    place ≠ left.leads (Pathname.join dir file.2)) → ready.fileAt place = left.fileAt place

theorem Job.Tidies.refl (tree : left.IsTree) : job.Tidies ctx stem dir left left :=
  ⟨tree.extends_self, fun _ h => h, fun _ _ => rfl⟩

/-- What VPR puts beside the netlist is where it is wanted, or its output is bound and it moves. -/
structure Stays (ctx : Context) (cwd dir name file source target : String) : Prop where
  bound : ctx.outputs.get? name = some (.str target)
  alike : Pathname.Alike source (Pathname.join dir file)
  named : Disk.meansDirectory source = false
  implicit : ctx.isExplicit name = false →
    ∀ disk : Disk, disk.cwd = cwd → disk.leads source = disk.leads target

theorem Stays.moves {name file source target : String}
    (h : Stays ctx cwd dir name file source target) :
    (if ctx.isExplicit name = true then
      Exec.ofExcept (ctx.outputs.requirePath name) >>= fun target => moveOutput source target
    else pure ()).Moves cwd [(Pathname.join dir file, target)] := by
  refine Exec.Moves.alike ?_ h.alike.symm h.named
  split
  · exact Exec.Moves.ofExcept (Bindings.requirePath_ok h.bound) (moves_moveOutput source target)
  · rename_i hexplicit
    exact Exec.moves_stay (h.implicit (Bool.eq_false_iff.mpr hexplicit))

theorem Stays.moves_bind {name file source target : String} {moves : List (String × String)}
    {rest : Exec Unit} (h : Stays ctx cwd dir name file source target)
    (hrest : rest.Moves cwd moves) :
    (if ctx.isExplicit name = true then
      Exec.ofExcept (ctx.outputs.requirePath name) >>= fun target =>
        moveOutput source target >>= fun _ => rest
    else rest).Moves cwd ((Pathname.join dir file, target) :: moves) := by
  have hmoves := h.moves.bind hrest
  split
  · rename_i hexplicit
    rwa [if_pos hexplicit, bind_assoc] at hmoves
  · rename_i hexplicit
    rwa [if_neg hexplicit, pure_bind] at hmoves

section
variable {s : Settings}

theorem disposeLog_moves {target : String}
    (h : ctx.outputs.get? "pack_log" = some (.str target)) :
    (Packing.disposeLog ctx dir).Moves cwd [(Pathname.join dir logName, target)] := by
  unfold Packing.disposeLog
  rw [Bindings.str?_of_get? h]
  exact moves_moveOutput _ _

/-- A log that is not wanted is removed. -/
theorem disposeLog_removes (writes : Job.pack.Writes host eblif stem dir start bench.disk content)
    (h : ctx.outputs.get? "pack_log" = none) :
    ∃ after : Bench, Packing.disposeLog ctx dir host bench = .ok () after ∧
      Job.pack.Tidies ctx stem dir bench.disk after.disk := by
  have hmem : ("pack_log", logName) ∈ Job.pack.files stem := List.mem_cons_self
  have hread := writes.written _ hmem
  have hnone : ctx.outputs.str? "pack_log" = none := by simp [Bindings.str?, h]
  obtain ⟨after, hremove, hgrown, hfixed, hkept⟩ := writes.tree.removeFile hread
  refine ⟨{ bench with disk := after }, ?_, hgrown, hfixed, fun place hplace => ?_⟩
  · unfold Packing.disposeLog
    rw [hnone]
    dsimp only
    rw [Exec.bind_ok (Exec.disk_run host bench), if_pos (Disk.exists?_of_read hread)]
    exact (Exec.change_eq_ok_iff _).mpr ⟨after, hremove, rfl⟩
  · exact hkept place (hplace _ hmem (by simp [Job.goal?, Job.ownLog?, hnone]))

/-- The log of packing is moved or removed; the reports are then moved. -/
theorem pack_runs {net util timing : String}
    (hnet : ctx.outputs.get? "net" = some (.str net))
    (hutil : ctx.outputs.get? "util_rpt" = some (.str util))
    (htiming : ctx.outputs.get? "timing_rpt" = some (.str timing))
    (hlog : ∀ v, ctx.outputs.get? "pack_log" = some v → ∃ path, v = .str path)
    (hs : Settings.ofContext ctx (ctx.takes.str? "sdc") = .ok s) (hs' : s.eblif = eblif)
    (hdir : Pathname.directoryOf net = dir)
    (writes : Job.pack.Writes host eblif stem dir bench.disk left content) :
    ∃ (rest : Exec Unit) (between : Bench), Packing.execute ctx p host bench = rest host between ∧
      Job.pack.Tidies ctx stem dir left between.disk ∧
      rest.Moves cwd (Job.pack.moves ctx stem dir) := by
  obtain ⟨announced, hphase, hdisk⟩ := Exec.phase_run host bench p "Packing with VPR..."
  obtain ⟨ended, hended, rfl⟩ := Exec.phase_run host { announced with disk := left } p
    "Moving/deleting files..."
  have hutil := Bindings.str?_of_get? hutil
  have htiming := Bindings.str?_of_get? htiming
  have hreports : Exec.Moves (moveOutput (Pathname.join dir Packing.timingReport) timing >>=
      fun _ => moveOutput (Pathname.join dir Packing.utilizationReport) util) cwd
      [(Pathname.join dir Packing.timingReport, timing),
        (Pathname.join dir Packing.utilizationReport, util)] :=
    (moves_moveOutput _ _).bind (moves_moveOutput _ _)
  unfold Packing.execute
  rw [Exec.bind_ok (Exec.ofExcept_ok host bench (Bindings.requirePath_ok hnet)), hdir, hutil,
    htiming]
  dsimp only
  rw [Exec.bind_ok hphase, Exec.bind_ok (Exec.ofExcept_ok _ _ hs),
    Exec.bind_ok (run_ok writes hs' hdisk), Exec.bind_ok hended]
  cases hgoal : ctx.outputs.get? "pack_log" with
  | some v =>
    obtain ⟨target, rfl⟩ := hlog v hgoal
    refine ⟨_, ended, rfl, Job.Tidies.refl writes.tree, ?_⟩
    simpa [Job.moves, Job.deliveries, Job.files, Job.goal?, Job.ownLog?,
      Bindings.str?_of_get? hgoal, htiming, hutil] using (disposeLog_moves hgoal).bind hreports
  | none =>
    obtain ⟨cleared, hcleared, htidy⟩ := disposeLog_removes writes hgoal
    refine ⟨_, cleared, Exec.bind_ok hcleared _, htidy, ?_⟩
    have hnone : ctx.outputs.str? "pack_log" = none := by simp [Bindings.str?, hgoal]
    simpa [Job.moves, Job.deliveries, Job.files, Job.goal?, Job.ownLog?, hnone, htiming,
      hutil] using hreports

/-- The routing is moved if it is bound, and the log is renamed. -/
theorem route_runs {target : String} (netlist : ctx.takes.get? "eblif" = some (.str eblif))
    (route : Stays ctx cwd dir "route" (stem ++ ".route") (Routing.defaultRoute eblif) target)
    (hs : Settings.ofContext ctx (ctx.takes.str? "sdc") = .ok s) (hs' : s.eblif = eblif)
    (hdir : Pathname.directoryOf eblif = dir)
    (writes : Job.route.Writes host eblif stem dir bench.disk left content) :
    ∃ (rest : Exec Unit) (between : Bench), Routing.execute ctx p host bench = rest host between ∧
      Job.route.Tidies ctx stem dir left between.disk ∧
      rest.Moves cwd (Job.route.moves ctx stem dir) := by
  obtain ⟨announced, hphase, hdisk⟩ := Exec.phase_run host bench p "Routing with VPR..."
  unfold Routing.execute
  rw [Exec.bind_ok (Exec.ofExcept_ok host bench (Bindings.requirePath_ok netlist)), hdir]
  dsimp only
  rw [Exec.bind_ok hphase, Exec.bind_ok (Exec.ofExcept_ok _ _ hs),
    Exec.bind_ok (run_ok writes hs' hdisk)]
  refine ⟨_, _, rfl, Job.Tidies.refl writes.tree, ?_⟩
  simpa [Job.moves, Job.deliveries, Job.files, Job.goal?, Job.ownLog?,
    Bindings.str?_of_get? route.bound] using
    route.moves_bind ((moves_saveLog dir (Pathname.join dir "route.log")).phase p "Saving log...")

/-- The netlists that are bound are moved, and the log is. -/
theorem analysis_runs {merged post log : String}
    (netlist : ctx.takes.get? "eblif" = some (.str eblif))
    (hmerged : Stays ctx cwd dir "merged_post_implementation_v"
      (stem ++ "_merged_post_implementation.v")
      (Timing.netlistPath eblif "_merged_post_implementation.v") merged)
    (hpost : Stays ctx cwd dir "post_implementation_v" (stem ++ "_post_synthesis.v")
      (Timing.netlistPath eblif "_post_synthesis.v") post)
    (hlog : ctx.outputs.get? "analysis_log" = some (.str log))
    (hs : Settings.ofContext ctx (ctx.takes.str? "sdc") = .ok s) (hs' : s.eblif = eblif)
    (hdir : Pathname.directoryOf eblif = dir)
    (writes : Job.analysis.Writes host eblif stem dir bench.disk left content) :
    ∃ (rest : Exec Unit) (between : Bench), Timing.execute ctx p host bench = rest host between ∧
      Job.analysis.Tidies ctx stem dir left between.disk ∧
      rest.Moves cwd (Job.analysis.moves ctx stem dir) := by
  obtain ⟨announced, hphase, hdisk⟩ := Exec.phase_run host bench p "Analysis with VPR..."
  unfold Timing.execute
  rw [Exec.bind_ok (Exec.ofExcept_ok host bench (Bindings.requirePath_ok netlist)), hdir]
  dsimp only
  rw [Exec.bind_ok hphase, Exec.bind_ok (Exec.ofExcept_ok _ _ hs),
    Exec.bind_ok (run_ok writes hs' hdisk)]
  refine ⟨_, _, rfl, Job.Tidies.refl writes.tree, ?_⟩
  have hsave : Exec.Moves (Exec.ofExcept (ctx.outputs.requirePath "analysis_log") >>= saveLog dir)
      cwd [(Pathname.join dir logName, log)] :=
    Exec.Moves.ofExcept (Bindings.requirePath_ok hlog) (moves_saveLog dir log)
  have hmoves := hmerged.moves.bind (hpost.moves.bind (hsave.phase p "Saving log..."))
  simpa [Job.moves, Job.deliveries, Job.files, Job.goal?, Job.ownLog?,
    Bindings.str?_of_get? hmerged.bound, Bindings.str?_of_get? hpost.bound,
    Bindings.str?_of_get? hlog, Timing.netlists] using hmoves

/-- Before VPR is run for placing, a file for the constraints is made if there are none. -/
theorem exists_prepared (prepared : Job.place.prepared ctx eblif bench.disk = .ok start)
    (host : Host) : ∃ made : Bench, made.disk = start ∧ ∀ rest : Exec Unit,
      (if (Placement.constraints ctx eblif).2 = true then
        Exec.change (.writing (Placement.constraints ctx eblif).1)
          (·.write (Placement.constraints ctx eblif).1 .empty) >>= fun _ => rest
      else rest) host bench = rest host made := by
  unfold Job.prepared at prepared
  by_cases hmake : (Placement.constraints ctx eblif).2 = true
  · rw [if_pos ⟨rfl, hmake⟩] at prepared
    refine ⟨{ bench with disk := start }, rfl, fun rest => ?_⟩
    rw [if_pos hmake]
    exact Exec.bind_ok ((Exec.change_eq_ok_iff _).mpr ⟨start, prepared, rfl⟩) _
  · rw [if_neg fun h => hmake h.2] at prepared
    cases prepared
    exact ⟨bench, rfl, fun rest => by rw [if_neg hmake]⟩

/-- The placement is moved if it is bound, and the log is renamed. -/
theorem place_runs {target : String} (netlist : ctx.takes.get? "eblif" = some (.str eblif))
    (place : Stays ctx cwd dir "place" (stem ++ ".place") (Placement.defaultPlace eblif) target)
    (hs : Settings.ofContext ctx (ctx.takes.str? "sdc") = .ok s) (hs' : s.eblif = eblif)
    (hdir : Pathname.directoryOf eblif = dir)
    (prepared : Job.place.prepared ctx eblif bench.disk = .ok start)
    (writes : Job.place.Writes host eblif stem dir start left content) :
    ∃ (rest : Exec Unit) (between : Bench), Placement.execute ctx p host bench = rest host between ∧
      Job.place.Tidies ctx stem dir left between.disk ∧
      rest.Moves cwd (Job.place.moves ctx stem dir) := by
  obtain ⟨made, hmade, hprepare⟩ := exists_prepared prepared host
  obtain ⟨announced, hphase, hdisk⟩ := Exec.phase_run host made p "Running VPR..."
  unfold Placement.execute
  rw [Exec.bind_ok (Exec.ofExcept_ok host bench (Bindings.requirePath_ok netlist)), hdir]
  dsimp only
  rw [hprepare, Exec.bind_ok hphase, Exec.bind_ok (Exec.ofExcept_ok _ _ hs),
    Exec.bind_ok (run_ok writes (by exact hs') (hdisk.trans hmade))]
  refine ⟨_, _, rfl, Job.Tidies.refl writes.tree, ?_⟩
  simpa [Job.moves, Job.deliveries, Job.files, Job.goal?, Job.ownLog?,
    Bindings.str?_of_get? place.bound] using
    place.moves_bind ((moves_saveLog dir (Pathname.join dir "place.log")).phase p "Saving log...")

end

/-! ### Contexts of the jobs -/

/-- What the module of a job declares. -/
def Job.interface : Job → String → Interface
  | .pack => Packing.interface
  | .place => Placement.interface
  | .route => Routing.interface
  | .analysis => Timing.interface

theorem Job.io_eq {args : ModuleArgs} {m : ToolModule} (made : job.make args = .ok m) :
    m.io = job.interface args.instanceName := by
  cases job <;>
  · cases made
    rfl

/-- The name of an instance makes no difference to what is declared. -/
theorem Job.interface_lists (job : Job) (name : String) :
    (job.interface name).takes = (job.interface "").takes ∧
      (job.interface name).values = declaredValues [] ∧
      (job.interface name).produces = (job.interface "").produces := by
  cases job <;> exact ⟨rfl, rfl, rfl⟩

theorem Job.distinct (job : Job) (name : String) : (job.interface name).Distinct := by
  obtain ⟨htakes, hvalues, hproduces⟩ := job.interface_lists name
  refine ⟨?_, ?_, ?_⟩
  · rw [htakes]
    cases job <;> decide
  · rw [hvalues]
    decide +kernel
  · rw [hproduces]
    cases job <;> decide

section
variable {m : ToolModule} {args : ModuleArgs} {stage : String} {inputs : StageInputs}
  {env : Environment} {roots : Roots} {disk : Disk}

/-- A file beside the netlist stays where it is wanted, or is moved there. -/
theorem stays_of_build {disk : Disk} {name : String} {defaults : ValueTable} {tail : String}
    (built : Context.build m stage inputs env roots disk = .ok ctx)
    (complete : ctx.Complete m.io inputs env disk) (rooted : Pathname.isAbsolute disk.cwd = true)
    (hnodup : (m.io.produces.map Declared.name).Nodup)
    (starts : job.Starts ctx disk start eblif stem) (hd : .required name ∈ m.io.produces)
    (bound : ctx.outputs.get? name = some (.str target))
    (houtputs : ∀ base : Context, base.takes = ctx.takes → m.outputs base = .ok defaults)
    (hdefault : defaults.get? name = some (.str source))
    (beside : Pathname.Beside eblif stem tail source) (unclosed : '}' ∉ tail.toList) :
    Stays ctx disk.cwd (Pathname.directoryOf eblif) name (stem ++ tail) source target where
  bound := bound
  alike := beside.alike
  named := beside.named
  implicit himplicit other hcwd := by
    have free : Reference.TokenFree eblif.toList :=
      complete.closedTakes _ _ starts.netlist _ (by simp [Value.strings])
    have hbound := Context.build_default hnodup built hd (by simp [Declared.required]) himplicit
      houtputs hdefault (beside.tokenFree free unclosed)
    cases bound.symm.trans hbound
    have hhome : other.leads other.cwd = other.cwd := by
      have hhome := starts.home
      unfold Disk.leads at hhome ⊢
      rwa [hcwd]
    rw [← hcwd] at rooted ⊢
    exact (Disk.leads_absoluteText rooted hhome source).symm

/-- A placement or a routing is beside the netlist. -/
theorem Job.Starts.beside_extension {disk : Disk} (starts : job.Starts ctx disk start eblif stem)
    (extension : String) (hext : extension.isEmpty = false) (whole : '/' ∉ extension.toList) :
    Pathname.Beside eblif stem ("." ++ extension) (Pathname.withExtension eblif extension) :=
  Pathname.beside_withExtension starts.stemmed starts.named hext whole

/-- So are the netlists that an analysis makes. -/
theorem Job.Starts.beside_ending {disk : Disk} (starts : job.Starts ctx disk start eblif stem)
    (ending : String) (whole : '/' ∉ ending.toList) (long : 2 < ending.toList.length) :
    Pathname.Beside eblif stem ending (Timing.netlistPath eblif ending) := by
  refine Pathname.beside_append starts.stemmed starts.named whole fun heq => ?_
  have hlength := congrArg List.length heq
  rw [String.toList_append, List.length_append, List.length_singleton] at hlength
  omega

/-- A job comes to a point where what is left to do is to move files. -/
theorem Job.runs (made : job.make args = .ok m)
    (built : Context.build m stage inputs env roots bench.disk = .ok ctx)
    (starts : job.Starts ctx bench.disk start eblif stem)
    (hdir : job.directory ctx eblif = dir)
    (writes : job.Writes host eblif stem dir start left content)
    (single : ∀ name v, ctx.outputs.get? name = some v → ∃ path, v = .str path)
    (rooted : Pathname.isAbsolute bench.disk.cwd = true) (p : Progress) :
    ∃ (rest : Exec Unit) (between : Bench), m.execute ctx p host bench = rest host between ∧
      job.Tidies ctx stem dir left between.disk ∧
      rest.Moves bench.disk.cwd (job.moves ctx stem dir) := by
  have distinct : m.io.Distinct := Job.io_eq made ▸ job.distinct _
  have complete := Context.build_complete distinct rooted built
  have hvalues : m.io.values = declaredValues [] := by
    rw [Job.io_eq made, (job.interface_lists _).2.1]
  obtain ⟨s, hs, hs'⟩ := exists_settings starts.netlist
    (fun d hd => complete.values d (hvalues ▸ hd)) (ctx.takes.str? "sdc")
  have hrequired : ∀ name, .required name ∈ m.io.produces →
      ∃ path, ctx.outputs.get? name = some (.str path) := by
    intro name hd
    obtain ⟨v, hv⟩ := complete.outputs _ hd rfl
    obtain ⟨path, rfl⟩ := single _ _ hv
    exact ⟨path, hv⟩
  cases job with
  | pack =>
    cases made
    obtain ⟨net, hnet⟩ := hrequired "net" List.mem_cons_self
    obtain ⟨util, hutil⟩ := hrequired "util_rpt" (List.mem_of_elem_eq_true rfl)
    obtain ⟨timing, htiming⟩ := hrequired "timing_rpt" (List.mem_of_elem_eq_true rfl)
    have hstart := starts.start_eq (by decide)
    have hnetdir : Pathname.directoryOf net = dir := by
      simpa [Job.directory, Bindings.str?_of_get? hnet] using hdir
    exact pack_runs hnet hutil htiming (single _) hs hs' hnetdir (hstart ▸ writes)
  | place =>
    cases made
    obtain ⟨target, htarget⟩ := hrequired "place" List.mem_cons_self
    have hplace := stays_of_build built complete rooted distinct.produces starts List.mem_cons_self
      htarget (fun base hbase => by
        simp only [Placement.outputs, hbase, Bindings.requirePath_ok starts.netlist]
        rfl) rfl (starts.beside_extension "place" rfl (by decide)) (by decide)
    subst hdir
    exact place_runs starts.netlist hplace hs hs' rfl starts.prepared writes
  | route =>
    cases made
    obtain ⟨target, htarget⟩ := hrequired "route" List.mem_cons_self
    have hroute := stays_of_build built complete rooted distinct.produces starts List.mem_cons_self
      htarget (fun base hbase => by
        simp only [Routing.outputs, hbase, Bindings.requirePath_ok starts.netlist]
        rfl) rfl (starts.beside_extension "route" rfl (by decide)) (by decide)
    have hstart := starts.start_eq (by decide)
    subst hdir hstart
    exact route_runs starts.netlist hroute hs hs' rfl writes
  | analysis =>
    cases made
    obtain ⟨merged, hmerged⟩ := hrequired "merged_post_implementation_v" List.mem_cons_self
    obtain ⟨post, hpost⟩ := hrequired "post_implementation_v" (List.mem_of_elem_eq_true rfl)
    obtain ⟨log, hlog⟩ := hrequired "analysis_log" (List.mem_of_elem_eq_true rfl)
    have houtputs : ∀ base : Context, base.takes = ctx.takes → Timing.outputs base = .ok _ :=
      fun base hbase => by
        simp only [Timing.outputs, hbase, Bindings.requirePath_ok starts.netlist]
        rfl
    have hmerged := stays_of_build built complete rooted distinct.produces starts
      List.mem_cons_self hmerged houtputs
      (by simp [Timing.netlists, Table.ofList, Table.get?_insert])
      (starts.beside_ending "_merged_post_implementation.v" (by decide) (by decide)) (by decide)
    have hpost := stays_of_build built complete rooted distinct.produces starts
      (List.mem_of_elem_eq_true rfl) hpost houtputs
      (by simp [Timing.netlists, Table.ofList, Table.get?_insert])
      (starts.beside_ending "_post_synthesis.v" (by decide) (by decide)) (by decide)
    have hstart := starts.start_eq (by decide)
    subst hdir hstart
    exact analysis_runs starts.netlist hmerged hpost hlog hs hs' rfl writes

end

end Toolflow.Modules.Vpr
