import Toolflow.Proofs.Footprints

/-! Copying, the plainest work a module can do.

Files directly below the root are easy to follow: such a path leads to its own entry, so writing one
leaves the others alone. A module that copies one of its takes to such a file is confined, and what
it leaves depends on nothing but the file it reads. -/
namespace Toolflow

/-- Whether a path names a file directly below the root. -/
def isTopLevel (path : String) : Bool :=
  Pathname.isAbsolute path && !path.isEmpty && !Disk.meansDirectory path && path != "/" &&
    Disk.above path == "/" &&
    match Pathname.names path with
    | [name] => name != ".." && Disk.child "/" name == path
    | _ => false

theorem isTopLevel_spec {path : String} (h : isTopLevel path = true) :
    Pathname.isAbsolute path = true ∧ path.isEmpty = false ∧ Disk.meansDirectory path = false ∧
      path ≠ "/" ∧ Disk.above path = "/" ∧
      ∃ name, Pathname.names path = [name] ∧ name ≠ ".." ∧ Disk.child "/" name = path := by
  unfold isTopLevel at h
  cases hnames : Pathname.names path with
  | nil => simp [hnames] at h
  | cons name rest =>
    cases rest with
    | cons => simp [hnames] at h
    | nil =>
      simp only [hnames, Bool.and_eq_true, Bool.not_eq_true', bne_iff_ne, beq_iff_eq] at h
      obtain ⟨⟨⟨⟨⟨habsolute, hempty⟩, hname⟩, hroot⟩, habove⟩, hne, hchild⟩ := h
      exact ⟨habsolute, hempty, hname, hroot, habove, name, rfl, hne, hchild⟩

namespace Disk
variable {disk : Disk} {path : String}

/-- What an entry holds. -/
def contentOf : Option Entry → Content
  | none => .missing
  | some .directory => .directory
  | some (.file bytes _) => .file bytes

theorem locate_topLevel (h : isTopLevel path = true)
    (root : disk.entries.get? "/" = some .directory) : disk.locate path = .ok path := by
  obtain ⟨habsolute, hempty, -, -, -, name, hnames, hne, hchild⟩ := isTopLevel_spec h
  simp only [locate, hempty, habsolute, hnames, follow, hne, hchild, root, if_true, if_false,
    Bool.false_eq_true]

theorem locate_rootless (h : isTopLevel path = true)
    (root : disk.entries.get? "/" ≠ some .directory) :
    ∃ fault, disk.locate path = .error fault := by
  obtain ⟨habsolute, hempty, -, -, -, name, hnames, hne, hchild⟩ := isTopLevel_spec h
  simp only [locate, hempty, habsolute, hnames, follow, if_true, if_false, Bool.false_eq_true]
  cases hroot : disk.entries.get? "/" with
  | none => exact ⟨_, rfl⟩
  | some entry =>
    cases entry with
    | file => exact ⟨_, rfl⟩
    | directory => exact absurd hroot root

theorem contentAt_topLevel (h : isTopLevel path = true)
    (root : disk.entries.get? "/" = some .directory) :
    disk.contentAt path = contentOf (disk.entries.get? path) := by
  obtain ⟨-, -, hname, -⟩ := isTopLevel_spec h
  unfold contentAt lookup? find
  rw [locate_topLevel h root]
  simp only [Bind.bind, Except.bind, hname]
  cases disk.entries.get? path with
  | none => rfl
  | some entry => cases entry <;> rfl

/-- A write below the root puts a file at its own path. -/
theorem write_topLevel {content : ByteArray} {after : Disk} (h : isTopLevel path = true)
    (hwrite : disk.write path content = .ok after) :
    disk.entries.get? "/" = some .directory ∧
      ∃ executable, after = disk.put path (.file content executable) := by
  obtain ⟨-, -, hname, -, habove, -⟩ := isTopLevel_spec h
  unfold write at hwrite
  by_cases root : disk.entries.get? "/" = some .directory
  · rw [locate_topLevel h root] at hwrite
    refine ⟨root, ?_⟩
    simp only [Bind.bind, Except.bind, hname, habove, root] at hwrite
    cases hentry : disk.entries.get? path with
    | none =>
      rw [hentry] at hwrite
      exact ⟨false, (Except.ok.inj hwrite).symm⟩
    | some entry =>
      rw [hentry] at hwrite
      cases entry with
      | directory => cases hwrite
      | file old executable => exact ⟨executable, (Except.ok.inj hwrite).symm⟩
  · obtain ⟨fault, hfault⟩ := locate_rootless h root
    rw [hfault] at hwrite
    cases hwrite

/-- It changes what stands at its path, and nowhere else below the root. -/
theorem contentAt_write {content : ByteArray} {after : Disk} (h : isTopLevel path = true)
    (hwrite : disk.write path content = .ok after) :
    after.cwd = disk.cwd ∧ after.contentAt path = .file content ∧
      ∀ other, isTopLevel other = true → other ≠ path →
        after.contentAt other = disk.contentAt other := by
  obtain ⟨root, executable, rfl⟩ := write_topLevel h hwrite
  obtain ⟨-, -, -, hne, -⟩ := isTopLevel_spec h
  have hkept : (disk.put path (.file content executable)).entries.get? "/" = some .directory := by
    rw [put, Table.get?_insert_of_ne _ _ (Ne.symm hne), root]
  refine ⟨rfl, ?_, fun other hother hne => ?_⟩
  · rw [contentAt_topLevel h hkept]
    simp [put, contentOf]
  · rw [contentAt_topLevel hother hkept, contentAt_topLevel hother root, put,
      Table.get?_insert_of_ne _ _ hne]

theorem contentAt_empty (disk : Disk) : disk.contentAt "" = .missing := by
  simp [contentAt, lookup?, find, locate, Bind.bind, Except.bind]

theorem contentAt_of_read {bytes : ByteArray} (h : disk.read path = .ok bytes) :
    disk.contentAt path = .file bytes := by
  unfold read at h
  unfold contentAt lookup?
  cases hfind : disk.find path with
  | error fault =>
    rw [hfind] at h
    cases h
  | ok found =>
    obtain ⟨place, entry⟩ := found
    rw [hfind] at h
    cases entry with
    | directory => cases h
    | file content executable =>
      cases h
      rfl

end Disk

namespace Exec
variable {α β : Type} (activity : Activity) (host : Host) (bench : Bench)

theorem bind_run (x : Exec α) (f : α → Exec β) :
    (x >>= f) host bench =
      match x host bench with
      | .ok a after => f a host after
      | .error cause after => .error cause after := by
  show EStateM.bind (x host) (fun a => f a host) bench = _
  unfold EStateM.bind
  cases x host bench <;> rfl

theorem look_run (f : Disk → Except FileFault α) :
    look activity f host bench =
      match f bench.disk with
      | .ok a => .ok a bench
      | .error fault => .error (.during activity (.file fault)) bench := by
  unfold look
  rw [bind_run]
  show (match f bench.disk with | .ok a => _ | .error fault => _ : Exec α) host bench = _
  cases f bench.disk <;> rfl

theorem change_run (f : Disk → Except FileFault Disk) :
    change activity f host bench =
      match f bench.disk with
      | .ok disk => .ok () { bench with disk }
      | .error fault => .error (.during activity (.file fault)) bench := by
  unfold change
  rw [bind_run]
  show (match f bench.disk with | .ok disk => _ | .error fault => _ : Exec Unit) host bench = _
  cases f bench.disk <;> rfl

/-- What succeeds has succeeded in both parts. -/
theorem exists_of_bind {host : Host} {bench after : Bench} {x : Exec α} {f : α → Exec β} {b : β}
    (h : (x >>= f) host bench = .ok b after) :
    ∃ a between, x host bench = .ok a between ∧ f a host between = .ok b after := by
  rw [bind_run] at h
  cases hx : x host bench with
  | ok a between =>
    rw [hx] at h
    exact ⟨a, between, rfl, h⟩
  | error cause failed =>
    rw [hx] at h
    cases h

theorem bind_ok {host : Host} {bench between : Bench} {x : Exec α} {a : α}
    (h : x host bench = .ok a between) (f : α → Exec β) :
    (x >>= f) host bench = f a host between := by
  rw [bind_run, h]

theorem disk_run : disk host bench = .ok bench.disk bench := rfl

theorem host_run : Exec.host host bench = .ok host bench := rfl

theorem locateTool_run (binDir name : String) :
    locateTool binDir name host bench = .ok (host.locateTool bench.disk binDir name) bench := rfl

theorem discard_ok {host : Host} {bench after : Bench} {x : Exec α} {a : α}
    (h : x host bench = .ok a after) : discard x host bench = .ok () after := by
  have hrun : discard x host bench = (x >>= fun _ => pure ()) host bench := rfl
  rw [hrun, bind_ok h]
  rfl

theorem ofExcept_ok {x : Except Failure α} {a : α} (h : x = .ok a) :
    ofExcept x host bench = .ok a bench := by
  rw [h]
  rfl

theorem during_eq_ok_iff {host : Host} {bench after : Bench} {x : Exec α} {a : α} :
    during activity x host bench = .ok a after ↔ x host bench = .ok a after := by
  unfold during
  cases x host bench with
  | ok b last => rfl
  | error cause last => exact ⟨nofun, nofun⟩

theorem change_eq_ok_iff {host : Host} {bench after : Bench} {f : Disk → Except FileFault Disk} :
    change activity f host bench = .ok () after ↔
      ∃ disk, f bench.disk = .ok disk ∧ after = { bench with disk } := by
  rw [change_run]
  cases f bench.disk with
  | ok disk =>
    constructor
    · rintro ⟨⟩
      exact ⟨disk, rfl, rfl⟩
    · rintro ⟨_, ⟨⟩, rfl⟩
      rfl
  | error fault =>
    constructor
    · rintro ⟨⟩
    · rintro ⟨_, ⟨⟩, -⟩

/-- A phase is announced on the same disk. -/
theorem phase_run (p : Progress) (message : String) :
    ∃ after, p.phase message host bench = .ok () after ∧ after.disk = bench.disk := ⟨_, rfl, rfl⟩

end Exec

/-- What a command does on a host. -/
theorem Command.run_run {c : Command} {program : String} {words : List String}
    (hargv : c.argv = program :: words) (host : Host) (bench : Bench) :
    c.run host bench = match host.run c bench.disk with
      | (.error fault, disk) =>
        .error (.during (.starting program) (.file fault)) { bench with disk }
      | (.ok outcome, disk) =>
        if outcome.ending = .exit 0 then .ok outcome.stdout { bench with disk }
        else .error (.program program outcome.ending (Text.trim (Text.ofUtf8 outcome.stderr)))
          { bench with disk } := by
  unfold Command.run
  rw [hargv]
  change (Exec.host >>= _) host bench = _
  rw [Exec.bind_ok (Exec.host_run host bench), Exec.bind_ok (Exec.disk_run host bench)]
  obtain ⟨result, left⟩ := host.run c bench.disk
  cases result with
  | error fault => rfl
  | ok outcome =>
    by_cases hexit : outcome.ending = .exit 0
    · simp only [hexit, if_true]
      rfl
    · simp only [hexit, if_false]
      rfl

/-- A command succeeds exactly if it names a program that starts and ends with exit code 0. -/
theorem Command.run_eq_ok_iff {c : Command} {host : Host} {bench after : Bench}
    {stdout : ByteArray} : c.run host bench = .ok stdout after ↔ c.argv ≠ [] ∧
      ∃ outcome left, host.run c bench.disk = (.ok outcome, left) ∧ outcome.ending = .exit 0 ∧
        stdout = outcome.stdout ∧ after = { bench with disk := left } := by
  cases hargv : c.argv with
  | nil =>
    refine iff_of_false (fun h => ?_) fun h => h.1 rfl
    unfold Command.run at h
    rw [hargv] at h
    cases h
  | cons program words =>
    rw [Command.run_run hargv]
    obtain ⟨result, left⟩ := host.run c bench.disk
    cases result with
    | error fault =>
      constructor
      · rintro ⟨⟩
      · rintro ⟨-, _, _, ⟨⟩, -⟩
    | ok outcome =>
      dsimp only
      by_cases hexit : outcome.ending = .exit 0
      · rw [if_pos hexit]
        constructor
        · rintro ⟨⟩
          exact ⟨List.cons_ne_nil _ _, outcome, left, rfl, hexit, rfl, rfl⟩
        · rintro ⟨-, _, _, ⟨⟩, -, rfl, rfl⟩
          rfl
      · rw [if_neg hexit]
        constructor
        · rintro ⟨⟩
        · rintro ⟨-, _, _, ⟨⟩, hother, -⟩
          exact absurd hother hexit

/-- A module that copies the file of a take to a fixed place. -/
def copier (io : Interface) (source product out : String) : ToolModule where
  io
  outputs _ := .ok (Table.empty.insert product (.str out))
  execute ctx _ := do
    let path := (ctx.takes.str? source).getD ""
    let content ← Exec.look (.reading path) (·.read path)
    Exec.change (.writing out) (·.write out content)

theorem copier_run (io : Interface) (source product out : String) (ctx : Context)
    (progress : Progress) (host : Host) (bench : Bench) :
    (copier io source product out).execute ctx progress host bench =
      match bench.disk.read ((ctx.takes.str? source).getD "") with
      | .ok content =>
        match bench.disk.write out content with
        | .ok disk => .ok () { bench with disk }
        | .error fault => .error (.during (.writing out) (.file fault)) bench
      | .error fault =>
        .error (.during (.reading ((ctx.takes.str? source).getD "")) (.file fault)) bench := by
  show (Exec.look _ _ >>= _) host bench = _
  rw [Exec.bind_run, Exec.look_run]
  cases bench.disk.read ((ctx.takes.str? source).getD "") with
  | error fault => rfl
  | ok content =>
    dsimp only
    rw [Exec.change_run]

/-- A copy either fails and changes nothing, or leaves what it read. -/
theorem copier_ran {stage : Stage} {io : Interface} {source product out : String}
    (hmodule : stage.module = copier io source product out) {r : Reporter} {ctx : Context}
    {host : Host} {disk : Disk} {result : EStateM.Result Failure Bench Unit}
    (ran : stage.Ran r ctx host disk result) :
    (∃ cause bench, result = .error cause bench ∧ bench.disk = disk) ∨
    ∃ content bench, result = .ok () bench ∧
      disk.contentAt ((ctx.takes.str? source).getD "") = .file content ∧
      disk.write out content = .ok bench.disk := by
  obtain ⟨bench, rfl, -, hrun⟩ := ran
  rw [hmodule, copier_run] at hrun
  subst hrun
  cases hread : bench.disk.read ((ctx.takes.str? source).getD "") with
  | error fault => exact Or.inl ⟨_, bench, rfl, rfl⟩
  | ok content =>
    dsimp only
    cases hwrite : bench.disk.write out content with
    | error fault => exact Or.inl ⟨_, bench, rfl, rfl⟩
    | ok disk => exact Or.inr ⟨content, _, rfl, Disk.contentAt_of_read hread, hwrite⟩

section
variable {flow : Flow} {paths : List String} {step : PlanStep} {io : Interface}
  {source product out : String}

/-- Copying is confined to a file below the root that is planned as an output. -/
theorem copier_confined (htop : isTopLevel out = true)
    (hmodule : ∀ stage, flow.stages.get? step.stage = some stage →
      stage.module = copier io source product out)
    (hout : out ∈ step.outputPaths) (htops : ∀ path ∈ paths, isTopLevel path = true) :
    Confined flow paths step := by
  refine ⟨fun {stage ctx r host disk result} reached ran => ?_⟩
  rcases copier_ran (hmodule stage reached.known) ran with
    ⟨cause, bench, rfl, hdisk⟩ | ⟨content, bench, rfl, -, hwrite⟩
  · rw [Build.last, hdisk]
    exact ⟨rfl, fun _ _ _ => rfl⟩
  · obtain ⟨hcwd, -, hkept⟩ := Disk.contentAt_write htop hwrite
    refine ⟨hcwd, fun path hpath hfree => hkept path (htops path hpath) ?_⟩
    rintro rfl
    exact hfree hout

/-- What a copy leaves stood at the path of its take. -/
theorem copier_left {stage : Stage} (hmodule : stage.module = copier io source product out)
    (htop : isTopLevel out = true) {r : Reporter} {ctx : Context} {host : Host} {disk : Disk}
    {bench : Bench} (ran : stage.Ran r ctx host disk (.ok () bench)) :
    bench.disk.contentAt out = disk.contentAt ((ctx.takes.str? source).getD "") := by
  rcases copier_ran hmodule ran with
    ⟨cause, failed, hfailed, -⟩ | ⟨content, after, hok, hread, hwrite⟩
  · cases hfailed
  · cases hok
    rw [hread, (Disk.contentAt_write htop hwrite).2.1]

/-- Copying to the only planned output is deterministic. -/
theorem copier_deterministic (htop : isTopLevel out = true)
    (hmodule : ∀ stage, flow.stages.get? step.stage = some stage →
      stage.module = copier io source product out)
    (hout : step.outputPaths = [out]) (htops : ∀ path ∈ paths, isTopLevel path = true) :
    Deterministic flow paths step := by
  refine ⟨copier_confined htop hmodule (by rw [hout]; exact List.mem_singleton_self _) htops,
    fun {stage ctx octx r or host ohost disk odisk bench obench} reached oreached ran oran _ htakes
      hsame path hpath => ?_⟩
  rw [hout] at hpath
  rw [List.mem_singleton.mp hpath, copier_left (hmodule stage reached.known) htop ran,
    copier_left (hmodule stage oreached.known) htop oran]
  have hpaths : octx.takes.str? source = ctx.takes.str? source := by
    simp only [Bindings.str?, htakes]
  rw [hpaths]
  cases hsource : ctx.takes.str? source with
  | none => rw [Option.getD_none, Disk.contentAt_empty, Disk.contentAt_empty]
  | some file =>
    obtain ⟨v, hv, hfile⟩ := Option.bind_eq_some_iff.mp hsource
    cases v with
    | str text =>
      cases hfile
      exact hsame source _ hv _ (List.mem_singleton_self _)
    | _ => cases hfile

end

/-! A flow of two copies: the second passes on what the first has made. -/
namespace Relay

def first : ToolModule :=
  copier {
    name := "first"
    takes := [.required "src"]
    produces := [.required "mid"] } "src" "mid" "/mid"

def second : ToolModule :=
  copier {
    name := "second"
    takes := [.required "mid", .optional "extra"]
    produces := [.required "out"] } "mid" "out" "/out"

def flow : Flow where
  part := "part"
  platform := "relay"
  stages := Table.ofList [
    ("first", ⟨"first", "relay:first", first, .empty, .empty⟩),
    ("second", ⟨"second", "relay:second", second, .empty, .empty⟩)]
  dependencies := Table.ofList [("extra", .str "/extra"), ("src", .str "/src")]
  defaultTarget := none
  roots := {}

/-- The sources of the relay; the optional one is missing. -/
def disk : Disk where
  entries := Table.ofList [("/", .directory), ("/src", .file (ByteArray.mk #[1]) false)]
  cwd := "/"

/-- A host on which no program can be started. -/
def host : Host := ⟨.empty, fun _ disk => (.error .notFound, disk)⟩

def silent : Reporter := ⟨-1⟩

theorem flow_named : flow.Named := Flow.named_of_all (by decide +kernel)

theorem stage_first {stage : Stage} (h : flow.stages.get? "first" = some stage) :
    stage.module = copier first.io "src" "mid" "/mid" := by
  cases h
  rfl

theorem stage_second {stage : Stage} (h : flow.stages.get? "second" = some stage) :
    stage.module = copier second.io "mid" "out" "/out" := by
  cases h
  rfl

/-- Whether a step is one of the two and is planned to write what its module writes. -/
def isCopy (step : PlanStep) : Bool :=
  (step.stage == "first" && step.outputPaths == ["/mid"]) ||
    (step.stage == "second" && step.outputPaths == ["/out"])

/-- The steps of a relay are deterministic. -/
theorem deterministic {steps : List PlanStep} {paths : List String}
    (hsteps : steps.all isCopy = true) (hpaths : paths.all isTopLevel = true) :
    ∀ step ∈ steps, Deterministic flow paths step := by
  intro step hstep
  have htops : ∀ path ∈ paths, isTopLevel path = true := List.all_eq_true.mp hpaths
  have hcheck := List.all_eq_true.mp hsteps step hstep
  simp only [isCopy, Bool.or_eq_true, Bool.and_eq_true, beq_iff_eq] at hcheck
  rcases hcheck with ⟨hname, hout⟩ | ⟨hname, hout⟩
  · exact copier_deterministic (by decide) (fun stage h => stage_first (hname ▸ h)) hout htops
  · exact copier_deterministic (by decide) (fun stage h => stage_second (hname ▸ h)) hout htops

end Relay

/-! A flow of one copy, with an optional take beside the one that is copied. -/
namespace Annex

def copy : ToolModule :=
  copier {
    name := "copy"
    takes := [.required "src", .optional "extra"]
    produces := [.required "out"] } "src" "out" "/out"

/-- The optional take is bound to a value of choice. The stage has a variable that planning does not
know. -/
def flow (extra : Value) : Flow where
  part := "part"
  platform := "annex"
  stages := Table.ofList [("copy", ⟨"copy", "annex:copy", copy, .empty,
    ⟨Table.ofList [("lib", .str "x")]⟩⟩)]
  dependencies := Table.ofList [("extra", extra), ("src", .str "/src")]
  defaultTarget := none
  roots := {}

/-- The source and one more file. -/
def disk : Disk where
  entries := Table.ofList [("/", .directory), ("/src", .file (ByteArray.mk #[1]) false),
    ("/x", .file (ByteArray.mk #[2]) false)]
  cwd := "/"

theorem confined {extra : Value} {step : PlanStep} {paths : List String}
    (hstage : step.stage = "copy") (hout : "/out" ∈ step.outputPaths)
    (hpaths : paths.all isTopLevel = true) : Confined (flow extra) paths step := by
  have hmodule : ∀ stage, (flow extra).stages.get? step.stage = some stage →
      stage.module = copier copy.io "src" "out" "/out" := by
    intro stage hknown
    rw [hstage] at hknown
    cases hknown
    rfl
  exact copier_confined (by decide) hmodule hout (List.all_eq_true.mp hpaths)

end Annex
end Toolflow
