import Toolflow.Proofs.Steps
import Toolflow.Proofs.Wrapping

/-! The phases that modules announce.

A module declares how many phases its runs have before it knows any path. Of the engine's modules
all but one announce their phases along a straight line, so a run that ends well has announced all
of them and one that fails no more. The module that makes directories announces one for each path
its outputs name, which is what it declared exactly if they name as many paths as there are
directories; wrappers only change what it sees. -/
namespace Toolflow

/-- A computation announces a number of phases: so many if it succeeds, and no more if it fails. -/
def Exec.Announces {α : Type} (x : Exec α) (n : Nat) : Prop :=
  ∀ host bench, match x host bench with
    | .ok _ after => after.phases = bench.phases + n
    | .error _ after => after.phases ≤ bench.phases + n

namespace Exec
variable {α β : Type} {x : Exec α} {n m : Nat}

theorem announces_pure (a : α) : Announces (pure a) 0 := fun _ _ => rfl

theorem announces_throw (cause : Failure) : Announces (throw cause : Exec α) n :=
  fun _ _ => Nat.le_add_right _ _

theorem Announces.bind {f : α → Exec β} (hx : x.Announces n) (hf : ∀ a, (f a).Announces m) :
    (x >>= f).Announces (n + m) := by
  intro host bench
  have hfirst := hx host bench
  rw [bind_run]
  cases hrun : x host bench with
  | error cause after =>
    rw [hrun] at hfirst
    dsimp only at hfirst ⊢
    omega
  | ok a after =>
    rw [hrun] at hfirst
    have hrest := hf a host after
    dsimp only at hfirst ⊢
    cases hlast : f a host after with
    | error cause last =>
      rw [hlast] at hrest
      dsimp only at hrest ⊢
      omega
    | ok b last =>
      rw [hlast] at hrest
      dsimp only at hrest ⊢
      omega

/-- What announces nothing may stand before anything. -/
theorem Announces.silently {f : α → Exec β} (hx : x.Announces 0)
    (hf : ∀ a, (f a).Announces n) : (x >>= f).Announces n := by
  have hbind := hx.bind hf
  rwa [Nat.zero_add] at hbind

theorem Announces.during (hx : x.Announces n) (activity : Activity) :
    (Exec.during activity x).Announces n := by
  intro host bench
  have hinside := hx host bench
  unfold Exec.during
  cases hrun : x host bench with
  | ok a after => rwa [hrun] at hinside
  | error cause after => rwa [hrun] at hinside

theorem Announces.forM {f : α → Exec Unit} {count : α → Nat} (l : List α)
    (h : ∀ a ∈ l, (f a).Announces (count a)) : (l.forM f).Announces (l.map count).sum := by
  induction l with
  | nil => exact announces_pure ()
  | cons a rest ih =>
    rw [List.map_cons, List.sum_cons]
    exact (h a List.mem_cons_self).bind fun _ => ih fun b hb => h b (List.mem_cons_of_mem _ hb)

/-- Announcing nothing, whatever the branch. -/
theorem Announces.ite {c : Prop} [Decidable c] {y : Exec α} (hx : x.Announces n)
    (hy : y.Announces n) : (if c then x else y).Announces n := by
  split
  · exact hx
  · exact hy

theorem announces_ofExcept (x : Except Failure α) : (ofExcept x).Announces 0 := by
  cases x with
  | ok a => exact announces_pure a
  | error cause => exact announces_throw cause

theorem announces_disk : disk.Announces 0 := fun _ _ => rfl

theorem announces_host : host.Announces 0 := fun _ _ => rfl

theorem announces_look (activity : Activity) (f : Disk → Except FileFault α) :
    (look activity f).Announces 0 := by
  refine announces_disk.silently fun d => ?_
  cases f d with
  | ok a => exact announces_pure a
  | error fault => exact announces_throw _

theorem announces_change (activity : Activity) (f : Disk → Except FileFault Disk) :
    (change activity f).Announces 0 := by
  refine announces_disk.silently fun d => ?_
  cases f d with
  | ok d => exact fun _ _ => rfl
  | error fault => exact announces_throw _

theorem announces_locateTool (binDir name : String) : (locateTool binDir name).Announces 0 :=
  fun _ _ => rfl

theorem announces_run (c : Command) : c.run.Announces 0 := by
  unfold Command.run
  split
  · exact announces_throw _
  · refine announces_host.silently fun h => announces_disk.silently fun d => ?_
    refine Announces.silently (fun _ _ => rfl) fun _ => ?_
    cases (h.run c d).1 with
    | error fault => exact announces_throw _
    | ok outcome => exact .ite (announces_pure _) (announces_throw _)

/-- The next phase is announced with one message or another. -/
theorem announces_phase (p : Progress) (message : String) : (p.phase message).Announces 1 :=
  fun _ _ => rfl

/-- One phase, and then the phases of what follows. -/
theorem Announces.after_phase {p : Progress} {message : String} {f : Unit → Exec β}
    (hf : ∀ a, (f a).Announces n) : (p.phase message >>= f).Announces (n + 1) := by
  rw [Nat.add_comm]
  exact (announces_phase p message).bind hf

theorem Announces.discard (hx : x.Announces n) : (Functor.discard x : Exec Unit).Announces n :=
  hx.bind fun _ => announces_pure ()

/-- Something that may be left out before the rest. -/
theorem Announces.optionally {c : Prop} {decidable : Decidable c} {y : Exec α}
    (hy : y.Announces n) (hx : y.Announces n → x.Announces n) :
    (if c then x else y).Announces n :=
  .ite (hx hy) hy

/-- A phase whose message depends on how much is reported. -/
theorem Announces.verbosely {c : Prop} {decidable : Decidable c} {p : Progress} {message : String}
    {f : Unit → Exec α} (hf : ∀ a, (f a).Announces n)
    (hx : (∀ a, (f a).Announces n) → x.Announces (n + 1)) :
    (if c then x else p.phase message >>= f).Announces (n + 1) :=
  .ite (hx hf) (.after_phase hf)

end Exec

namespace Modules
open Exec Build
variable {ctx : Context} {p : Progress}

theorem Vpr.announces_run (job : Vpr.Job) (s : Vpr.Settings) (cwd : String) :
    (Vpr.run ctx job s cwd).Announces 0 :=
  (announces_locateTool _ _).silently fun _ => ((Exec.announces_run _).during _).discard

theorem Vpr.announces_moveOutput (source target : String) :
    (Vpr.moveOutput source target).Announces 0 :=
  .ite (announces_change _ _) (announces_pure ())

theorem Vpr.announces_saveLog (dir target : String) : (Vpr.saveLog dir target).Announces 0 :=
  announces_change _ _

theorem Routing.announces_execute : (Routing.execute ctx p).Announces 2 := by
  refine (announces_ofExcept _).silently fun eblif => .after_phase fun _ => ?_
  refine (announces_ofExcept _).silently fun settings => ?_
  refine (Vpr.announces_run _ _ _).silently fun _ => .optionally ?_ fun hlast => ?_
  · exact .after_phase fun _ => Vpr.announces_saveLog _ _
  · refine (announces_ofExcept _).silently fun target => ?_
    exact (Vpr.announces_moveOutput _ _).silently fun _ => hlast

theorem Placement.announces_execute : (Placement.execute ctx p).Announces 2 := by
  refine (announces_ofExcept _).silently fun eblif => .optionally ?_ fun hrun => ?_
  · refine .after_phase fun _ => (announces_ofExcept _).silently fun settings => ?_
    refine (Vpr.announces_run _ _ _).silently fun _ => .optionally ?_ fun hlast => ?_
    · exact .after_phase fun _ => Vpr.announces_saveLog _ _
    · refine (announces_ofExcept _).silently fun target => ?_
      exact (Vpr.announces_moveOutput _ _).silently fun _ => hlast
  · exact (announces_change _ _).silently fun _ => hrun

theorem Timing.announces_execute : (Timing.execute ctx p).Announces 2 := by
  refine (announces_ofExcept _).silently fun eblif => .after_phase fun _ => ?_
  refine (announces_ofExcept _).silently fun settings => ?_
  refine (Vpr.announces_run _ _ _).silently fun _ => ?_
  have hmoves : (Timing.netlists.forM fun e => (do
      if ctx.isExplicit e.1 then
        let target ← Exec.ofExcept (ctx.outputs.requirePath e.1)
        Vpr.moveOutput (Timing.netlistPath eblif e.2) target)).Announces
      (Timing.netlists.map fun _ => 0).sum :=
    .forM _ fun e _ => .ite
      ((announces_ofExcept _).silently fun _ => Vpr.announces_moveOutput _ _) (announces_pure ())
  refine hmoves.silently fun _ => .after_phase fun _ => ?_
  exact (announces_ofExcept _).silently fun log => Vpr.announces_saveLog _ _

theorem Packing.announces_disposeLog (dir : String) : (Packing.disposeLog ctx dir).Announces 0 := by
  unfold Packing.disposeLog
  cases ctx.outputs.str? "pack_log" with
  | some target => exact Vpr.announces_moveOutput _ _
  | none =>
    exact announces_disk.silently fun disk => .ite (announces_change _ _) (announces_pure ())

theorem Packing.announces_execute : (Packing.execute ctx p).Announces 2 := by
  refine (announces_ofExcept _).silently fun net => .after_phase fun _ => ?_
  refine (announces_ofExcept _).silently fun settings => ?_
  refine (Vpr.announces_run _ _ _).silently fun _ => .after_phase fun _ => ?_
  refine (Packing.announces_disposeLog _).silently fun _ => ?_
  cases ctx.outputs.str? "timing_rpt" with
  | some timing =>
    refine (Vpr.announces_moveOutput _ _).silently fun _ => ?_
    cases ctx.outputs.str? "util_rpt" with
    | some utilization => exact Vpr.announces_moveOutput _ _
    | none => exact announces_pure ()
  | none =>
    cases ctx.outputs.str? "util_rpt" with
    | some utilization => exact Vpr.announces_moveOutput _ _
    | none => exact announces_pure ()

theorem Constraints.announces_databaseRoot : (Constraints.databaseRoot ctx).Announces 0 := by
  unfold Constraints.databaseRoot
  cases ctx.env.str? "prjxray_db" with
  | some root => exact announces_pure root
  | none => exact ((Exec.announces_run _).during _).silently fun report => announces_pure _

theorem Constraints.announces_execute : (Constraints.execute ctx p).Announces 2 := by
  refine .after_phase fun _ => Constraints.announces_databaseRoot.silently fun database => ?_
  refine .after_phase fun _ => (announces_ofExcept _).silently fun command => ?_
  refine ((Exec.announces_run _).during _).silently fun stdout => ?_
  exact (announces_ofExcept _).silently fun target => announces_change _ _

theorem Assembly.announces_appendExtra (extra fasm : String) :
    (Assembly.appendExtra extra fasm).Announces 0 :=
  (announces_look _ _).silently fun _ => (announces_look _ _).discard.silently fun _ =>
    announces_change _ _

theorem Assembly.announces_execute : (Assembly.execute ctx p).Announces 2 := by
  refine (announces_ofExcept _).silently fun eblif => (announces_ofExcept _).silently fun s => ?_
  refine (announces_locateTool _ _).silently fun program => ?_
  refine .verbosely (fun _ => ?_) fun hrun => .after_phase hrun
  refine ((Exec.announces_run _).during _).discard.silently fun _ => ?_
  refine (announces_ofExcept _).silently fun fasm => ?_
  refine (announces_ofExcept _).silently fun default => ?_
  refine (Vpr.announces_moveOutput _ _).silently fun _ => ?_
  cases ctx.takes.str? "fasm_extra" with
  | some extra => exact .after_phase fun _ => Assembly.announces_appendExtra _ _
  | none => exact announces_phase _ _

theorem PlaceAndRoute.announces_execute (s : PlaceAndRoute.Setup) :
    (s.execute ctx p).Announces 2 := by
  refine (announces_locateTool _ _).silently fun program => ?_
  refine (announces_ofExcept _).silently fun command => ?_
  refine .verbosely (fun _ => ?_) fun hrun => .after_phase hrun
  refine ((Exec.announces_run _).during _).silently fun stdout => .after_phase fun _ => ?_
  cases ctx.outputs.str? "nextpnr_log" with
  | some log => exact announces_change _ _
  | none => exact announces_pure ()

theorem Script.Job.announces_collect (produced target : String) (isOptional : Bool) :
    (Script.Job.collect produced target isOptional).Announces 0 := by
  refine announces_disk.silently fun disk => .ite ?_ ?_
  · exact .ite (announces_change _ _) (announces_pure ())
  · exact .ite (announces_throw _) (announces_pure ())

/-- Putting an output into its target. -/
theorem Script.Job.announces_write (s : Script.Job) (stdout : ByteArray) (target : String)
    (o : Script.Output) : (do
      match o.mode with
      | .stdout => Exec.change (.writing target) (·.write target stdout)
      | .file =>
        let some file := o.file.bind fun file => (ctx.env.resolveFinal file).str? | return
        Script.Job.collect (Pathname.join (s.workingDirectory ctx) file) target
          o.isOptional).Announces 0 := by
  cases o.mode with
  | stdout => exact announces_change _ _
  | file =>
    cases o.file.bind fun file => (ctx.env.resolveFinal file).str? with
    | some file => exact Script.Job.announces_collect _ _ _
    | none => exact announces_pure ()

theorem Script.Job.announces_deliver (s : Script.Job) (stdout : ByteArray) (name : String)
    (o : Script.Output) : (s.deliver ctx stdout name o).Announces 0 := by
  unfold Script.Job.deliver
  cases ctx.outputs.str? name with
  | none => exact announces_pure ()
  | some target =>
    dsimp only
    cases Pathname.parent? target with
    | some parent =>
      exact (announces_change _ _).silently fun _ => s.announces_write stdout target o
    | none => exact s.announces_write stdout target o

theorem Script.Job.announces_execute (s : Script.Job) : (s.execute ctx p).Announces 2 := by
  refine (announces_ofExcept _).silently fun command => ?_
  refine .verbosely (fun _ => ?_) fun hrun => .after_phase hrun
  refine ((Exec.announces_run _).during _).silently fun stdout => .after_phase fun _ => ?_
  have houtputs : (s.outputs.entries.forM fun e => s.deliver ctx stdout e.1 e.2).Announces
      (s.outputs.entries.map fun _ => 0).sum :=
    .forM _ fun e _ => Script.Job.announces_deliver s stdout e.1 e.2
  simpa using houtputs

theorem Synthesis.announces_yosys (environment : Table String) :
    (Synthesis.yosys ctx environment).Announces 0 :=
  (announces_locateTool _ _).silently fun _ => announces_pure _

theorem Synthesis.announces_synthesize (environment : Table String) :
    (Synthesis.synthesize ctx environment).Announces 0 := by
  refine (announces_ofExcept _).silently fun scripts => ?_
  refine (announces_ofExcept _).silently fun sources => ?_
  dsimp only
  cases ctx.values.get? "read_verilog_args" with
  | some flags => exact (Synthesis.announces_yosys _).silently fun command => announces_pure _
  | none => exact (Synthesis.announces_yosys _).silently fun command => announces_pure _

theorem Synthesis.announces_execute : (Synthesis.execute ctx p).Announces 3 := by
  unfold Synthesis.execute
  dsimp only
  cases (Synthesis.scriptEnvironment ctx).get? "UTILS_PATH" with
  | none => exact announces_throw _
  | some utils =>
    refine (Synthesis.announces_synthesize _).silently fun command => ?_
    refine .verbosely (fun _ => ?_) fun hsplit =>
      (announces_ofExcept _).silently fun sources => .after_phase hsplit
    refine ((Exec.announces_run _).during _).discard.silently fun _ => .after_phase fun _ => ?_
    refine (announces_ofExcept _).silently fun json => ?_
    refine (announces_ofExcept _).silently fun pins => ?_
    refine ((Exec.announces_run _).during _).discard.silently fun _ => ?_
    refine (announces_ofExcept _).silently fun extra => announces_disk.silently fun disk => ?_
    refine .optionally ?_ fun hconvert => (announces_change _ _).silently fun _ => hconvert
    refine .after_phase fun _ => (announces_ofExcept _).silently fun scripts => ?_
    refine (Synthesis.announces_yosys _).silently fun command => ?_
    exact ((Exec.announces_run _).during _).discard

/-- How many paths the outputs of a context name. -/
def pathCount (ctx : Context) : Nat :=
  (ctx.outputs.bound.entries.map fun e => e.2.strings.length).sum

theorem Directories.announces_execute : (Directories.execute ctx p).Announces (pathCount ctx) := by
  refine .forM _ fun e _ => ?_
  have hpaths : (e.2.strings.forM fun dir => (do
      p.phase s!"Creating directory {dir}..."
      Exec.change (.creatingDirectory dir) (·.createDirectories dir))).Announces
      (e.2.strings.map fun _ => 1).sum :=
    .forM _ fun dir _ => .after_phase fun _ => announces_change _ _
  simpa using hpaths

theorem Directories.execute_of_make {args : ModuleArgs} {m : ToolModule}
    (h : Directories.make args = .ok m) : m.execute = Directories.execute := by
  unfold Directories.make at h
  split at h
  · cases h
    rfl
  · cases h
    rfl
  · cases h

/-- A module, bare or inside wrappers, and the context that it is shown there. -/
inductive Around (inside : ToolModule) : ToolModule → (Context → Context) → Prop
  | bare : Around inside inside id
  | wrap {m : ToolModule} {view : Context → Context} (around : Around inside m view)
      (r : Renaming.Renames) (name : String) :
      Around inside (r.wrap name m) fun ctx => view (r.innerView ctx)

section
variable {inside m : ToolModule} {view : Context → Context}

theorem Around.phases (h : Around inside m view) : m.io.phases = inside.io.phases := by
  induction h with
  | bare => rfl
  | wrap _ _ _ ih => exact ih

theorem Around.execute (h : Around inside m view) (ctx : Context) (p : Progress) :
    m.execute ctx p = inside.execute (view ctx) p := by
  induction h generalizing ctx with
  | bare => rfl
  | wrap _ r _ ih => exact ih (r.innerView ctx)

/-- Around a module that makes directories, there are as many phases as paths. -/
theorem Around.announces {args : ModuleArgs} (h : Around inside m view)
    (made : Directories.make args = .ok inside) (ctx : Context) (p : Progress) :
    (m.execute ctx p).Announces (pathCount (view ctx)) := by
  rw [h.execute, Directories.execute_of_make made]
  exact Directories.announces_execute

/-- If a module makes directories, the outputs it is shown name as many paths as it declares. -/
def DirectoriesFit (m : ToolModule) (ctx : Context) : Prop :=
  ∀ args inside view, Directories.make args = .ok inside → Around inside m view →
    pathCount (view ctx) = inside.io.phases

/-- A module announces what it declares, unless it makes directories. -/
def Steady (m : ToolModule) : Prop :=
  (∀ ctx p, (m.execute ctx p).Announces m.io.phases) ∨
    ∃ args inside view, Directories.make args = .ok inside ∧ Around inside m view

theorem Steady.wrap (h : Steady m) (r : Renaming.Renames) (name : String) :
    Steady (r.wrap name m) := by
  rcases h with h | ⟨args, inside, view, made, around⟩
  · exact .inl fun ctx p => h (r.innerView ctx) p
  · exact .inr ⟨args, inside, _, made, around.wrap r name⟩

/-- Every module of the engine, wrappers of wrappers included. -/
theorem steady_made {fuel : Nat} {reference : String} {args : ModuleArgs}
    (h : Registry.made fuel Registry.builtin.answer reference args = .ok m) : Steady m := by
  induction fuel generalizing reference args m with
  | zero => cases h
  | succ fuel ih =>
    obtain ⟨factory, hfactory, h⟩ := bind_eq_ok.mp h
    rw [during_eq_ok] at h
    obtain ⟨name, hmem⟩ := Registry.builtin_answer hfactory
    simp only [Registry.commonModules, List.mem_cons, Prod.mk.injEq, List.not_mem_nil,
      or_false] at hmem
    rcases hmem with ⟨-, rfl⟩ | ⟨-, rfl⟩ | ⟨-, rfl⟩ | ⟨-, rfl⟩ | ⟨-, rfl⟩ | ⟨-, rfl⟩ |
      ⟨-, rfl⟩ | ⟨-, rfl⟩ | ⟨-, rfl⟩ | ⟨-, rfl⟩ | ⟨-, rfl⟩
    · exact .inr ⟨args, m, id, h, .bare⟩
    · obtain ⟨takes, -, h⟩ := bind_eq_ok.mp h
      obtain ⟨extras, -, h⟩ := bind_eq_ok.mp h
      obtain ⟨-, -, h⟩ := bind_eq_ok.mp h
      cases h
      exact .inl fun ctx p => Synthesis.announces_execute
    · obtain ⟨⟨reference, params⟩, -, h⟩ := bind_eq_ok.mp h
      obtain ⟨inner, hinner, h⟩ := bind_eq_ok.mp h
      obtain ⟨takes, -, h⟩ := bind_eq_ok.mp h
      obtain ⟨produces, -, h⟩ := bind_eq_ok.mp h
      obtain ⟨values, -, h⟩ := bind_eq_ok.mp h
      cases h
      exact (ih hinner).wrap _ _
    · obtain ⟨s, -, h⟩ := bind_eq_ok.mp h
      obtain ⟨name, -, h⟩ := bind_eq_ok.mp h
      cases h
      exact .inl fun ctx p => Script.Job.announces_execute s
    · cases h
      exact .inl fun ctx p => Packing.announces_execute
    · cases h
      exact .inl fun ctx p => Constraints.announces_execute
    · cases h
      exact .inl fun ctx p => Placement.announces_execute
    · cases h
      exact .inl fun ctx p => Routing.announces_execute
    · cases h
      exact .inl fun ctx p => Assembly.announces_execute
    · cases h
      exact .inl fun ctx p => Timing.announces_execute
    · obtain ⟨setup, -, h⟩ := bind_eq_ok.mp h
      cases h
      exact .inl fun ctx p => PlaceAndRoute.announces_execute setup

/-- Where each directory is one path, a module of the engine announces what it declares. -/
theorem DirectoriesFit.announces (h : DirectoriesFit m ctx) (steady : Steady m) :
    (m.execute ctx p).Announces m.io.phases := by
  rcases steady with steady | ⟨args, inside, view, made, around⟩
  · exact steady ctx p
  · rw [around.phases, ← h args inside view made around]
    exact around.announces made ctx p

end

/-- A run of a module of the engine, wrapped or not, that ends well has announced as many phases as
the module declares exactly if there are as many directories to make as it declares, where it makes
any; and then no run announces more, whether it ends well or not. -/
theorem phases_announced_iff {reference : String} {args : ModuleArgs} {m : ToolModule}
    {registry : Registry} (made : Registry.builtin.instantiate reference args = .ok (m, registry))
    (ctx : Context) (p : Progress) :
    (∀ host bench after, m.execute ctx p host bench = .ok () after →
      (after.phases = bench.phases + m.io.phases ↔ DirectoriesFit m ctx)) ∧
    (DirectoriesFit m ctx → ∀ host bench,
      (last (m.execute ctx p host bench)).phases ≤ bench.phases + m.io.phases) := by
  have steady := steady_made (Registry.made_of_instantiate made)
  refine ⟨fun host bench after hrun => ⟨fun hphases args inside view hmake around => ?_,
    fun hfit => ?_⟩, fun hfit host bench => ?_⟩
  · have hannounced := around.announces hmake ctx p host bench
    rw [hrun] at hannounced
    have hdeclared := around.phases
    dsimp only at hannounced
    omega
  · have hannounced := hfit.announces (p := p) steady host bench
    rwa [hrun] at hannounced
  · have hannounced := hfit.announces (p := p) steady host bench
    cases hrun : m.execute ctx p host bench with
    | ok _ after =>
      rw [hrun] at hannounced
      exact hannounced.le
    | error _ after => rwa [hrun] at hannounced

/-! Directories on an empty disk. -/
namespace Directories

def emptyDisk : Disk where
  entries := Table.ofList [("/", .directory)]
  cwd := "/"

/-- A host on which no program does anything. -/
def idleHost : Host where
  environment := .empty
  run _ disk := (.ok ⟨.exit 0, .empty, .empty⟩, disk)

/-- Two directories, one of them under another name. -/
def renamed : ModuleArgs where
  params := .map (Table.ofList [("module", .str "common:mkdirs"),
    ("params", .map (Table.ofList [("build", .str "x"), ("logs", .str "y")])),
    ("rename_produces", .map (Table.ofList [("logs", .str "reports")]))])
  env := .empty
  instanceName := "mk"

/-- One directory that is a list of paths. -/
def listed : ModuleArgs where
  params := .map (Table.ofList [("dirs", .list [.str "x", .str "y"])])
  env := .empty
  instanceName := "mk"

/-- A run on the empty disk. -/
def run (m : ToolModule) (ctx : Context) : EStateM.Result Failure Bench Unit :=
  m.execute ctx ⟨.of 0 true, m.io.phases⟩ idleHost { disk := emptyDisk }

/-- Whether a module declares and announces so many phases on the empty disk. -/
def announces (made : ToolModule × Registry) (declared announced : Nat) : Bool :=
  okAnd (Context.build made.1 "mk" {} .empty {} emptyDisk) fun ctx =>
    made.1.io.phases = declared && doneAnd (run made.1 ctx) fun _ after => after.phases = announced

theorem exists_of_announces {made : ToolModule × Registry} {declared announced : Nat}
    (h : announces made declared announced = true) : ∃ ctx after,
    Context.build made.1 "mk" {} .empty {} emptyDisk = .ok ctx ∧ made.1.io.phases = declared ∧
      run made.1 ctx = .ok () after ∧ after.phases = announced := by
  obtain ⟨ctx, hctx, hchecks⟩ := exists_of_okAnd h
  obtain ⟨hdeclared, hrun⟩ := Bool.and_eq_true_iff.mp hchecks
  obtain ⟨_, after, hrun, hphases⟩ := exists_of_doneAnd hrun
  exact ⟨ctx, after, hctx, of_decide_eq_true hdeclared, hrun, of_decide_eq_true hphases⟩

end Directories

/-- Renaming one of two directories changes nothing in the count. -/
theorem renamed_directories_announced : ∃ m registry ctx,
    Registry.builtin.instantiate "common:io_rename" Directories.renamed = .ok (m, registry) ∧
    Context.build m "mk" {} .empty {} Directories.emptyDisk = .ok ctx ∧
    m.io.phases = 2 ∧ DirectoriesFit m ctx ∧
    ∀ host bench, (last (m.execute ctx ⟨.of 0 true, m.io.phases⟩ host bench)).phases ≤
      bench.phases + m.io.phases := by
  have hchecks : okAnd (Registry.builtin.instantiate "common:io_rename" Directories.renamed)
      (Directories.announces · 2 2) = true := by
    decide +kernel
  obtain ⟨⟨m, registry⟩, hmade, hchecks⟩ := exists_of_okAnd hchecks
  obtain ⟨ctx, after, hctx, hdeclared, hrun, hphases⟩ := Directories.exists_of_announces hchecks
  obtain ⟨hiff, hbound⟩ := phases_announced_iff hmade ctx ⟨.of 0 true, m.io.phases⟩
  have hfit : DirectoriesFit m ctx := (hiff _ _ after hrun).mp (by
    rw [hphases]
    exact (congrArg (0 + ·) hdeclared).symm)
  exact ⟨m, registry, ctx, hmade, hctx, hdeclared, hfit, hbound hfit⟩

/-- A list of two paths is declared as one phase and announced as two. -/
theorem listed_directories_overannounced : ∃ m registry ctx after,
    Registry.builtin.instantiate "common:mkdirs" Directories.listed = .ok (m, registry) ∧
    Context.build m "mk" {} .empty {} Directories.emptyDisk = .ok ctx ∧
    Directories.run m ctx = .ok () after ∧ m.io.phases = 1 ∧ after.phases = 2 := by
  have hchecks : okAnd (Registry.builtin.instantiate "common:mkdirs" Directories.listed)
      (Directories.announces · 1 2) = true := by
    decide +kernel
  obtain ⟨⟨m, registry⟩, hmade, hchecks⟩ := exists_of_okAnd hchecks
  obtain ⟨ctx, after, hctx, hdeclared, hrun, hphases⟩ := Directories.exists_of_announces hchecks
  exact ⟨m, registry, ctx, after, hmade, hctx, hrun, hdeclared, hphases⟩

end Modules
end Toolflow
