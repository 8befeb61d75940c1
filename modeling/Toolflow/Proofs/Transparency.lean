import Toolflow.Proofs.InputReuse
import Toolflow.Proofs.RenamedContexts

/-! What a wrapped module sees.

The bindings of a wrapped module carry its own names, but its environment is that of the flow: the
values and the path variables there carry outer names. A module that is asked to resolve no text
with such a name cannot tell: its context is built where the wrapper's is, its products go to the
same paths, and it does the same. A script that refers to a take by its own name can: the wrapper
resolves the reference to nothing. -/
namespace Toolflow
namespace Modules.Renaming

/-- No text that the stage has to resolve refers to a touched name: what it is given, what its
values resolve to, and where its products go by default. -/
structure Renames.Unmentioned (r : Renames) (m : ToolModule) (stage : String)
    (inputs : StageInputs) (env : Environment) (roots : Roots) (disk : Disk) : Prop where
  takes : ∀ d ∈ m.io.takes, ∀ v ∈ inputs.takes.get? d.name, v.Clear r.Hidden
  produces : ∀ d ∈ m.io.produces, ∀ v ∈ inputs.produces.get? d.name, v.Clear r.Hidden
  values : ∀ d ∈ m.io.values, ∀ v ∈ env.get? d.name, v.Clear r.Hidden
  resolved : (Context.assembled m.io stage inputs env roots disk).Clear r.Hidden
  defaults : ∀ defaults, m.outputs (.assembled m.io stage inputs env roots disk) = .ok defaults →
    ∀ e ∈ defaults.entries, e.2.Clear r.Hidden

section
variable {r : Renames} {ctx : Context} {stage : String} {inputs outer : StageInputs}
  {env outerEnv : Environment} {roots : Roots} {disk : Disk}

section
variable {m : ToolModule} (name : String) (apart : r.Apart m.io)
  (hands : r.Hands m.io inputs outer env outerEnv)
  (unmentioned : r.Unmentioned m stage inputs env roots disk) (wrappable : Wrappable r.Hidden m)

include apart hands unmentioned

/-- The environments of both contexts differ in touched names only. -/
theorem assembled_env_beyond :
    (Context.assembled m.io stage inputs env roots disk).env.AgreeBeyond r.Hidden
      (Context.assembled (r.interface name m.io) stage outer outerEnv roots disk).env := by
  unfold Context.assembled
  dsimp only
  rw [boundTakes_renamed apart hands unmentioned.takes]
  exact path_env_beyond apart hands (fits_assembled m.io stage inputs env roots disk).takes disk.cwd

include wrappable

/-- The wrapper asks the module inside for its outputs. -/
theorem outputs_outerView :
    (r.wrap name m).outputs
        (Context.assembled (r.interface name m.io) stage outer outerEnv roots disk) =
      m.outputs (Context.assembled m.io stage inputs env roots disk) >>= fun defaults =>
        .ok (renameKeys r.produces defaults) := by
  have hassembled := assembled_renamed stage roots disk apart hands name unmentioned.takes
    unmentioned.produces unmentioned.values
  have hagree := assembled_env_beyond name apart hands unmentioned
  have hinside := wrappable.overlooks.outputs _ _ unmentioned.resolved hagree
  rw [hassembled]
  show (m.outputs (r.innerView (r.outerView _ _)) >>= fun defaults =>
    Except.ok (renameKeys r.produces defaults)) = _
  rw [innerView_outerView apart (fits_assembled ..), hinside]

/-- The context of a wrapper is built where that of the module inside is, and is that context under
outer names. -/
theorem build_wrap_eq_ok_iff (octx : Context) :
    Context.build (r.wrap name m) stage outer outerEnv roots disk = .ok octx ↔
      ∃ ctx, Context.build m stage inputs env roots disk = .ok ctx ∧
        octx = r.outerView ctx
          (Context.assembled (r.interface name m.io) stage outer outerEnv roots disk).env := by
  have hassembled := assembled_renamed stage roots disk apart hands name unmentioned.takes
    unmentioned.produces unmentioned.values
  have hagree := assembled_env_beyond name apart hands unmentioned
  have houtputs := outputs_outerView name apart hands unmentioned wrappable
  have hprovided : Context.Provided (r.interface name m.io) outer outerEnv ↔
      Context.Provided m.io inputs env := provided_iff hands
  have hfits := fits_assembled m.io stage inputs env roots disk
  have htakes := Bindings.checkResolved_renamed apart.takes hfits.takes
  have hio : (r.wrap name m).io = r.interface name m.io := rfl
  generalize (Context.assembled (r.interface name m.io) stage outer outerEnv roots disk).env = oenv
    at hassembled hagree ⊢
  rw [Context.build_assembled_iff, hio, houtputs, hassembled, hprovided]
  simp only [Context.build_assembled_iff]
  constructor
  · rintro ⟨hgiven, _, _, hplaced, hproduces, hresolved, hproduced, rfl⟩
    obtain ⟨defaults, hmapped, ⟨⟩⟩ := bind_eq_ok.mp hplaced
    have hclear := unmentioned.defaults defaults hmapped
    obtain ⟨outputs, hinner, rfl⟩ := (bindOutputs_outerView apart hands hfits hagree
      (wrappable.places _ _ hmapped) hclear).mp hproduces
    have hwithin := within_bindOutputs hinner
    exact ⟨_, ⟨hgiven, defaults, outputs, hmapped, hinner, htakes.mp hresolved,
      (Bindings.checkResolved_renamed apart.produces hwithin).mp hproduced, rfl⟩, rfl⟩
  · rintro ⟨_, ⟨hgiven, defaults, outputs, hmapped, hinner, hresolved, hproduced, rfl⟩, rfl⟩
    have hclear := unmentioned.defaults defaults hmapped
    have hwithin := within_bindOutputs hinner
    have hproduces := (bindOutputs_outerView apart hands hfits hagree
      (wrappable.places _ _ hmapped) hclear).mpr ⟨outputs, hinner, rfl⟩
    exact ⟨hgiven, _, _, bind_eq_ok.mpr ⟨defaults, hmapped, rfl⟩, hproduces, htakes.mpr hresolved,
      (Bindings.checkResolved_renamed apart.produces hwithin).mpr hproduced, rfl⟩

/-- It does what the module inside does. -/
theorem execute_outerView
    (h : Context.build m stage inputs env roots disk = .ok ctx) :
    (r.wrap name m).execute (r.outerView ctx
        (Context.assembled (r.interface name m.io) stage outer outerEnv roots disk).env) =
      m.execute ctx := by
  obtain ⟨-, defaults, outputs, -, houtputs, -, -, hctx⟩ := Context.build_assembled_iff.mp h
  have hfits : Fits m.io ctx := hctx ▸
    { fits_assembled m.io stage inputs env roots disk with outputs := within_bindOutputs houtputs }
  have hclear : ctx.Clear r.Hidden := hctx ▸ unmentioned.resolved
  have hagree : ctx.env.AgreeBeyond r.Hidden
      (Context.assembled (r.interface name m.io) stage outer outerEnv roots disk).env :=
    hctx ▸ assembled_env_beyond name apart hands unmentioned
  funext progress
  show m.execute (r.innerView (r.outerView _ _)) progress = _
  rw [innerView_outerView apart hfits, wrappable.overlooks.execute _ _ hclear hagree]

end

/-- A wrapper of a builtin module, wrapped or not, is transparent as long as no text that the stage
resolves refers to a renamed value or a path variable of a renamed take, and no value is renamed
that the engine's modules look up by themselves: its context is built exactly when that of the
module inside is, its products are those of the module inside under outer names, and it does the
same. -/
theorem wrap_transparent {reference : String} (name : String) {args : ModuleArgs} {m : ToolModule}
    {registry : Registry} (made : Registry.builtin.instantiate reference args = .ok (m, registry))
    (ordered : args.params.Ordered) (clear : args.params.Clear r.Hidden)
    (settings : ∀ setting ∈ settingNames, ¬ r.Hidden setting) (apart : r.Apart m.io)
    (hands : r.Hands m.io inputs outer env outerEnv)
    (unmentioned : r.Unmentioned m stage inputs env roots disk) :
    ((∃ octx, Context.build (r.wrap name m) stage outer outerEnv roots disk = .ok octx) ↔
      ∃ ctx, Context.build m stage inputs env roots disk = .ok ctx) ∧
    ∀ octx ctx, Context.build (r.wrap name m) stage outer outerEnv roots disk = .ok octx →
      Context.build m stage inputs env roots disk = .ok ctx →
      octx.outputs.entries = renameKeys r.produces ctx.outputs.entries ∧
        ∀ progress, (r.wrap name m).execute octx progress = m.execute ctx progress := by
  have wrappable := Registry.wrappable_made settings clear ordered
    (Registry.made_of_instantiate made)
  have hbuild := fun octx =>
    build_wrap_eq_ok_iff name apart hands unmentioned wrappable octx
  refine ⟨⟨?_, ?_⟩, fun octx ctx hoctx hctx => ?_⟩
  · rintro ⟨octx, hoctx⟩
    obtain ⟨ctx, hctx, -⟩ := (hbuild octx).mp hoctx
    exact ⟨ctx, hctx⟩
  · rintro ⟨ctx, hctx⟩
    exact ⟨_, (hbuild _).mpr ⟨ctx, hctx, rfl⟩⟩
  · obtain ⟨found, hfound, rfl⟩ := (hbuild octx).mp hoctx
    obtain rfl : found = ctx := Except.ok.inj (hfound.symm.trans hctx)
    refine ⟨rfl, fun progress => ?_⟩
    rw [execute_outerView name apart hands unmentioned wrappable hctx]

end

/-! Packing under other names. -/
namespace Pack

def renames : Renames where
  takes := Table.ofList [("eblif", "synth_eblif")]
  produces := Table.ofList [("net", "packed_net")]
  values := Table.ofList [("arch_def", "vpr_arch")]

def environment : Environment := ⟨Table.ofList [
  ("arch_def", .str "/arch.xml"), ("device", .str "xc7"),
  ("rr_graph_lookahead_bin", .str "/lookahead.bin"), ("rr_graph_real_bin", .str "/rr.bin"),
  ("vpr_place_delay", .str "/delay.bin"), ("vpr_grid_layout_name", .str "xc7-grid")]⟩

def outerEnvironment : Environment :=
  ⟨(environment.values.erase "arch_def").insert "vpr_arch" (.str "/arch.xml")⟩

def inputs : StageInputs := { takes := Table.ofList [("eblif", .str "/top.eblif")] }

def outerInputs : StageInputs := { takes := Table.ofList [("synth_eblif", .str "/top.eblif")] }

def disk : Disk where
  entries := Table.ofList [("/", .directory)]
  cwd := "/"

theorem environment_beyond :
    environment.AgreeBeyond renames.Hidden outerEnvironment := by
  intro name hname
  have houter : name ≠ "vpr_arch" := by
    rintro rfl
    exact hname (by decide)
  have hinner : name ≠ "arch_def" := by
    rintro rfl
    exact hname (by decide)
  unfold Environment.get? outerEnvironment
  rw [Table.get?_insert_of_ne _ _ houter, Table.get?_erase, if_neg hinner]

/-- The packing module as the registry makes it. -/
def packer : ToolModule :=
  { io := Packing.interface "pack", outputs := Packing.outputs, execute := Packing.execute }

theorem made : ∃ registry,
    Registry.builtin.instantiate "common:pack" ⟨.null, .empty, "pack"⟩ = .ok (packer, registry) :=
  ⟨_, rfl⟩

theorem apart : renames.Apart packer.io where
  takes := .of_entries (Table.ascending_ofList _) (by decide) (by decide)
  produces := .of_entries (Table.ascending_ofList _) (by decide) (by decide)
  values := .of_entries (Table.ascending_ofList _) (by decide) (by decide)

theorem hands : renames.Hands packer.io inputs outerInputs environment outerEnvironment where
  takes := by decide
  produces := by decide
  demanded := by decide
  values := by decide
  env := environment_beyond

theorem unmentioned : renames.Unmentioned packer "pack" inputs environment {} disk where
  takes := by decide
  produces := by decide
  values := by decide +kernel
  resolved name v h := by
    have hclear : ∀ e ∈ (Context.assembled packer.io "pack" inputs environment {}
        disk).values.entries.entries, ∀ v ∈ e.2, v.Clear renames.Hidden := by decide +kernel
    exact hclear _ (Table.mem_of_get? (Option.join_eq_some_iff.mp h)) v rfl
  defaults defaults h := by
    have hclear : okAnd (packer.outputs (.assembled packer.io "pack" inputs environment {} disk))
        (fun defaults => ∀ e ∈ defaults.entries, e.2.Clear renames.Hidden) = true := by
      decide +kernel
    rw [h] at hclear
    exact of_decide_eq_true hclear

end Pack

/-- A wrapper of packing that renames a take, a product and a value. -/
theorem pack_wrap_transparent :
    ∃ octx ctx,
      Context.build (Pack.renames.wrap "pack" Pack.packer) "pack" Pack.outerInputs
        Pack.outerEnvironment {} Pack.disk = .ok octx ∧
      Context.build Pack.packer "pack" Pack.inputs Pack.environment {} Pack.disk = .ok ctx ∧
      octx.outputs.str? "packed_net" = some "/top.net" ∧
      octx.outputs.entries = renameKeys Pack.renames.produces ctx.outputs.entries ∧
      ∀ progress,
        (Pack.renames.wrap "pack" Pack.packer).execute octx progress =
          Pack.packer.execute ctx progress := by
  have hbuilt : okAnd (Context.build (Pack.renames.wrap "pack" Pack.packer) "pack" Pack.outerInputs
      Pack.outerEnvironment {} Pack.disk) (fun octx =>
        octx.outputs.str? "packed_net" = some "/top.net") = true := by
    decide +kernel
  obtain ⟨octx, hoctx, hpath⟩ := exists_of_okAnd hbuilt
  obtain ⟨registry, hmade⟩ := Pack.made
  obtain ⟨hsucceeds, hsame⟩ := wrap_transparent "pack" hmade ⟨nofun, nofun⟩
    (fun _ h => nomatch h) (by decide) Pack.apart Pack.hands Pack.unmentioned
  obtain ⟨ctx, hctx⟩ := hsucceeds.mp ⟨octx, hoctx⟩
  obtain ⟨houtputs, hexecute⟩ := hsame octx ctx hoctx hctx
  exact ⟨octx, ctx, hoctx, hctx, of_decide_eq_true hpath, houtputs, hexecute⟩

/-! A script under another name. -/
namespace Netlist

def renames : Renames where
  takes := Table.ofList [("source", "design")]
  produces := .empty
  values := .empty

def inputs : StageInputs := { takes := Table.ofList [("source", .str "/a.v")] }

def outerInputs : StageInputs := { takes := Table.ofList [("design", .str "/a.v")] }

/-- The script stage as the registry makes it. -/
def script : ToolModule :=
  Script.Job.toModule {
    interpreter := []
    script := .str "cat"
    cwd := none
    inputs := Table.ofList [("#1", .str "$\x7b:source\x7d")]
    outputs := Table.ofList [("netlist", ⟨.stdout, none, .str "/netlist", false⟩)] } "synth"

theorem apart : renames.Apart script.io where
  takes := .of_entries (Table.ascending_ofList _) (by decide) (by decide +kernel)
  produces := .of_entries Table.ascending_empty (by decide) (by decide)
  values := .of_entries Table.ascending_empty (by decide) (by decide)

theorem hands : renames.Hands script.io inputs outerInputs .empty .empty where
  takes := by decide +kernel
  produces := by decide
  demanded := by decide
  values := by decide +kernel
  env _ _ := rfl

/-- A host on which every program prints its command line. -/
def echoingHost : Host where
  environment := .empty
  run command disk := (.ok ⟨.exit 0, (" ".intercalate command.argv).toUTF8, .empty⟩, disk)

/-- What the net list holds after a module has run there. -/
def echoed (x : Exec Unit) : Option ByteArray :=
  match x echoingHost ⟨netlistDisk, "", 0⟩ with
  | .ok _ bench => (bench.disk.read "/netlist").toOption
  | .error .. => none

end Netlist

/-- A script does not see a take that has another name outside: the name is fresh, both contexts are
built, and the wrapper starts the program without the path. -/
theorem renamed_source_unseen :
    (∃ registry, Registry.builtin.instantiate "common:generic_script_wrapper"
      ⟨netlistScript, .empty, "synth"⟩ = .ok (Netlist.script, registry)) ∧
    Netlist.renames.Apart Netlist.script.io ∧
    (∀ s ∈ netlistScript.strings, ¬ "design".toList <:+: s.toList) ∧
    Netlist.renames.Hands Netlist.script.io Netlist.inputs Netlist.outerInputs .empty .empty ∧
    ∃ octx ctx,
      Context.build (Netlist.renames.wrap "synth" Netlist.script) "synth" Netlist.outerInputs .empty
        {} netlistDisk = .ok octx ∧
      Context.build Netlist.script "synth" Netlist.inputs .empty {} netlistDisk = .ok ctx ∧
      Netlist.echoed (Netlist.script.execute ctx ⟨.of 0 true, 2⟩) = some "cat /a.v".toUTF8 ∧
      Netlist.echoed ((Netlist.renames.wrap "synth" Netlist.script).execute octx
        ⟨.of 0 true, 2⟩) = some "cat ".toUTF8 := by
  have hchecks : okAnd (Context.build (Netlist.renames.wrap "synth" Netlist.script) "synth"
      Netlist.outerInputs .empty {} netlistDisk) (fun octx =>
        okAnd (Context.build Netlist.script "synth" Netlist.inputs .empty {} netlistDisk) fun ctx =>
          Netlist.echoed (Netlist.script.execute ctx ⟨.of 0 true, 2⟩) = some "cat /a.v".toUTF8 ∧
          Netlist.echoed ((Netlist.renames.wrap "synth" Netlist.script).execute octx
            ⟨.of 0 true, 2⟩) = some "cat ".toUTF8) = true := by
    decide +kernel
  obtain ⟨octx, hoctx, hchecks⟩ := exists_of_okAnd hchecks
  obtain ⟨ctx, hctx, hchecks⟩ := exists_of_okAnd hchecks
  obtain ⟨hinner, houter⟩ := of_decide_eq_true hchecks
  exact ⟨⟨_, rfl⟩, Netlist.apart, by decide +kernel, Netlist.hands, octx, ctx, hoctx, hctx, hinner,
    houter⟩

end Modules.Renaming
end Toolflow
