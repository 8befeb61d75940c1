import Toolflow.Modules.Builtin
import Toolflow.Proofs.Planning
import Toolflow.Proofs.RenamedBindings
import Toolflow.Proofs.Values

/-! What the builtin modules look at in their environment.

A module reads names that its parameters or its values refer to, and a few settings of its own. It
overlooks all other names: in environments that differ only there it places its outputs alike and
does the same. -/
namespace Toolflow

/-- A value that refers to no hidden name. -/
def Value.Clear (hidden : String → Prop) (v : Value) : Prop :=
  ∀ name ∈ Reference.namesIn v, ¬ hidden name

/-- Two environments that may differ in hidden names only. -/
def Environment.AgreeBeyond (hidden : String → Prop) (env other : Environment) : Prop :=
  ∀ name, ¬ hidden name → other.get? name = env.get? name

/-- A context whose values refer to no hidden name. -/
def Context.Clear (hidden : String → Prop) (ctx : Context) : Prop :=
  ∀ name v, ctx.values.get? name = some v → v.Clear hidden

/-- A module does not look at hidden names. -/
structure ToolModule.Overlooks (m : ToolModule) (hidden : String → Prop) : Prop where
  outputs : ∀ ctx env, ctx.Clear hidden → ctx.env.AgreeBeyond hidden env →
    m.outputs { ctx with env } = m.outputs ctx
  execute : ∀ ctx env, ctx.Clear hidden → ctx.env.AgreeBeyond hidden env →
    m.execute { ctx with env } = m.execute ctx

/-- The names that the engine's modules look up by themselves. -/
def settingNames : List String := ["python3", "noisyWarnings", "prjxray_db"]

section
variable {hidden : String → Prop} {env other : Environment} {v : Value}

namespace Environment

theorem resolveFinal_congr (h : ∀ name ∈ Reference.namesIn v, env.get? name = other.get? name) :
    env.resolveFinal v = other.resolveFinal v :=
  Value.mapStrings_congr v fun _ hs => substitute_congr fun _ hbody =>
    filling_congr (h _ (Reference.mem_namesIn hs (Reference.mem_names hbody))) true

theorem AgreeBeyond.resolve (h : env.AgreeBeyond hidden other) (hv : v.Clear hidden) :
    other.resolve v = env.resolve v :=
  resolve_congr fun name hname => h name (hv name hname)

theorem AgreeBeyond.resolveFinal (h : env.AgreeBeyond hidden other) (hv : v.Clear hidden) :
    other.resolveFinal v = env.resolveFinal v :=
  resolveFinal_congr fun name hname => h name (hv name hname)

theorem AgreeBeyond.str? (h : env.AgreeBeyond hidden other) {name : String}
    (hname : ¬ hidden name) : other.str? name = env.str? name := by
  rw [Environment.str?, h name hname, Environment.str?]

theorem AgreeBeyond.bindRaw (h : env.AgreeBeyond hidden other) (name : String) (w : Value) :
    (env.bindRaw name w).AgreeBeyond hidden (other.bindRaw name w) := by
  intro n hn
  rw [get?_bindRaw, get?_bindRaw, h n hn]

end Environment

namespace Value

theorem strings_subset_of_mem_entries {entries : List (String × Value)} {e : String × Value}
    (h : e ∈ entries) : e.2.strings ⊆ entryStrings entries := by
  induction entries with
  | nil => cases h
  | cons d rest ih =>
    rw [entryStrings]
    rcases List.mem_cons.mp h with rfl | hrest
    · exact List.subset_append_left _ _
    · exact List.Subset.trans (ih hrest) (List.subset_append_right _ _)

theorem Clear.of_strings {w : Value} (h : v.Clear hidden) (hsub : w.strings ⊆ v.strings) :
    w.Clear hidden := by
  intro name hname
  obtain ⟨s, hs, hmem⟩ := List.mem_flatMap.mp hname
  exact h name (List.mem_flatMap.mpr ⟨s, hsub hs, hmem⟩)

theorem Clear.entry {t : ValueTable} (h : (Value.map t).Clear hidden) {e : String × Value}
    (he : e ∈ t.entries) : e.2.Clear hidden :=
  h.of_strings (by
    obtain ⟨entries⟩ := t
    exact strings_subset_of_mem_entries he)

theorem eq_some_of_present {x : Option Value} (h : x.bind present? = some v) : x = some v := by
  obtain ⟨w, hw, hpresent⟩ := Option.bind_eq_some_iff.mp h
  unfold present? at hpresent
  split at hpresent
  · cases hpresent
  · exact hw.trans hpresent

/-- A parameter is an entry of a table. -/
theorem mem_of_parameter {params : Value} {key : String}
    (h : Parameters.get? params key = some v) :
    ∃ t, params.map? = some t ∧ (key, v) ∈ t.entries := by
  obtain ⟨t, ht, hget⟩ := Option.bind_eq_some_iff.mp (eq_some_of_present h)
  exact ⟨t, ht, Table.mem_of_get? hget⟩

theorem Clear.parameter {params : Value} (h : params.Clear hidden) {key : String}
    (hv : Parameters.get? params key = some v) : v.Clear hidden := by
  obtain ⟨t, ht, hmem⟩ := mem_of_parameter hv
  cases params with
  | map fields =>
    cases ht
    exact h.entry hmem
  | _ => cases ht

end Value

/-- Where no text refers to a hidden name, both environments resolve it alike. -/
theorem Environment.AgreeBeyond.map_resolve (h : env.AgreeBeyond hidden other) {x : Option Value}
    (clear : ∀ v, x = some v → v.Clear hidden) :
    (x.bind Value.present?).map other.resolve = (x.bind Value.present?).map env.resolve := by
  cases hpresent : x.bind Value.present? with
  | none => rfl
  | some v =>
    rw [Option.map_some, Option.map_some, h.resolve (clear v (Value.eq_some_of_present hpresent))]

end

namespace Modules
variable {hidden : String → Prop} {ctx : Context} {env : Environment}

/-! ### Modules that read settings only -/

/-- The settings are the same in both environments. -/
def SameSettings (ctx : Context) (env : Environment) : Prop :=
  ∀ name ∈ settingNames, env.str? name = ctx.env.str? name

/-- A module that reads nothing but settings overlooks every name that is none. -/
theorem overlooks_of_settings {m : ToolModule} (settings : ∀ name ∈ settingNames, ¬ hidden name)
    (outputs : ∀ (ctx : Context) env, m.outputs { ctx with env } = m.outputs ctx)
    (execute : ∀ (ctx : Context) env, SameSettings ctx env →
      m.execute { ctx with env } = m.execute ctx) : m.Overlooks hidden where
  outputs ctx env _ _ := outputs ctx env
  execute ctx env _ agree := execute ctx env fun name hname => agree.str? (settings name hname)

theorem Vpr.run_settings (h : SameSettings ctx env) : Vpr.run { ctx with env } = Vpr.run ctx := by
  funext job s cwd
  simp only [Vpr.run, Vpr.command, h "noisyWarnings" (by decide)]

theorem Packing.execute_settings (h : SameSettings ctx env) :
    Packing.execute { ctx with env } = Packing.execute ctx := by
  funext progress
  simp only [Packing.execute, Vpr.run_settings h]
  rfl

theorem Placement.execute_settings (h : SameSettings ctx env) :
    Placement.execute { ctx with env } = Placement.execute ctx := by
  funext progress
  simp only [Placement.execute, Vpr.run_settings h]
  rfl

theorem Routing.execute_settings (h : SameSettings ctx env) :
    Routing.execute { ctx with env } = Routing.execute ctx := by
  funext progress
  simp only [Routing.execute, Vpr.run_settings h]
  rfl

theorem Timing.execute_settings (h : SameSettings ctx env) :
    Timing.execute { ctx with env } = Timing.execute ctx := by
  funext progress
  simp only [Timing.execute, Vpr.run_settings h]
  rfl

theorem Constraints.execute_settings (h : SameSettings ctx env) :
    Constraints.execute { ctx with env } = Constraints.execute ctx := by
  funext progress
  simp only [Constraints.execute, Constraints.databaseRoot, Constraints.command,
    h "prjxray_db" (by decide), h "python3" (by decide)]

/-! ### Modules that resolve values -/

theorem Synthesis.foldl_bindRaw_beyond (h : ctx.env.AgreeBeyond hidden env)
    (l : List (String × Value)) :
    (l.foldl (fun (env : Environment) (name, v) => env.bindRaw (":" ++ name) v)
      ctx.env).AgreeBeyond hidden
        (l.foldl (fun env (name, v) => env.bindRaw (":" ++ name) v) env) := by
  have hfold : ∀ {env other : Environment}, env.AgreeBeyond hidden other →
      (l.foldl (fun env e => env.bindRaw (":" ++ e.1) e.2) env).AgreeBeyond hidden
        (l.foldl (fun env e => env.bindRaw (":" ++ e.1) e.2) other) := by
    induction l with
    | nil => exact fun h => h
    | cons e rest ih => exact fun h => ih (h.bindRaw _ _)
  exact hfold h

theorem Synthesis.scriptEnvironment_beyond (clear : ctx.Clear hidden)
    (h : ctx.env.AgreeBeyond hidden env) :
    Synthesis.scriptEnvironment { ctx with env } = Synthesis.scriptEnvironment ctx := by
  unfold Synthesis.scriptEnvironment
  dsimp only
  cases hdefinition : ctx.values.get? "yosys_tcl_env" with
  | none => rfl
  | some definition =>
    dsimp only
    rw [(foldl_bindRaw_beyond h _).resolveFinal (clear _ _ hdefinition)]

theorem Synthesis.execute_beyond (clear : ctx.Clear hidden) (h : ctx.env.AgreeBeyond hidden env)
    (setting : ¬ hidden "python3") :
    Synthesis.execute { ctx with env } = Synthesis.execute ctx := by
  funext progress
  simp only [Synthesis.execute, Synthesis.scriptEnvironment_beyond clear h, h.str? setting]
  rfl

namespace Script

theorem forM_congr {α : Type} {f g : α → Exec Unit} {l : List α} (h : ∀ a ∈ l, f a = g a) :
    l.forM f = l.forM g := by
  induction l with
  | nil => rfl
  | cons a rest ih =>
    obtain ⟨ha, hrest⟩ := List.forall_mem_cons.mp h
    show (f a >>= fun _ => rest.forM f) = g a >>= fun _ => rest.forM g
    rw [ha, ih hrest]

/-- A script whose parameters refer to no hidden name. -/
structure Job.Clear (hidden : String → Prop) (s : Job) : Prop where
  script : s.script.Clear hidden
  cwd : ∀ v, s.cwd = some v → v.Clear hidden
  inputs : ∀ e ∈ s.inputs.entries, e.2.Clear hidden
  targets : ∀ e ∈ s.outputs.entries, e.2.target.Clear hidden
  files : ∀ e ∈ s.outputs.entries, ∀ v, e.2.file = some v → v.Clear hidden

variable {s : Job}

theorem Job.defaults_beyond (clear : s.Clear hidden) (h : ctx.env.AgreeBeyond hidden env) :
    s.defaults { ctx with env } = s.defaults ctx := by
  unfold Job.defaults Table.map
  congr 1
  refine List.map_congr_left fun e he => ?_
  show (e.1, env.resolve e.2.target) = (e.1, ctx.env.resolve e.2.target)
  rw [h.resolve (clear.targets e he)]

theorem Job.cwd_beyond (clear : s.Clear hidden) (h : ctx.env.AgreeBeyond hidden env) :
    (s.cwd.bind fun dir => (env.resolveFinal dir).str?) =
      s.cwd.bind fun dir => (ctx.env.resolveFinal dir).str? := by
  cases hcwd : s.cwd with
  | none => rfl
  | some dir => rw [Option.bind_some, Option.bind_some, h.resolveFinal (clear.cwd dir hcwd)]

theorem Job.inputs_beyond (clear : s.Clear hidden) (h : ctx.env.AgreeBeyond hidden env) :
    (s.inputs.entries.map fun (key, v) => (key, env.resolveFinal v)) =
      s.inputs.entries.map fun (key, v) => (key, ctx.env.resolveFinal v) :=
  List.map_congr_left fun e he => by
    dsimp only
    rw [h.resolveFinal (clear.inputs e he)]

theorem Job.command_beyond (clear : s.Clear hidden) (h : ctx.env.AgreeBeyond hidden env) :
    s.command { ctx with env } = s.command ctx := by
  unfold Job.command
  dsimp only
  rw [h.resolveFinal clear.script, Job.inputs_beyond clear h]
  cases hcwd : s.cwd with
  | none => rfl
  | some dir =>
    dsimp only
    rw [h.resolveFinal (clear.cwd dir hcwd)]

theorem Job.execute_beyond (clear : s.Clear hidden) (h : ctx.env.AgreeBeyond hidden env) :
    s.execute { ctx with env } = s.execute ctx := by
  have hdirectory : s.workingDirectory { ctx with env } = s.workingDirectory ctx := by
    unfold Job.workingDirectory
    rw [← Job.cwd_beyond clear h]
  have hdeliver : ∀ stdout, ∀ e ∈ s.outputs.entries,
      s.deliver { ctx with env } stdout e.1 e.2 = s.deliver ctx stdout e.1 e.2 := by
    intro stdout e he
    unfold Job.deliver
    rw [hdirectory]
    cases hfile : e.2.file with
    | none => rfl
    | some file =>
      simp only [Option.bind_some, h.resolveFinal (clear.files e he file hfile)]
  funext progress
  unfold Job.execute
  rw [Job.command_beyond clear h]
  simp only [forM_congr (hdeliver _)]

/-- What an output is read from. -/
theorem Output.parse_spec {name : String} {decl : Value} {o : Output}
    (h : Output.parse name decl = .ok o) :
    Parameters.get? decl "target" = some o.target ∧ o.file = Parameters.get? decl "file" := by
  unfold Output.parse at h
  obtain ⟨mode, -, h⟩ := bind_eq_ok.mp h
  dsimp only at h
  cases htarget : Parameters.get? decl "target" with
  | none =>
    rw [htarget] at h
    split at h <;> cases h
  | some target =>
    simp only [htarget] at h
    split at h
    case h_4 => cases h
    all_goals
      obtain ⟨mode, -, h⟩ := bind_eq_ok.mp h
      split at h
      · cases h
      · cases h
        exact ⟨rfl, rfl⟩

/-- Reads one more output. -/
def addOutput (t : Table Output) (e : String × Value) : Except Failure (Table Output) := do
  return t.insert e.1 (← Output.parse e.1 e.2)

namespace Job
variable {params : Value}

/-- Where the parts of a script stage come from. -/
structure ReadFrom (params : Value) (s : Job) : Prop where
  script : Parameters.get? params "script" = some s.script
  cwd : s.cwd = Parameters.get? params "cwd"
  inputs : Parameters.get? params "inputs" = none ∧ s.inputs = .empty ∨
    Parameters.get? params "inputs" = some (.map s.inputs)
  outputs : Parameters.get? params "outputs" = none ∧ s.outputs = .empty ∨
    ∃ fields, Parameters.get? params "outputs" = some (.map fields) ∧
      fields.entries.foldlM addOutput .empty = .ok s.outputs

theorem interpreter_read {found : Option String} {next : List String → Except Failure Job}
    (h : (match found with
      | none => Except.ok [] >>= next
      | some text =>
        match Text.split? text with
        | some words => Except.ok words >>= next
        | none => during (.splittingInterpreter text) (refuse .unclosedQuote) >>= next) =
          Except.ok s) :
    ∃ interpreter, next interpreter = .ok s := by
  split at h
  · exact ⟨_, h⟩
  · split at h
    · exact ⟨_, h⟩
    · cases h

theorem inputs_read {next : ValueTable → Except Failure Job}
    (h : (match Parameters.get? params "inputs" with
      | none => Except.ok .empty >>= next
      | some (.map fields) => Except.ok fields >>= next
      | some other => refuse (.parameterNotTableGot "inputs" other) >>= next) = Except.ok s) :
    ∃ inputs, next inputs = .ok s ∧
      (Parameters.get? params "inputs" = none ∧ inputs = .empty ∨
        Parameters.get? params "inputs" = some (.map inputs)) := by
  split at h
  · rename_i hnone
    exact ⟨_, h, .inl ⟨hnone, rfl⟩⟩
  · rename_i fields hfields
    exact ⟨fields, h, .inr hfields⟩
  · cases h

theorem outputs_read {next : Table Output → Job}
    (h : (match Parameters.get? params "outputs" with
      | none => Except.ok .empty >>= fun outputs => pure (next outputs)
      | some (.map fields) => fields.entries.foldlM (fun (t : Table Output) (name, decl) => do
          return t.insert name (← Output.parse name decl)) .empty >>= fun outputs =>
            pure (next outputs)
      | some _ => refuse (.parameterNotTable "outputs") >>= fun outputs =>
          pure (next outputs)) = Except.ok s) :
    ∃ outputs, s = next outputs ∧
      (Parameters.get? params "outputs" = none ∧ outputs = .empty ∨
        ∃ fields, Parameters.get? params "outputs" = some (.map fields) ∧
          fields.entries.foldlM addOutput .empty = .ok outputs) := by
  split at h
  · rename_i hnone
    cases h
    exact ⟨_, rfl, .inl ⟨hnone, rfl⟩⟩
  · rename_i fields hfields
    obtain ⟨outputs, houtputs, h⟩ := bind_eq_ok.mp h
    cases h
    exact ⟨outputs, rfl, .inr ⟨fields, hfields, houtputs⟩⟩
  · cases h

theorem readFrom_of_parse (h : parse params = .ok s) : s.ReadFrom params := by
  unfold parse at h
  cases hscript : Parameters.get? params "script" with
  | none => rw [hscript] at h; cases h
  | some script =>
    rw [hscript] at h
    obtain ⟨found, -, h⟩ := bind_eq_ok.mp h
    obtain ⟨interpreter, h⟩ := interpreter_read h
    obtain ⟨inputs, h, hinputs⟩ := inputs_read h
    obtain ⟨-, -, h⟩ := bind_eq_ok.mp h
    obtain ⟨outputs, rfl, houtputs⟩ := outputs_read h
    exact ⟨hscript, rfl, hinputs, houtputs⟩

/-- The outputs of a script are listed in order, and each is read from an entry of its own. -/
theorem ReadFrom.outputs_entries (h : s.ReadFrom params) :
    s.outputs.Ascending ∧ ∀ e ∈ s.outputs.entries, ∃ fields decl,
      Parameters.get? params "outputs" = some (.map fields) ∧ (e.1, decl) ∈ fields.entries ∧
        Output.parse e.1 decl = .ok e.2 := by
  rcases h.outputs with ⟨-, hempty⟩ | ⟨fields, hfields, hfold⟩
  · rw [hempty]
    exact ⟨Table.ascending_empty, fun e he => nomatch he⟩
  refine foldlM_keeps (P := fun t : Table Output => t.Ascending ∧ ∀ e ∈ t.entries, ∃ fields decl,
      Parameters.get? params "outputs" = some (.map fields) ∧ (e.1, decl) ∈ fields.entries ∧
        Output.parse e.1 decl = .ok e.2) ?_ ⟨Table.ascending_empty, fun e he => nomatch he⟩ hfold
  rintro ⟨name, decl⟩ hentry t after ⟨ascending, hread⟩ hstep
  obtain ⟨o, hparse, hstep⟩ := bind_eq_ok.mp hstep
  cases hstep
  refine ⟨ascending.insert _ _, fun e he => ?_⟩
  rcases Table.mem_place he with rfl | hold
  · exact ⟨fields, decl, hfields, hentry, hparse⟩
  · exact hread e hold

theorem ReadFrom.clear (h : s.ReadFrom params) (clear : params.Clear hidden) : s.Clear hidden where
  script := clear.parameter h.script
  cwd v hv := clear.parameter (h.cwd ▸ hv)
  inputs e he := by
    rcases h.inputs with ⟨-, hempty⟩ | hinputs
    · rw [hempty] at he
      cases he
    · exact (clear.parameter hinputs).entry he
  targets e he := by
    obtain ⟨fields, decl, hfields, hentry, hparse⟩ := h.outputs_entries.2 e he
    exact ((clear.parameter hfields).entry hentry).parameter (Output.parse_spec hparse).1
  files e he v hv := by
    obtain ⟨fields, decl, hfields, hentry, hparse⟩ := h.outputs_entries.2 e he
    exact ((clear.parameter hfields).entry hentry).parameter
      ((Output.parse_spec hparse).2 ▸ hv)

end Job
end Script

end Modules
end Toolflow
