import Toolflow.Modules.Synthesis
import Toolflow.Proofs.Copying
import Toolflow.Proofs.Journal
import Toolflow.Proofs.Planning

/-! The outputs of a stage that is passed over, against what its last run has written.

The check asks only whether the outputs exist. Which ones a stage writes depends on the target,
since a product on demand is written only when it is asked for: its file may be older than the last
run. -/
namespace Toolflow

open Fingerprints Build

namespace Context
variable {m : ToolModule} {stage : String} {inputs : StageInputs} {env : Environment}
  {roots : Roots} {disk : Disk} {ctx : Context}

/-- The output of a product that is declared once. -/
theorem build_output (h : build m stage inputs env roots disk = .ok ctx)
    (hnodup : (m.io.produces.map Declared.name).Nodup) :
    ∃ base defaults, ofInputs m.io stage inputs env roots disk = .ok base ∧
      m.outputs base = .ok defaults ∧ ctx = { base with outputs := ctx.outputs } ∧
      ∀ d ∈ m.io.produces, ctx.outputs.get? d.name =
        (base.outputPath defaults inputs.demanded d).map (Value.absolute disk.cwd) := by
  obtain ⟨base, defaults, hbase, hdefaults, hctx, houtputs⟩ := build_outputs h
  refine ⟨base, defaults, hbase, hdefaults, hctx, fun d hd => ?_⟩
  rw [houtputs, Bindings.get?_foldl_set, find?_reverse_of_nodup hnodup hd, Option.bind_some]

end Context

section
variable {flow : Flow} {step : PlanStep} {disk : Disk} {stage : Stage} {ctx : Context}

end

/-- A flow of synthesis alone. -/
def synthesisFlow (synth : ToolModule) : Flow where
  part := "part"
  platform := "platform"
  stages := Table.ofList [("synth", ⟨"synth", "common:synth", synth, .empty, ⟨Table.ofList [
    ("device", .str "d"), ("tcl_scripts", .str "/tcl"), ("top", .str "top"),
    ("yosys_tcl_env", .map (Table.ofList [("UTILS_PATH", .str "/utils")]))]⟩⟩)]
  dependencies := Table.ofList [("sources", .str "/src")]
  defaultTarget := none
  roots := {}

/-- A bench after the source has been edited. -/
def edited (bench : Bench) : Bench :=
  { bench with disk := bench.disk.put "/src" (.file (ByteArray.mk #[2]) false) }

end Toolflow
