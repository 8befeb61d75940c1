import Toolflow.Modules.Assembly
import Toolflow.Modules.Constraints
import Toolflow.Modules.Directories
import Toolflow.Modules.Packing
import Toolflow.Modules.PlaceAndRoute
import Toolflow.Modules.Placement
import Toolflow.Modules.Renaming
import Toolflow.Modules.Routing
import Toolflow.Modules.Script
import Toolflow.Modules.Synthesis
import Toolflow.Modules.Timing

/-! The modules that come with the engine: the collection `common`. -/
namespace Toolflow.Registry

def commonModules : List (String × Factory) :=
  [("mkdirs", .tool Modules.Directories.make),
    ("synth", .tool Modules.Synthesis.make),
    ("io_rename", .wrapper Modules.Renaming.wrapped Modules.Renaming.make),
    ("generic_script_wrapper", .tool Modules.Script.make),
    ("pack", .tool Modules.Packing.make),
    ("place_constraints", .tool Modules.Constraints.make),
    ("place", .tool Modules.Placement.make),
    ("route", .tool Modules.Routing.make),
    ("fasm", .tool Modules.Assembly.make),
    ("analysis", .tool Modules.Timing.make),
    ("nextpnr", .tool Modules.PlaceAndRoute.make)]

def builtin : Registry :=
  commonModules.foldl (fun r (name, factory) => r.register "common" name factory) .empty

end Toolflow.Registry
