import Toolflow.Main
import Toolflow.Proofs.FailedStages
import Toolflow.Proofs.IncrementalBuilds
import Toolflow.Proofs.OutputPlacement
import Toolflow.Proofs.OutputReuse
import Toolflow.Proofs.PathVariables
import Toolflow.Proofs.PlanCoverage
import Toolflow.Proofs.PlanningAgain
import Toolflow.Proofs.PredictedRuns
import Toolflow.Proofs.Settling
import Toolflow.Proofs.StageCycles
import Toolflow.Proofs.WarmBuilds
import Toolflow.Proofs.Demand
import Toolflow.Proofs.RecordStore
import Toolflow.Proofs.Places
import Toolflow.Proofs.Saving
import Toolflow.Proofs.Lookups
import Toolflow.Proofs.Composition
import Toolflow.Proofs.WrittenOverrides
import Toolflow.Proofs.ListExtensions
import Toolflow.Proofs.Transparency
import Toolflow.Proofs.RenamedContexts
import Toolflow.Proofs.Brackets
import Toolflow.Proofs.RenamingBack
import Toolflow.Proofs.Splicing
import Toolflow.Proofs.SettledResolution
import Toolflow.Proofs.ListedDependencies
import Toolflow.Proofs.Scanning
import Toolflow.Proofs.InferredInputs
import Toolflow.Proofs.LateResolution
import Toolflow.Proofs.RememberedLookups
import Toolflow.Proofs.AnnouncedPhases
import Toolflow.Proofs.CollectedOutputs
import Toolflow.Proofs.FileNames
import Toolflow.Proofs.MovingPrograms
import Toolflow.Proofs.VprJobs
import Toolflow.Proofs.HonouredOutputs
