import Toolflow.CommandLine.Arguments
import Toolflow.Description.OfJson
import Toolflow.Flow.Build
import Toolflow.Flow.Listing
import Toolflow.Flow.Load

/-! Running the command line: from words to what is printed, the exit code and the disk after. -/
namespace Toolflow.CommandLine

/-- The outcome of a run. -/
structure Report where
  code : Nat
  stdout : String
  stderr : String
  disk : Disk

def loadProject (flow : Option String) : Exec Project := do
  match flow with
  | some path => Exec.ofExcept (Description.OfJson.loadProject (← Exec.disk) path)
  | none => return .empty

/-- Runs a plan and keeps the fingerprints, also when a stage fails. That they cannot be kept is no
failure of the build. -/
def runPlan (flow : Flow) (plan : Plan) (cache : Option Fingerprints) (r : Reporter) :
    Exec Unit := fun host bench =>
  let keep (session : Session) : Bench :=
    match session.cache with
    | none => session.bench
    | some cache =>
      match cache.save session.bench.disk with
      | .ok (_, disk) => { session.bench with disk }
      | .error _ => session.bench
  match Build.runPlan flow plan r host { bench, cache } with
  | .ok _ session => .ok () (keep session)
  | .error cause session => .error cause (keep session)

/-- Builds a target, or shows what there is to build. -/
def build (o : BuildOptions) (r : Reporter) : Exec Unit := do
  let project ← loadProject o.flow
  let overrides ← Exec.ofExcept (Overrides.ofTexts o.dependencies o.values)
  let install ← Exec.ofExcept (Install.ofEnvironment (← Exec.host).environment)
  let flow ← Flow.load install project overrides o.part
  if o.info then Exec.print flow.productListing
  else match o.stageInfo with
    | some stage => Exec.print (← Exec.ofExcept (flow.stage stage)).listing
    | none =>
      let target ← Exec.ofExcept (flow.selectTarget o.target)
      let disk ← Exec.disk
      let cache := if o.noCache then none
        else some (Fingerprints.load disk Fingerprints.cacheFile)
      let plan ← Exec.ofExcept (flow.plan target cache disk)
      let level := if o.pretend then 0 else 1
      Exec.print (r.line level (Text.trimRight (plan.statusListing cache disk)))
      if ¬ o.pretend then runPlan flow plan cache r

/-- Shows the bindings of a project. -/
def showBindings (o : ShowOptions) : Exec Unit := do
  let project ← loadProject (some o.flow)
  let part ← Exec.ofExcept (project.selectPart o.part)
  Exec.print (project.bindingListing part o.stage)

def runTask (task : Task) (r : Reporter) : Exec Unit :=
  match task with
  | .build o => build o r
  | .show o => showBindings o

/-- The code a failed run exits with: that of the program that failed, if it fits a byte and does
not mean success. -/
def failureCode (f : Failure) : Nat :=
  match f.exitCode? with
  | some code => if 0 < code ∧ code < 256 then code else 1
  | none => 1

def usage : String := "Usage: f4pga [-v... | -s] build [OPTIONS]\n" ++
  "       f4pga [-v... | -s] showd --flow <PATH> [OPTIONS]\n"

def versionText : String := "f4pga 0.1.0\n"

/-- Runs the program on words of a command line. -/
def run (host : Host) (words : List String) (disk : Disk) : Report :=
  match Request.ofWords words with
  | .error .help => { code := 0, stdout := usage, stderr := "", disk }
  | .error .version => { code := 0, stdout := versionText, stderr := "", disk }
  | .error .misuse => { code := 2, stdout := "", stderr := usage, disk }
  | .ok request =>
    let r := Reporter.of request.verbose request.silent
    match runTask request.task r host { disk } with
    | .ok _ bench =>
      { code := 0, stdout := bench.printed ++ r.line 0 "f4pga: DONE", stderr := ""
        disk := bench.disk }
    | .error cause bench =>
      { code := failureCode cause, stdout := bench.printed ++ r.line 0 "f4pga: FAILED"
        stderr := s!"error: {cause.message}\n", disk := bench.disk }

end Toolflow.CommandLine
