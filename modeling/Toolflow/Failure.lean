import Toolflow.Integer
import Toolflow.Value

/-! Failures: what went wrong, and on what occasion.

A failure is a chain of links. The innermost link is a cause; around it stand the activities that
were under way, outermost first. The message joins the links with `": "`, and the chain's kind is
that of its first link which has one. -/
namespace Toolflow

/-- Refusals of the file system. -/
inductive FileFault where
  | notFound
  | alreadyExists
  | notADirectory
  | isADirectory
  | invalidData
  | directoryNotEmpty
  | permissionDenied
  | invalidInput
  | notExecutable
deriving Repr, DecidableEq

def FileFault.name : FileFault → String
  | .notFound => "NotFound"
  | .alreadyExists => "AlreadyExists"
  | .notADirectory => "NotADirectory"
  | .isADirectory => "IsADirectory"
  | .invalidData => "InvalidData"
  | .directoryNotEmpty => "DirectoryNotEmpty"
  | .permissionDenied => "PermissionDenied"
  | .invalidInput => "InvalidInput"
  | .notExecutable => "Uncategorized"

/-- What the system says of a refusal. -/
def FileFault.text : FileFault → String
  | .notFound => "No such file or directory"
  | .alreadyExists => "File exists"
  | .notADirectory => "Not a directory"
  | .isADirectory => "Is a directory"
  | .invalidData => "stream did not contain valid UTF-8"
  | .directoryNotEmpty => "Directory not empty"
  | .permissionDenied => "Permission denied"
  | .invalidInput => "Invalid argument"
  | .notExecutable => "Exec format error"

/-- The system's number of a refusal; one has none, as it is found after reading. -/
def FileFault.number? : FileFault → Option Nat
  | .notFound => some 2
  | .alreadyExists => some 17
  | .notADirectory => some 20
  | .isADirectory => some 21
  | .invalidData => none
  | .directoryNotEmpty => some 39
  | .permissionDenied => some 13
  | .invalidInput => some 22
  | .notExecutable => some 8

def FileFault.message (f : FileFault) : String :=
  match f.number? with
  | some n => s!"{f.text} (os error {n})"
  | none => f.text

/-- How a finished program ended. -/
inductive Ending where
  | exit (code : Nat)
  | signal
deriving Repr, DecidableEq

/-- Which half of a module's work failed: finding out where its outputs go, or running it. -/
inductive Mode where
  | map
  | exec
deriving Repr, DecidableEq

def Mode.name : Mode → String
  | .map => "map"
  | .exec => "exec"

/-- The kinds of bindings a stage sees. -/
inductive BindingKind where
  | dependency
  | value
  | output
deriving Repr, DecidableEq

def BindingKind.name : BindingKind → String
  | .dependency => "dependency"
  | .value => "value"
  | .output => "output"

/-- What a configuration, a plan or a module can find wrong. -/
inductive Fault where
  -- references and overrides
  | circularReference (cycle : List String)
  | notOneEquals (text : String)
  | missingName
  | tooManyDots (path : String)
  | missingCloser (closer : Char) (text : String)
  | missingEntryValue (entry : String)
  | extraColon (entry : String)
  | integer (fault : IntegerFault)
  | unclosedQuote
  -- module references and declarations
  | emptyName (text : String)
  | unknownCollection (collection : String)
  | unknownModule (name collection : String)
  | unusableReference (reference : String)
  | notOneColon (reference : String)
  | endlessWrapping (reference : String)
  -- module parameters
  | parameterNotString (key : String) (found : Value)
  | parameterNotTable (key : String)
  | parameterNotTableGot (key : String) (found : Value)
  | parameterEntryNotString (key entry : String)
  | parameterNotName (key : String) (found : Value)
  | parameterNotList (key : String) (found : Value)
  | directoriesNotTable (found : Value)
  | missingWrapped
  | optionalExtra (declared : String)
  | unknownOutputMode (output mode : String)
  | missingOutputTarget (output : String)
  | missingOutputFile (output : String)
  | missingScript
  -- contexts and runs of stages
  | notProvided (kind : BindingKind) (name stage : String)
  | noOutputPath (stage output : String)
  | unknownVariable (kind : BindingKind) (name stage mentioned : String) (found : Value)
  | notAvailable (kind : BindingKind) (name stage : String)
  | notSinglePath (kind : BindingKind) (name stage : String) (found : Value)
  | emptyCommand
  | missingUtils (stage : String)
  | emptyScript (stage : String)
  | directoryNotPath (stage : String)
  | scriptDidNotWrite (path : String)
  -- flows, plans and builds
  | noInstallDirectory
  | unsupportedFamily (family : String) (known : List String)
  | noStages (platform : String)
  | noPart
  | unknownPart (part : String)
  | unknownPlatform (platform path : String)
  | noTarget
  | unknownStage (stage platform : String)
  | twoProducers (dependency first second : String)
  | unmetTake (dependency stage : String)
  | unmetTarget (target : String)
  | stageCycle (cycle : List String)
  | productMissing (product path : String)
  | targetUnresolved (target : String)
deriving DecidableEq

def Fault.message : Fault → String
  | .circularReference cycle => "circular variable reference: " ++ " -> ".intercalate cycle
  | .notOneEquals text => s!"expected exactly one unescaped `=` in `{text}`"
  | .missingName => "missing name before `=`"
  | .tooManyDots path => s!"too many `.` components in `{path}`"
  | .missingCloser closer text => s!"missing `{closer}` delimiter in `{text}`"
  | .missingEntryValue entry => s!"missing value in map entry `{entry}`"
  | .extraColon entry => s!"unexpected `:` in map entry `{entry}`"
  | .integer fault => fault.message
  | .unclosedQuote => "missing closing quote"
  | .emptyName text => s!"empty dependency name in `{text}`"
  | .unknownCollection collection => s!"module collection `{collection}` does not exist"
  | .unknownModule name collection => s!"module `{name}` not found in collection `{collection}`"
  | .unusableReference reference =>
    s!"module reference `{reference}` is neither `collection:name` nor a path inside a `<collection>_modules` directory"
  | .notOneColon reference =>
    s!"incorrect module reference `{reference}`: expected exactly one `:`"
  | .endlessWrapping reference => s!"module `{reference}` wraps modules without end"
  | .parameterNotString key found => s!"parameter `{key}` must be a string, got {found.text}"
  | .parameterNotTable key => s!"parameter `{key}` must be a map"
  | .parameterNotTableGot key found => s!"parameter `{key}` must be a map, got {found.text}"
  | .parameterEntryNotString key entry => s!"parameter `{key}.{entry}` must be a string"
  | .parameterNotName key found => s!"parameter `{key}` must list names, got {found.text}"
  | .parameterNotList key found => s!"parameter `{key}` must be a list, got {found.text}"
  | .directoriesNotTable found => s!"mkdirs expects a map of directories, got {found.text}"
  | .missingWrapped => "io_rename requires a `module` parameter"
  | .optionalExtra declared => s!"synth extra products cannot be optional (`?`): `{declared}`"
  | .unknownOutputMode output mode => s!"output `{output}` has unknown mode `{mode}`"
  | .missingOutputTarget output => s!"output `{output}` requires a `target`"
  | .missingOutputFile output => s!"output `{output}` in file mode requires a `file`"
  | .missingScript => "generic_script_wrapper requires a `script` parameter"
  | .notProvided kind name stage =>
    s!"{kind.name} `{name}` is required by stage `{stage}` but wasn't provided"
  | .noOutputPath stage output =>
    s!"stage `{stage}` did not provide a path for required output `{output}`"
  | .unknownVariable kind name stage mentioned found =>
    s!"{kind.name} `{name}` of stage `{stage}` references unknown variable `{mentioned}`: {found.text}"
  | .notAvailable kind name stage => s!"{kind.name} `{name}` is not available to stage `{stage}`"
  | .notSinglePath kind name stage found =>
    s!"{kind.name} `{name}` of stage `{stage}` is not a single path: {found.text}"
  | .emptyCommand => "empty command line"
  | .missingUtils stage => s!"`yosys_tcl_env` of stage `{stage}` must set UTILS_PATH"
  | .emptyScript stage => s!"script of stage `{stage}` resolved to nothing"
  | .directoryNotPath stage => s!"`cwd` of stage `{stage}` is not a single path"
  | .scriptDidNotWrite path => s!"script did not write `{path}`"
  | .noInstallDirectory => "F4PGA_INSTALL_DIR is not set; point it at the F4PGA install tree"
  | .unsupportedFamily family known =>
    s!"unsupported FPGA family `{family}` (expected one of: " ++ ", ".intercalate known ++ ")"
  | .noStages platform => s!"platform `{platform}` defines no stages"
  | .noPart =>
    "no part selected: pass --part or set `default_part` in the flow configuration"
  | .unknownPart part => s!"unknown part `{part}`: not listed in the part database"
  | .unknownPlatform platform path => s!"unknown platform `{platform}`: {path} does not exist"
  | .noTarget =>
    "no target selected: pass --target or set `default_target` in the flow configuration"
  | .unknownStage stage platform => s!"stage `{stage}` does not exist in platform `{platform}`"
  | .twoProducers dependency first second =>
    s!"dependency `{dependency}` is produced by both stage `{first}` and stage `{second}`"
  | .unmetTake dependency stage =>
    s!"dependency `{dependency}` is required by stage `{stage}` but is neither produced nor provided"
  | .unmetTarget target => s!"target `{target}` is neither produced by any stage nor provided"
  | .stageCycle cycle => "dependency cycle between stages: " ++ " -> ".intercalate cycle
  | .productMissing product path => s!"stage did not produce `{product}` at {path}"
  | .targetUnresolved target => s!"target `{target}` was not resolved"

/-- What was being done when a failure came up. -/
inductive Activity where
  | parsingDependency (text : String)
  | parsingSetting (text : String)
  | readingNumber (text : String)
  | splittingInterpreter (text : String)
  | reading (path : String)
  | writing (path : String)
  | creating (path : String)
  | creatingDirectory (path : String)
  | opening (path : String)
  | appending (path : String)
  | removing (path : String)
  | moving (source target : String)
  | starting (program : String)
  | openingTemporary (directory : String)
  | writingRecords (path : String)
  | instantiating (reference stage : String)
  | resolvingFlow
  | resolvingStage (stage : String)
  | readingParts (path : String)
  | parsingParts (path : String)
  | readingPlatform (path : String)
  | parsingPlatform (path : String)
  | readingProject (path : String)
  | parsingProject (path : String)
  | synthesizing (stage : String)
  | splittingPins (stage : String)
  | converting (stage : String)
  | scripting (stage : String)
  | runningVpr (mode stage : String)
  | generatingFasm (stage : String)
  | placingAndRouting (stage : String)
  | constraining (stage : String)
  | locatingDatabase
deriving DecidableEq

def Activity.message : Activity → String
  | .parsingDependency text => s!"parse --dep `{text}`"
  | .parsingSetting text => s!"parse --val `{text}`"
  | .readingNumber text => s!"invalid number in `{text}`"
  | .splittingInterpreter text => s!"split interpreter `{text}`"
  | .reading path => s!"read {path}"
  | .writing path => s!"write {path}"
  | .creating path => s!"create {path}"
  | .creatingDirectory path => s!"create directory {path}"
  | .opening path => s!"open {path}"
  | .appending path => s!"append to {path}"
  | .removing path => s!"remove {path}"
  | .moving source target => s!"move {source} to {target}"
  | .starting program => s!"run {program}"
  | .openingTemporary directory => s!"create temporary cache in {directory}"
  | .writingRecords path => s!"write cache {path}"
  | .instantiating reference stage => s!"instantiate module `{reference}` for stage `{stage}`"
  | .resolvingFlow => "resolve flow values"
  | .resolvingStage stage => s!"resolve values of stage `{stage}`"
  | .readingParts path => s!"read part database {path}"
  | .parsingParts path => s!"parse part database {path}"
  | .readingPlatform path => s!"read platform flow {path}"
  | .parsingPlatform path => s!"parse platform flow {path}"
  | .readingProject path => s!"read flow configuration {path}"
  | .parsingProject path => s!"parse flow configuration {path}"
  | .synthesizing stage => s!"yosys synthesis for stage `{stage}`"
  | .splittingPins stage => s!"split in/outs for stage `{stage}`"
  | .converting stage => s!"yosys conversion for stage `{stage}`"
  | .scripting stage => s!"script of stage `{stage}`"
  | .runningVpr mode stage => s!"vpr {mode} for stage `{stage}`"
  | .generatingFasm stage => s!"genfasm for stage `{stage}`"
  | .placingAndRouting stage => s!"nextpnr for stage `{stage}`"
  | .constraining stage => s!"place constraints for stage `{stage}`"
  | .locatingDatabase => "locate the prjxray database"

inductive Failure where
  | fault (cause : Fault)
  | file (cause : FileFault)
  | malformedYaml
  | malformedJson
  /-- A program ended badly; `report` is what it wrote on its error stream, without blank ends. -/
  | program (name : String) (ending : Ending) (report : String)
  | during (activity : Activity) (cause : Failure)
  | stage (stage : String) (mode : Mode) (cause : Failure)
deriving DecidableEq

/-- How links are worded that stand for faults of the system or of a document. -/
structure Wording where
  file : FileFault → String
  yaml : String
  json : String

def Wording.plain : Wording := ⟨FileFault.message, "malformed YAML", "malformed JSON"⟩

namespace Failure

/-- The text of the outermost link. -/
def link (w : Wording) : Failure → String
  | .fault cause => cause.message
  | .file cause => w.file cause
  | .malformedYaml => w.yaml
  | .malformedJson => w.json
  | .program name ending report =>
    let how := match ending with
      | .exit code => s!"{name} exited with code {code}"
      | .signal => s!"{name} was terminated by a signal"
    if report.isEmpty then how else how ++ "\nstderr:\n" ++ report
  | .during activity _ => activity.message
  | .stage name mode _ => s!"module `{name}` failed in {mode.name} mode"

/-- The links' texts, outermost first. -/
def links (w : Wording) : Failure → List String
  | f@(.during _ cause) => f.link w :: cause.links w
  | f@(.stage _ _ cause) => f.link w :: cause.links w
  | f => [f.link w]

/-- The chain as one text. -/
def message (f : Failure) (w : Wording := .plain) : String := ": ".intercalate (f.links w)

/-- The exit code of the first failed program in the chain. -/
def exitCode? : Failure → Option Nat
  | .program _ (.exit code) _ => some code
  | .during _ cause => cause.exitCode?
  | .stage _ _ cause => cause.exitCode?
  | _ => none

end Failure

/-- Names the activity in which a computation failed. -/
def during {α : Type u} (activity : Activity) : Except Failure α → Except Failure α
  | .ok a => .ok a
  | .error cause => .error (.during activity cause)

/-- Fails for the given cause. -/
def refuse {α : Type u} (cause : Fault) : Except Failure α := .error (.fault cause)

end Toolflow
