import Toolflow.Context

/-! The layout of an install tree: one subtree for each FPGA family, with the shared files and the
tools of that family. -/
namespace Toolflow

structure Install where
  family : String
  share : String
  bin : String
deriving Repr, DecidableEq

namespace Install

def families : List String := ["xc7", "eos-s3", "qlf_k4n8", "ice40"]

def defaultFamily : String := "xc7"

/-- The layout of a family under a directory; the shared files may lie elsewhere. -/
def layout (dir family : String) (share : Option String) : Except Failure Install :=
  if family ∈ families then
    let root := Pathname.join dir family
    .ok {
      family
      share := share.getD (Pathname.join (Pathname.join root "share") "f4pga")
      bin := Pathname.join root "bin" }
  else refuse (.unsupportedFamily family families)

/-- The text of a variable that is set and not empty. -/
def nonempty? (environment : Table String) (name : String) : Option String :=
  (environment.get? name).filter (!·.isEmpty)

/-- The layout that the variables of a process describe. -/
def ofEnvironment (environment : Table String) : Except Failure Install :=
  match nonempty? environment "F4PGA_INSTALL_DIR" with
  | some dir =>
    layout dir ((environment.get? "FPGA_FAM").getD defaultFamily)
      (nonempty? environment "F4PGA_SHARE_DIR")
  | none => refuse .noInstallDirectory

def aux (i : Install) : String := Pathname.join i.share "aux"

def flows (i : Install) : String := Pathname.join i.share "flows"

def partDatabase (i : Install) : String := Pathname.join i.flows "part_db.yml"

def platform (i : Install) (name : String) : String :=
  Pathname.join (Pathname.join i.flows "platforms") (name ++ ".yml")

def roots (i : Install) : Roots := ⟨i.share, i.bin, i.aux⟩

end Install
end Toolflow
