import Toolflow.Modules.Script
import Toolflow.Proofs.Copying
import Toolflow.Proofs.Journal
import Toolflow.Proofs.Planning
import Toolflow.Proofs.Values

/-! The takes of a stage that is passed over, against those of its last run.

Records are kept for paths and not for lists of paths, so the check cannot tell that a take is fed
fewer files than before. It does notice that an optional take has come or gone, as long as the
stage is fed the same paths. -/
namespace Toolflow

open Fingerprints Build

/-- The paths a take is bound to. -/
def Context.paths? (ctx : Context) (take : String) : Option (List String) :=
  (ctx.takes.get? take).map Value.strings

namespace PlanStep

/-- The paths a take is fed with, found or not. -/
def fed? (step : PlanStep) (take : String) : Option (List String) :=
  (step.inputs.takes.get? take).map fun planned => (step.env.resolve planned).strings

end PlanStep

/-- The changes of takes between an earlier run of a stage and a later step that the check cannot
miss. What is bound at one of the times is fed the same paths at both. What is bound at one of them
only is fed without references, and not with files that the run itself wrote. -/
structure Noticed (run : Attempt) (step : PlanStep) (ctx : Context) : Prop where
  fed : ∀ take, ctx.paths? take ≠ none ∨ run.ctx.paths? take ≠ none →
    step.fed? take = run.step.fed? take
  plain : ∀ take, (ctx.paths? take = none ↔ run.ctx.paths? take ≠ none) →
    step.IsLiteral take ∧ run.step.IsLiteral take ∧
      ∀ paths, step.fed? take = some paths → ∀ path ∈ paths, path ∉ run.step.outputPaths

section
variable {flow : Flow} {step : PlanStep} {disk : Disk} {stage : Stage} {ctx : Context}
  {take : String}

theorem Reached.paths?_eq_some (h : Reached flow step disk stage ctx) {paths : List String}
    (hpaths : ctx.paths? take = some paths) :
    step.fed? take = some paths ∧ ∃ v, ctx.takes.get? take = some v ∧ v.strings = paths := by
  obtain ⟨v, hv, rfl⟩ := Option.map_eq_some_iff.mp hpaths
  rw [Context.build_take h.built] at hv
  obtain ⟨d, planned, -, hplanned, -, rfl, -⟩ := Context.takeOn_eq_some_iff.mp hv
  refine ⟨?_, _, (Context.build_take h.built take).trans hv, rfl⟩
  simp only [PlanStep.fed?, hplanned, Option.map_some]

/-- A take that is not bound is optional, and if it is fed, some of its files are missing. -/
theorem Reached.unbound (h : Reached flow step disk stage ctx) (hnone : ctx.paths? take = none)
    {d : Declared} (hd : stage.module.io.take? take = some d) :
    ¬ d.isRequired = true ∧ ∀ planned, step.inputs.takes.get? take = some planned →
      planned.isNull = false → ¬ disk.holds (step.env.resolve planned) = true := by
  have hunbound : ∀ v, Context.takeOn stage.module.io step.inputs step.env disk take ≠ some v := by
    intro v hv
    rw [← Context.build_take h.built] at hv
    cases (Option.map_eq_none_iff.mp hnone).symm.trans hv
  constructor
  · intro hrequired
    obtain ⟨planned, hplanned, hnull⟩ := Context.build_required h.built hd hrequired
    exact hunbound _ (Context.takeOn_eq_some_iff.mpr
      ⟨d, planned, hd, hplanned, hnull, rfl, Or.inl hrequired⟩)
  · intro planned hplanned hnull hholds
    exact hunbound _ (Context.takeOn_eq_some_iff.mpr
      ⟨d, planned, hd, hplanned, hnull, rfl, Or.inr hholds⟩)

/-- When a take is bound here, and not where it is fed the same paths, all of its files are here and
some are missing there. -/
theorem Reached.missed {other : Flow} {elsewhere : PlanStep} {there : Disk} {octx : Context}
    (h : Reached flow step disk stage ctx) (ho : Reached other elsewhere there stage octx)
    {paths : List String} (hpaths : ctx.paths? take = some paths)
    (hother : octx.paths? take = none) (hfed : elsewhere.fed? take = some paths) :
    (∀ path ∈ paths, disk.exists? path = true) ∧
      ∃ path ∈ paths, there.exists? path = false := by
  obtain ⟨v, hv, rfl⟩ := Option.map_eq_some_iff.mp hpaths
  rw [Context.build_take h.built] at hv
  obtain ⟨d, planned, hd, -, -, rfl, hfound⟩ := Context.takeOn_eq_some_iff.mp hv
  obtain ⟨fed, helsewhere, hsame⟩ := Option.map_eq_some_iff.mp hfed
  obtain ⟨hoptional, hmissing⟩ := ho.unbound hother hd
  obtain ⟨hsome, hall⟩ := (Disk.holds_iff disk _).mp (hfound.resolve_left hoptional)
  refine ⟨hall, ?_⟩
  have hnull : fed.isNull = false := by
    cases fed with
    | null => exact absurd hsame.symm hsome
    | _ => rfl
  by_contra hthere
  refine hmissing fed helsewhere hnull ((Disk.holds_iff there _).mpr ?_)
  rw [hsame]
  refine ⟨hsome, fun path hpath => ?_⟩
  by_contra hgone
  exact hthere ⟨path, hpath, by simpa using hgone⟩

/-- The paths of a take that is not bound, when it is fed without references, are looked at as
absent. -/
theorem PlanStep.looked_absent {paths : List String} (hfed : step.fed? take = some paths)
    (hliteral : step.IsLiteral take) (hnone : ctx.paths? take = none) {path : String}
    (hpath : path ∈ paths) :
    (path, false) ∈ step.looks ctx := by
  obtain ⟨planned, hplanned, rfl⟩ := Option.map_eq_some_iff.mp hfed
  rw [Environment.resolve_of_literal _ (hliteral planned hplanned)] at hpath
  exact PlanStep.mem_looks_absent.mpr
    ⟨take, planned, Table.mem_of_get? hplanned, Option.map_eq_none_iff.mp hnone, hpath⟩

/-- The paths of a take that is bound are looked at as bound. -/
theorem Reached.looked_bound (h : Reached flow step disk stage ctx) {paths : List String}
    (hpaths : ctx.paths? take = some paths) {path : String} (hpath : path ∈ paths) :
    (path, true) ∈ step.looks ctx := by
  obtain ⟨hfed, v, hv, rfl⟩ := h.paths?_eq_some hpaths
  obtain ⟨planned, hplanned, -⟩ := Option.map_eq_some_iff.mp hfed
  exact PlanStep.mem_looks_bound.mpr ⟨take, planned, v, Table.mem_of_get? hplanned, hv, hpath⟩

/-- What a check that finds nothing to do knows of a path that it visits. -/
theorem fresh_visit {c : Fingerprints} {produces : List Declared}
    (fresh : (step.examine ctx produces disk (some c)).1 = false) {look : String × Bool}
    (hlook : look ∈ step.looks ctx)
    (hvisit : look.2 = true ∨ (c.record? look.1 step.stage).isSome = true) :
    disk.exists? look.1 = true ∧ (c.record? look.1 step.stage).isSome = true := by
  have hvisits : c.visits step.stage look = true := by
    simpa only [visits, Bool.or_eq_true] using hvisit
  obtain ⟨hthere, hrecord⟩ :=
    differs_eq_false_iff.mp ((PlanStep.examine_eq_false_iff.mp fresh).2.1 look hlook hvisits)
  refine ⟨(Disk.exists?_iff _ _).mpr hthere, ?_⟩
  rw [hrecord, Option.isSome_iff_ne_none]
  exact fun hnone => hthere ((Content.print?_eq_none_iff _).mp hnone)

section
variable {other : Flow} {run : Attempt} {c : Fingerprints} {paths : List String}

/-- A take of the last run that is still fed the same paths is still bound: of a file that is gone
the check would find the record that the run has left. -/
theorem Reached.still_bound (h : Reached flow step disk stage ctx)
    (ho : Reached other run.step run.before stage run.ctx) (succeeded : run.fate = .succeeded)
    (accounted : Accounted c step.stage (some run))
    (fresh : (step.examine ctx stage.io.produces disk (some c)).1 = false)
    (hfed : step.fed? take = some paths) (hliteral : step.IsLiteral take)
    (hfree : ∀ path ∈ paths, path ∉ run.step.outputPaths)
    (hthen : run.ctx.paths? take = some paths) : ctx.paths? take ≠ none := by
  intro hnow
  obtain ⟨hall, path, hpath, hgone⟩ := ho.missed h hthen hnow hfed
  have hrecord := accounted.bound run rfl succeeded path (hfree path hpath)
    (ho.looked_bound hthen hpath)
  have hseen : (c.record? path step.stage).isSome = true := by
    rw [hrecord, Option.isSome_iff_ne_none]
    exact fun hnone => (Disk.exists?_iff _ _).mp (hall path hpath)
      ((Content.print?_eq_none_iff _).mp hnone)
  have hthere := (fresh_visit fresh (PlanStep.looked_absent hfed hliteral hnow hpath)
    (Or.inr hseen)).1
  rw [hgone] at hthere
  cases hthere

/-- A take that the last run was fed as well was already bound then: of a file that has come since
the check would find no record. -/
theorem Reached.was_bound (h : Reached flow step disk stage ctx)
    (ho : Reached other run.step run.before stage run.ctx) (succeeded : run.fate = .succeeded)
    (accounted : Accounted c step.stage (some run))
    (fresh : (step.examine ctx stage.io.produces disk (some c)).1 = false)
    (hfed : run.step.fed? take = some paths) (hliteral : run.step.IsLiteral take)
    (hfree : ∀ path ∈ paths, path ∉ run.step.outputPaths)
    (hnow : ctx.paths? take = some paths) : run.ctx.paths? take ≠ none := by
  intro hthen
  obtain ⟨-, path, hpath, hgone⟩ := h.missed ho hnow hthen hfed
  have hmissing : run.before.contentAt path = .missing := by
    by_contra hthere
    rw [(Disk.exists?_iff _ _).mpr hthere] at hgone
    cases hgone
  have hnone : c.record? path step.stage = none := by
    rcases accounted.unbound run rfl succeeded path (hfree path hpath)
      (PlanStep.looked_absent hfed hliteral hthen hpath) with hrecord | hrecord
    · exact hrecord
    · rw [hrecord, hmissing]
      rfl
  have hseen := (fresh_visit fresh (h.looked_bound hnow hpath) (Or.inl rfl)).2
  rw [hnone] at hseen
  cases hseen

/-- A fresh step has the takes of the last run of its stage exactly if no change of them goes
unnoticed. -/
theorem Reached.takes_eq_iff (h : Reached flow step disk stage ctx)
    (ho : Reached other run.step run.before stage run.ctx) (succeeded : run.fate = .succeeded)
    (accounted : Accounted c step.stage (some run))
    (fresh : (step.examine ctx stage.io.produces disk (some c)).1 = false) :
    (∀ take, ctx.paths? take = run.ctx.paths? take) ↔ Noticed run step ctx := by
  constructor
  · intro hsame
    refine ⟨fun take hbound => ?_, fun take honce => ?_⟩
    · obtain ⟨paths, hpaths⟩ : ∃ paths, ctx.paths? take = some paths := by
        rw [← hsame, or_self] at hbound
        exact Option.ne_none_iff_exists'.mp hbound
      rw [(h.paths?_eq_some hpaths).1, (ho.paths?_eq_some (hsame take ▸ hpaths)).1]
    · rw [← hsame] at honce
      exact absurd honce iff_not_self
  · intro noticed take
    cases hnow : ctx.paths? take with
    | none =>
      cases hthen : run.ctx.paths? take with
      | none => rfl
      | some paths =>
        have hfed := noticed.fed take (Or.inr (by simp [hthen]))
        rw [(ho.paths?_eq_some hthen).1] at hfed
        obtain ⟨hliteral, -, hfree⟩ := noticed.plain take (by simp [hnow, hthen])
        exact absurd hnow (h.still_bound ho succeeded accounted fresh hfed hliteral
          (hfree paths hfed) hthen)
    | some paths =>
      have hfedNow := (h.paths?_eq_some hnow).1
      have hfed := noticed.fed take (Or.inl (by simp [hnow]))
      cases hthen : run.ctx.paths? take with
      | some others =>
        rw [hfedNow, (ho.paths?_eq_some hthen).1] at hfed
        exact hfed
      | none =>
        rw [hfedNow] at hfed
        obtain ⟨-, hliteral, hfree⟩ := noticed.plain take (by simp [hnow, hthen])
        exact absurd hthen (h.was_bound ho succeeded accounted fresh hfed.symm hliteral
          (hfree paths hfedNow) hnow)

end
end

/-- Parameters of a script that prints a net list of its sources. -/
def netlistScript : Value := .map (Table.ofList [
  ("script", .str "cat"),
  ("inputs", .map (Table.ofList [("#1", .str "$\x7b:source\x7d")])),
  ("outputs", .map (Table.ofList [("netlist", .map (Table.ofList [
    ("mode", .str "stdout"), ("target", .str "/netlist")]))]))])

def netlistDisk : Disk where
  entries := Table.ofList [("/", .directory), ("/a.v", .file (ByteArray.mk #[1]) false),
    ("/b.v", .file (ByteArray.mk #[2]) false)]
  cwd := "/"

end Toolflow
