import Mathlib.Logic.Relation
import Mathlib.Tactic.Ring
import Toolflow.Proofs.PlanCoverage
import Toolflow.Proofs.Settling

/-! Planning ends, and it finds the cycles among the stages it needs.

The recursion of planning needs no fuel: a stage that waits is one less that may come, and a
dependency whose takes are asked for is one less that has not been seen. A stage is added once the
producers of its takes have been planned, which no stage on a cycle survives. The stages that wait
are a chain, each taking a product of the next, and coming back to one of them closes it. -/
namespace Toolflow

/-- A list keeps fewer members if one that was kept no longer is. -/
theorem length_filter_lt {α : Type} {p q : α → Bool} {l : List α}
    (sub : ∀ a, p a = true → q a = true) {a : α} (ha : a ∈ l) (hp : p a = false)
    (hq : q a = true) : (l.filter p).length < (l.filter q).length := by
  have hsub : l.filter p = (l.filter q).filter p := by
    rw [List.filter_filter]
    refine List.filter_congr fun b _ => ?_
    cases hb : p b with
    | false => rfl
    | true => rw [sub b hb, Bool.and_self]
  rw [hsub, List.length_filter_lt_length_iff_exists]
  exact ⟨a, List.mem_filter.mpr ⟨ha, hq⟩, by simp [hp]⟩

theorem bind_eq_error {ε α β : Type} {x : Except ε α} {f : α → Except ε β} {cause : ε} :
    x >>= f = .error cause ↔ x = .error cause ∨ ∃ a, x = .ok a ∧ f a = .error cause := by
  cases x with
  | error first => simp [Bind.bind, Except.bind]
  | ok a => simp [Bind.bind, Except.bind]

/-- A fold that fails does so at one of its steps. -/
theorem foldlM_error {α β : Type} {f : β → α → Except Failure β} {l : List α} {b : β}
    {cause : Failure} (h : l.foldlM f b = .error cause) :
    ∃ before a after mid, l = before ++ a :: after ∧ before.foldlM f b = .ok mid ∧
      f mid a = .error cause := by
  induction l generalizing b with
  | nil => cases h
  | cons a rest ih =>
    rw [List.foldlM_cons] at h
    rcases bind_eq_error.mp h with hfirst | ⟨next, hfirst, hrest⟩
    · exact ⟨[], a, rest, b, rfl, rfl, hfirst⟩
    · obtain ⟨before, c, after, mid, rfl, hbefore, hc⟩ := ih hrest
      refine ⟨a :: before, c, after, mid, rfl, ?_, hc⟩
      rw [List.foldlM_cons]
      exact bind_eq_ok.mpr ⟨next, hfirst, hbefore⟩

namespace Flow
variable {f : Flow} {producers : Table String}

/-- A stage takes a product of another. -/
def Takes (f : Flow) (name other : String) : Prop :=
  ∃ stage, f.stages.get? name = some stage ∧ ∃ take ∈ stage.io.takes, f.Produces other take.name

/-! ### What is demanded -/

/-- The dependencies with a producer that have not been seen. -/
def unseen (producers : Table String) (seen : NameSet) : List String :=
  producers.keys.filter fun dep => !seen.contains dep

theorem contains_add (seen : NameSet) (name : String) {other : String}
    (h : (!(seen.add name).contains other) = true) : (!seen.contains other) = true := by
  rw [Bool.not_eq_true', ← Bool.not_eq_true, NameSet.add, Table.contains_insert, not_or] at h
  simpa using h.2

theorem length_unseen_add_le (producers : Table String) (seen : NameSet) (name : String) :
    (unseen producers (seen.add name)).length ≤ (unseen producers seen).length := by
  have hsub : List.Sublist (unseen producers (seen.add name)) (unseen producers seen) :=
    List.monotone_filter_right producers.keys fun _ => contains_add seen name
  exact hsub.length_le

theorem takesFor_of_unmade {dep : String} (h : dep ∉ producers.keys) :
    f.takesFor producers dep = [] := by
  rw [← Table.contains_iff_mem_keys, Table.contains, Bool.not_eq_true,
    Option.isSome_eq_false_iff, Option.isNone_iff_eq_none] at h
  simp [takesFor, h]

/-- Adds to `seen` the queued dependencies and all that their producers take in turn, however many
rounds that needs. -/
def demandFreely (f : Flow) (producers : Table String) (queue : List String) (seen : NameSet) :
    NameSet :=
  match queue with
  | [] => seen
  | dep :: rest =>
    if seen.contains dep then demandFreely f producers rest seen
    else demandFreely f producers (f.takesFor producers dep ++ rest) (seen.add dep)
termination_by ((unseen producers seen).length, queue.length)
decreasing_by
  · exact Prod.Lex.right _ (Nat.lt_succ_self _)
  · rename_i hunseen
    by_cases hmade : dep ∈ producers.keys
    · refine Prod.Lex.left _ _
        (length_filter_lt (fun _ => contains_add _ _) hmade ?_ (by simpa using hunseen))
      simp [Table.contains, NameSet.add]
    · rw [takesFor_of_unmade hmade]
      rcases Nat.lt_or_eq_of_le (length_unseen_add_le producers seen dep) with hlt | heq
      · exact Prod.Lex.left _ _ hlt
      · rw [heq]
        exact Prod.Lex.right _ (Nat.lt_succ_self _)

theorem length_takesFor_le (f : Flow) (producers : Table String) (dep : String) :
    (f.takesFor producers dep).length ≤ f.takeCount := by
  unfold takesFor
  cases hstage : (producers.get? dep).bind f.stages.get? with
  | none => exact Nat.zero_le _
  | some stage =>
    obtain ⟨name, -, hknown⟩ := Option.bind_eq_some_iff.mp hstage
    have hmem : stage ∈ f.stages.values :=
      List.mem_map.mpr ⟨(name, stage), Table.mem_of_get? hknown, rfl⟩
    obtain ⟨before, after, hvalues⟩ := List.append_of_mem hmem
    rw [takeCount, hvalues, List.flatMap_append, List.flatMap_cons]
    simp only [List.length_map, List.length_append]
    omega

/-- The names that may be queued when a target is asked for. -/
def askable (f : Flow) (target : String) : List String :=
  target :: (f.stages.values.flatMap (·.io.takes)).map (·.name)

theorem takesFor_askable {dep name : String} (h : name ∈ f.takesFor producers dep)
    (target : String) : name ∈ f.askable target := by
  unfold takesFor at h
  cases hstage : (producers.get? dep).bind f.stages.get? with
  | none =>
    rw [hstage] at h
    cases h
  | some stage =>
    rw [hstage] at h
    obtain ⟨take, htake, rfl⟩ := List.mem_map.mp h
    obtain ⟨key, -, hknown⟩ := Option.bind_eq_some_iff.mp hstage
    refine List.mem_cons_of_mem _ (List.mem_map.mpr ⟨take, List.mem_flatMap.mpr ⟨stage, ?_, htake⟩,
      rfl⟩)
    exact List.mem_map.mpr ⟨(key, stage), Table.mem_of_get? hknown, rfl⟩

/-- A round takes a name off the queue. It puts takes on the queue for a name that has not been
seen, so the rounds that are left are bounded by the queue and the names that may still come. -/
theorem demandFrom_eq_demandFreely (target : String) {fuel : Nat} {queue : List String}
    {seen : NameSet} (inside : ∀ name ∈ queue, name ∈ f.askable target)
    (room : queue.length +
      ((f.askable target).filter fun name => !seen.contains name).length * f.takeCount ≤ fuel) :
    f.demandFrom producers fuel queue seen = f.demandFreely producers queue seen := by
  induction fuel generalizing queue seen with
  | zero =>
    have hqueue : queue = [] := List.length_eq_zero_iff.mp (by omega)
    subst hqueue
    rw [demandFrom, demandFreely]
  | succ fuel ih =>
    cases queue with
    | nil => rw [demandFrom, demandFreely]
    | cons dep rest =>
      obtain ⟨hdep, hrest⟩ := List.forall_mem_cons.mp inside
      rw [demandFrom, demandFreely]
      rw [List.length_cons] at room
      by_cases hseen : seen.contains dep = true
      · rw [if_pos hseen, if_pos hseen]
        exact ih hrest (by omega)
      · rw [if_neg hseen, if_neg hseen]
        refine ih (List.forall_mem_append.mpr
          ⟨fun name hname => takesFor_askable hname target, hrest⟩) ?_
        have hfewer : ((f.askable target).filter fun name => !(seen.add dep).contains name).length <
            ((f.askable target).filter fun name => !seen.contains name).length :=
          length_filter_lt (fun _ => contains_add _ _) hdep (by simp [Table.contains, NameSet.add])
            (by simpa using hseen)
        have htakes := f.length_takesFor_le producers dep
        have hrounds := Nat.mul_le_mul_right f.takeCount hfewer
        rw [Nat.succ_mul] at hrounds
        rw [List.length_append]
        omega

/-- The rounds for a target are never used up. -/
theorem demanded_eq (f : Flow) (producers : Table String) (target : String) :
    f.demanded producers target = f.demandFreely producers [target] .empty := by
  unfold demanded
  refine demandFrom_eq_demandFreely target (by simp [askable]) ?_
  have hnames : ((f.askable target).filter fun name =>
      !(Table.empty : NameSet).contains name).length ≤ f.takeCount + 1 := by
    refine (List.length_filter_le _ _).trans (le_of_eq ?_)
    simp [askable, takeCount]
  have hrounds := Nat.mul_le_mul_right f.takeCount hnames
  have hsquare : (f.takeCount + 1) * (f.takeCount + 1) =
      (f.takeCount + 1) * f.takeCount + (f.takeCount + 1) := Nat.mul_succ ..
  simp only [List.length_singleton]
  omega

/-! ### The stages that wait -/

/-- The stages that do not wait. -/
def idle (f : Flow) (visiting : List String) : List String :=
  f.stages.keys.filter (· ∉ visiting)

theorem idle_lt {visiting : List String} {name : String} {stage : Stage}
    (known : f.stages.get? name = some stage) (hname : name ∉ visiting) :
    (f.idle (visiting ++ [name])).length < (f.idle visiting).length := by
  have hkey : name ∈ f.stages.keys := List.mem_map.mpr ⟨_, Table.mem_of_get? known, rfl⟩
  refine length_filter_lt (fun other hother => ?_) hkey (by simp) (by simpa using hname)
  simp only [List.mem_append, not_or, decide_eq_true_eq] at hother ⊢
  exact hother.1

end Flow

/-- Plans a stage after the producers of its takes, however many stages come to wait. -/
def PlanSources.planFreely (s : PlanSources) (visiting : List String) (p : Planning)
    (name : String) : Except Failure Planning :=
  if p.planned.contains name then .ok p
  else if _ : name ∈ visiting then
    refuse (.stageCycle (visiting.dropWhile (· ≠ name) ++ [name]))
  else
    match _ : s.flow.stages.get? name with
    | none => refuse (.unknownStage name s.flow.platform)
    | some stage => do
      let p ← stage.io.takes.foldlM (fun p take =>
        s.meet (s.planFreely (visiting ++ [name])) (.unmetTake take.name name) take.isRequired
          p take.name) p
      s.addStep p stage
termination_by (s.flow.idle visiting).length
decreasing_by exact Flow.idle_lt (by assumption) (by assumption)

/-- Fuel above the number of stages that do not wait is never used up. -/
theorem PlanSources.planStage_eq_planFreely (s : PlanSources) {fuel : Nat}
    {visiting : List String} (room : (s.flow.idle visiting).length < fuel) (p : Planning)
    (name : String) : s.planStage fuel visiting p name = s.planFreely visiting p name := by
  induction fuel generalizing visiting p name with
  | zero => omega
  | succ fuel ih =>
    rw [planStage, planFreely]
    by_cases hplanned : p.planned.contains name = true
    · rw [if_pos hplanned, if_pos hplanned]
      rfl
    · rw [if_neg hplanned, if_neg hplanned]
      by_cases hwaits : name ∈ visiting
      · simp only [if_pos hwaits, dif_pos hwaits]
        rfl
      · simp only [if_neg hwaits, dif_neg hwaits]
        split
        · rename_i hunknown
          simp only [Flow.stage, hunknown]
          rfl
        · rename_i stage hknown
          have hless := Flow.idle_lt hknown hwaits
          have hsame : s.planStage fuel (visiting ++ [name]) =
              s.planFreely (visiting ++ [name]) := by
            funext p other
            exact ih (by omega) p other
          simp only [Flow.stage, hknown, hsame]
          rfl

/-- Plans the stages that a target needs, with no bound on rounds or depth. -/
def Flow.planFreely (f : Flow) (target : String) (cache : Option Fingerprints) (disk : Disk) :
    Except Failure Plan := do
  let producers ← f.producers
  let s : PlanSources :=
    { flow := f, cache, disk, demanded := f.demandFreely producers [target] .empty }
  let p ← s.meet (s.planFreely []) (.unmetTarget target) true (.start producers) target
  return {
    target
    steps := p.steps
    paths := p.paths
    rebuilds := countRebuilds p.steps
    missing := p.missing
    unmapped := p.unmapped }

theorem plan_eq_planFreely (f : Flow) (target : String) (cache : Option Fingerprints)
    (disk : Disk) : f.plan target cache disk = f.planFreely target cache disk := by
  have hidle : (f.idle []).length < f.stages.size + 1 := by
    refine Nat.lt_succ_of_le ((List.length_filter_le _ _).trans (le_of_eq ?_))
    simp [Table.keys, Table.size]
  unfold Flow.plan Flow.planFreely
  refine bind_congr fun producers => ?_
  have hstage : ∀ s : PlanSources, s.flow = f →
      s.planStage (f.stages.size + 1) [] = s.planFreely [] := by
    rintro s rfl
    funext p name
    exact s.planStage_eq_planFreely hidle p name
  simp only [hstage, Flow.demanded_eq]

/-! ### Cycles -/

theorem not_rel_self_of_acc {α : Type} {r : α → α → Prop} {a : α} (h : Acc r a) : ¬ r a a := by
  induction h with
  | intro a _ ih => exact fun hself => ih a hself hself

/-- A name from which every chain ends is on no cycle. -/
theorem not_transGen_self_of_acc {r : String → String → Prop} {name : String}
    (h : Acc (fun a b => r b a) name) : ¬ Relation.TransGen r name name := by
  intro hcycle
  exact not_rel_self_of_acc h.transGen (Relation.transGen_swap.mpr hcycle)

namespace PlanSources
variable {s : PlanSources} {producers : Table String} {target : String} {p after : Planning}
  {visiting : List String}

/-- What planning keeps if each stage is added when its takes have been met. -/
theorem Stands.planStage_keeps (named : s.flow.Named)
    (hproducers : s.flow.producers = .ok producers) {P : Planning → Prop}
    (bind : ∀ p dep v, P p → P (p.bind s.disk.cwd dep v))
    (miss : ∀ p missing, P p → P { p with missing })
    (add : ∀ p stage after, s.flow.stages.get? stage.name = some stage →
      (∀ take ∈ stage.io.takes, p.Closed producers take.name) → P p →
      s.addStep p stage = .ok after → P after)
    {fuel : Nat} {name : String} (room : Room s.flow fuel visiting)
    (hp : s.Stands producers target visiting p) (needed : s.flow.Needs target name) (holds : P p)
    (h : s.planStage fuel visiting p name = .ok after) : P after := by
  induction fuel generalizing visiting p after name with
  | zero => exact absurd rfl room.fuel_ne_zero
  | succ fuel ih =>
    rcases planStage_cases named h with
      ⟨-, rfl⟩ | ⟨hplanned, hvisiting, stage, met, rfl, hknown, hmet, hadd⟩
    · exact holds
    · have hroom := room.next hvisiting hknown
      have htaken : ∀ take ∈ stage.io.takes, ∀ other, producers.get? take.name = some other →
          s.flow.Needs target other := fun take htake other hother =>
        .take needed hknown htake ((Flow.get?_producers hproducers ..).mp hother)
      have hclosed := ((hp.wait hplanned).meetAll
        (fun p name after hp needed => hp.planStage named hproducers hroom needed) htaken hmet).2.2
      have hmeets : s.Stands producers target (visiting ++ [stage.name]) met ∧ P met := by
        refine foldlM_keeps (P := fun p => s.Stands producers target (visiting ++ [stage.name]) p ∧
          P p) (fun take htake p next hp hnext => ?_) ⟨hp.wait hplanned, holds⟩ hmet
        obtain ⟨hp, holds⟩ := hp
        refine ⟨(hp.meet (fun name needed => hp.planStage named hproducers hroom needed)
          (htaken take htake) hnext).1, ?_⟩
        obtain ⟨-, ⟨-, rfl⟩ | ⟨other, hother, hplan⟩ | ⟨-, ⟨v, -, rfl⟩ | ⟨missing, rfl⟩⟩⟩ :=
          meet_cases hnext
        · exact holds
        · exact ih hroom hp (htaken take htake other (hp.sound.kept _ _ hother)) holds hplan
        · exact bind p take.name v holds
        · exact miss p missing holds
      exact add met stage after hknown (fun take htake => (hclosed take htake).1) hmeets.2 hadd

/-- From a stage that has been planned every chain of takes ends. -/
theorem Stands.planStage_ends (named : s.flow.Named)
    (hproducers : s.flow.producers = .ok producers) {fuel : Nat} {name : String}
    (room : Room s.flow fuel visiting) (hp : s.Stands producers target visiting p)
    (needed : s.flow.Needs target name)
    (ends : ∀ name, p.planned.contains name = true → Acc (fun a b => s.flow.Takes b a) name)
    (h : s.planStage fuel visiting p name = .ok after) :
    ∀ name, after.planned.contains name = true → Acc (fun a b => s.flow.Takes b a) name := by
  refine Stands.planStage_keeps (P := fun p => ∀ name, p.planned.contains name = true →
    Acc (fun a b => s.flow.Takes b a) name) named hproducers (fun _ _ _ hp => hp)
    (fun _ _ hp => hp) (fun p stage after known closed ends hadd name hname => ?_) room hp needed
    ends h
  obtain ⟨step, adds⟩ := addStep_adds hproducers known hadd
  rcases (adds.planned name).mp hname with rfl | hold
  · refine .intro _ fun other htakes => ?_
    obtain ⟨found, hfound, take, htake, hmade⟩ := htakes
    cases known.symm.trans hfound
    exact ends other (closed take htake other ((Flow.get?_producers hproducers ..).mpr hmade))
  · exact ends name hold

/-- The producers that are left are among those that planning started with. -/
def Kept (producers : Table String) (p : Planning) : Prop :=
  ∀ dep name, p.producers.get? dep = some name → producers.get? dep = some name

theorem keeps_kept (s : PlanSources) (producers : Table String) : s.Keeps (Kept producers) where
  bind _ _ _ hp _ := hp
  miss _ _ hp := hp
  add p stage after _ _ hp hadd dep name hname := by
    obtain ⟨ctx, -, rfl⟩ := addStep_eq_ok_iff.mp hadd
    have hleft := hname.symm.trans
      ((bindProducts_rest s.disk.cwd ctx.outputs stage.io.produces p).1 dep)
    split at hleft
    · cases hleft
    · exact hp dep name hleft.symm

/-- Meeting a dependency fails where it stays unmet, or where its producer cannot be planned. -/
theorem meet_error {planner : Planning → String → Except Failure Planning} {unmet : Fault}
    {required : Bool} {dep : String} {cause : Failure}
    (h : s.meet planner unmet required p dep = .error cause) :
    cause = .fault unmet ∨
      ∃ stage, p.producers.get? dep = some stage ∧ planner p stage = .error cause := by
  have hcheck : ∀ next : Planning, (if required = true ∧ ¬ next.paths.contains dep = true then do
      refuse unmet
      pure next
    else pure next : Except Failure Planning) = .error cause → cause = .fault unmet := by
    intro next hnext
    split at hnext <;> cases hnext
    rfl
  unfold meet at h
  split at h
  · cases h
  · dsimp only at h
    split at h
    · rename_i stage hstage
      rcases bind_eq_error.mp h with hplan | ⟨next, -, hnext⟩
      · exact Or.inr ⟨stage, hstage, hplan⟩
      · exact Or.inl (hcheck next hnext)
    · split at h
      · exact Or.inl (hcheck _ h)
      · exact Or.inl (hcheck _ h)

theorem addStep_error {stage : Stage} {cause : Failure}
    (h : s.addStep p stage = .error cause) : ∃ inner, cause = .stage stage.name .map inner := by
  unfold addStep at h
  dsimp only at h
  split at h <;> cases h
  exact ⟨_, rfl⟩

/-- The ways in which planning a stage fails. -/
theorem planStage_error {fuel : Nat} {name : String} {cause : Failure}
    (h : s.planStage (fuel + 1) visiting p name = .error cause) :
    name ∈ visiting ∧
      cause = .fault (.stageCycle (visiting.dropWhile (· ≠ name) ++ [name])) ∨
    s.flow.stages.get? name = none ∧ cause = .fault (.unknownStage name s.flow.platform) ∨
    p.planned.contains name = false ∧ ∃ stage, s.flow.stages.get? name = some stage ∧
      ((∃ before take after mid, stage.io.takes = before ++ take :: after ∧
        before.foldlM (fun p take => s.meet (s.planStage fuel (visiting ++ [name]))
          (.unmetTake take.name name) take.isRequired p take.name) p = .ok mid ∧
        s.meet (s.planStage fuel (visiting ++ [name])) (.unmetTake take.name name) take.isRequired
          mid take.name = .error cause) ∨
      ∃ inner, cause = .stage stage.name .map inner) := by
  unfold planStage at h
  split at h
  · cases h
  · rename_i hplanned
    dsimp only at h
    split at h
    · rename_i hvisiting
      cases h
      exact Or.inl ⟨hvisiting, rfl⟩
    · rcases bind_eq_error.mp h with hstage | ⟨stage, hstage, hrest⟩
      · unfold Flow.stage at hstage
        split at hstage
        · cases hstage
        · rename_i hunknown
          cases hstage
          exact Or.inr (Or.inl ⟨hunknown, rfl⟩)
      · refine Or.inr (Or.inr ⟨by simpa using hplanned, stage, Flow.stage_eq_ok_iff.mp hstage, ?_⟩)
        rcases bind_eq_error.mp hrest with hmet | ⟨met, -, hadd⟩
        · exact Or.inl (foldlM_error hmet)
        · exact Or.inr (addStep_error hadd)

/-- A cycle is reported when a stage is needed again while it waits. -/
theorem planStage_stageCycle (named : s.flow.Named)
    (hproducers : s.flow.producers = .ok producers) {fuel : Nat} {name : String}
    {stages : List String}
    (hp : Waits (Kept producers) visiting p)
    (chain : (visiting ++ [name]).IsChain s.flow.Takes)
    (needed : ∀ other ∈ visiting ++ [name], s.flow.Needs target other)
    (h : s.planStage fuel visiting p name = .error (.fault (.stageCycle stages))) :
    IsCycle s.flow.Takes stages ∧ ∀ other ∈ stages, s.flow.Needs target other := by
  induction fuel generalizing visiting p name with
  | zero => cases h
  | succ fuel ih =>
    rcases planStage_error h with ⟨hvisiting, hcause⟩ | ⟨-, hcause⟩ |
      ⟨hplanned, stage, hknown, ⟨before, take, after, mid, htakes, hbefore, hmeet⟩ | ⟨_, hcause⟩⟩
    · cases hcause
      refine ⟨isCycle_of_mem_chain chain hvisiting, fun other hother => needed other ?_⟩
      rcases List.mem_append.mp hother with hother | hother
      · exact List.mem_append_left _ ((List.dropWhile_sublist _).subset hother)
      · exact List.mem_append_right _ hother
    · cases hcause
    · have keeps := s.keeps_kept producers
      have hwaits : Waits (Kept producers) (visiting ++ [name]) p :=
        ⟨hp.holds, List.forall_mem_append.mpr
          ⟨hp.unplanned, List.forall_mem_singleton.mpr hplanned⟩⟩
      have hmid := meetAll_keeps keeps
        (fun p name after hp => planStage_keeps named keeps _ _ name hp) hwaits hbefore
      rcases meet_error hmeet with hcause | ⟨other, hother, hplan⟩
      · cases hcause
      · have htake : take ∈ stage.io.takes := by simp [htakes]
        have hmade := (Flow.get?_producers hproducers ..).mp (hmid.holds _ _ hother)
        have htaken : s.flow.Takes name other := ⟨stage, hknown, take, htake, hmade⟩
        refine ih hmid (List.isChain_append.mpr ⟨chain, .singleton _, by simpa using htaken⟩)
          (List.forall_mem_append.mpr ⟨needed, List.forall_mem_singleton.mpr ?_⟩) hplan
        exact .take (needed name (by simp)) hknown htake hmade
    · cases hcause

end PlanSources

theorem Flow.producers_error {f : Flow} {cause : Failure} (h : f.producers = .error cause) :
    ∃ dep other name, cause = .fault (.twoProducers dep other name) := by
  rw [producers_eq] at h
  obtain ⟨-, e, -, t, -, -, hstage⟩ := foldlM_error h
  obtain ⟨-, d, -, u, -, -, hproduct⟩ := foldlM_error hstage
  unfold enterProduct at hproduct
  split at hproduct <;> cases hproduct
  exact ⟨_, _, _, rfl⟩

section
variable {f : Flow} {target : String} {cache : Option Fingerprints} {disk : Disk}

/-- No stage that a plan is made of is on a cycle. -/
theorem plan_acyclic (named : f.Named) {plan : Plan} (h : f.plan target cache disk = .ok plan)
    {name : String} (needed : f.Needs target name) : ¬ Relation.TransGen f.Takes name name := by
  have hname := (plan_needed_iff named h name).mpr needed
  unfold Flow.plan at h
  obtain ⟨producers, hproducers, hrest⟩ := bind_eq_ok.mp h
  obtain ⟨p, hp, hplan⟩ := bind_eq_ok.mp hrest
  cases hplan
  have hstart : (f.planSources producers target cache disk).Stands producers target []
      (.start producers) := ⟨Planning.sound_start, by simp⟩
  have htarget : ∀ name, producers.get? target = some name → f.Needs target name :=
    fun name hname => .target ((Flow.get?_producers hproducers ..).mp hname)
  have room := PlanSources.room_start f
  have hstands := (hstart.meet
    (fun name needed => hstart.planStage named hproducers room needed) htarget hp).1
  have hidle : ∀ name, (Planning.start producers).planned.contains name = true →
      Acc (fun a b => f.Takes b a) name := by
    simp [Planning.start, Table.contains]
  have hends : ∀ name, p.planned.contains name = true → Acc (fun a b => f.Takes b a) name := by
    obtain ⟨-, ⟨-, rfl⟩ | ⟨name, hmade, hplan⟩ | ⟨-, ⟨v, -, rfl⟩ | ⟨missing, rfl⟩⟩⟩ :=
      PlanSources.meet_cases hp
    · exact hidle
    · exact hstart.planStage_ends named hproducers room (htarget name hmade) hidle hplan
    · exact hidle
    · exact hidle
  obtain ⟨step, hstep, rfl⟩ := List.mem_map.mp hname
  exact not_transGen_self_of_acc
    (hends step.stage ((hstands.sound.planned _).mpr ⟨step, hstep, rfl⟩))

/-- A cycle is reported only where there is one among the stages that are needed. -/
theorem plan_stageCycle (named : f.Named) {stages : List String}
    (h : f.plan target cache disk = .error (.fault (.stageCycle stages))) :
    IsCycle f.Takes stages ∧ ∀ name ∈ stages, f.Needs target name := by
  unfold Flow.plan at h
  rcases bind_eq_error.mp h with hfail | ⟨producers, hproducers, hrest⟩
  · obtain ⟨dep, other, name, hcause⟩ := Flow.producers_error hfail
    cases hcause
  · rcases bind_eq_error.mp hrest with hmeet | ⟨p, -, hplan⟩
    · rcases PlanSources.meet_error hmeet with hcause | ⟨name, hname, hplan⟩
      · cases hcause
      · have hmade := (Flow.get?_producers hproducers ..).mp hname
        exact PlanSources.planStage_stageCycle (s := f.planSources producers target cache disk)
          named hproducers ⟨fun _ _ h => h, by simp⟩ (.singleton _)
          (List.forall_mem_singleton.mpr (.target hmade)) hplan
    · cases hplan

/-- Planning needs neither fuel nor a bound on rounds. It fails if the stages that the target needs,
through required takes or optional ones, have a cycle, and it reports a cycle only there: the stages
it lists are needed, and each takes a product of the next. -/
theorem plan_cycles (named : f.Named) :
    f.plan target cache disk = f.planFreely target cache disk ∧
      ((∃ name, f.Needs target name ∧ Relation.TransGen f.Takes name name) →
        ∃ cause, f.plan target cache disk = .error cause) ∧
      ∀ stages, f.plan target cache disk = .error (.fault (.stageCycle stages)) →
        IsCycle f.Takes stages ∧ ∀ name ∈ stages, f.Needs target name := by
  refine ⟨plan_eq_planFreely f target cache disk, ?_, fun stages => plan_stageCycle named⟩
  rintro ⟨name, needed, cycle⟩
  cases h : f.plan target cache disk with
  | error cause => exact ⟨cause, rfl⟩
  | ok plan => exact absurd cycle (plan_acyclic named h needed)

end

/-! A ring of two copies, each taking what the other makes. -/
namespace Ring

def first : ToolModule :=
  copier {
    name := "first"
    takes := [.optional "second_out"]
    produces := [.required "first_out"] } "second_out" "first_out" "/first"

def second : ToolModule :=
  copier {
    name := "second"
    takes := [.required "first_out"]
    produces := [.required "second_out"] } "first_out" "second_out" "/second"

def flow : Flow where
  part := "part"
  platform := "ring"
  stages := Table.ofList [
    ("first", ⟨"first", "ring:first", first, .empty, .empty⟩),
    ("second", ⟨"second", "ring:second", second, .empty, .empty⟩)]
  dependencies := .empty
  defaultTarget := none
  roots := {}

/-- The cycle of a failure that reports one. -/
def reported? : Except Failure Plan → Option (List String)
  | .error (.fault (.stageCycle stages)) => some stages
  | _ => none

theorem eq_error_of_reported {x : Except Failure Plan} {stages : List String}
    (h : reported? x = some stages) : x = .error (.fault (.stageCycle stages)) := by
  unfold reported? at h
  split at h <;> cases h
  rfl

end Ring

/-- The ring has no plan: the stages wait for each other, although one take is optional. -/
theorem ring_plan_cycles :
    Ring.flow.Named ∧
      Ring.flow.plan "second_out" none Relay.disk =
        .error (.fault (.stageCycle ["second", "first", "second"])) ∧
      IsCycle Ring.flow.Takes ["second", "first", "second"] ∧
      ∀ name ∈ ["second", "first", "second"], Ring.flow.Needs "second_out" name := by
  have named : Ring.flow.Named := Flow.named_of_all (by decide +kernel)
  have hreported : Ring.reported? (Ring.flow.plan "second_out" none Relay.disk) =
      some ["second", "first", "second"] := by
    decide +kernel
  have hfails := Ring.eq_error_of_reported hreported
  exact ⟨named, hfails, (plan_cycles named).2.2 _ hfails⟩

end Toolflow
