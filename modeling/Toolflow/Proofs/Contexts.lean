import Toolflow.Context
import Toolflow.Proofs.Records

/-! What a context owes to the disk.

A context is built from a stage's inputs, its environment and the disk, but the disk matters in one
respect only: an optional take is bound when its files are there. `takeOn` is the value a take is
bound to, and two contexts of a stage that bind the same takes are the same context. -/
namespace Toolflow

theorem bind_eq_ok {ε α β : Type} {x : Except ε α} {f : α → Except ε β} {b : β} :
    x >>= f = .ok b ↔ ∃ a, x = .ok a ∧ f a = .ok b := by
  cases x with
  | error cause => simp [Bind.bind, Except.bind]
  | ok a => simp [Bind.bind, Except.bind]

/-- A fold keeps what each of its steps keeps. -/
theorem foldlM_keeps {α β : Type} {f : β → α → Except Failure β} {P : β → Prop} {l : List α}
    (each : ∀ a ∈ l, ∀ b after, P b → f b a = .ok after → P after) {b after : β} (hb : P b)
    (h : l.foldlM f b = .ok after) : P after := by
  induction l generalizing b with
  | nil =>
    cases h
    exact hb
  | cons a rest ih =>
    rw [List.foldlM_cons] at h
    obtain ⟨next, hnext, h⟩ := bind_eq_ok.mp h
    exact ih (fun a ha => each a (List.mem_cons_of_mem _ ha))
      (each a List.mem_cons_self b next hb hnext) h

/-- Each step of a fold that succeeds did so somewhere. -/
theorem foldlM_each {α β : Type} {f : β → α → Except Failure β} {l : List α} {b after : β}
    (h : l.foldlM f b = .ok after) {a : α} (ha : a ∈ l) : ∃ c next, f c a = .ok next := by
  induction l generalizing b with
  | nil => cases ha
  | cons e rest ih =>
    rw [List.foldlM_cons] at h
    obtain ⟨next, hnext, h⟩ := bind_eq_ok.mp h
    rcases List.mem_cons.mp ha with rfl | ha
    · exact ⟨b, next, hnext⟩
    · exact ih h ha

/-- Whether a computation succeeds with a result that passes a test. -/
def okAnd {α : Type} (x : Except Failure α) (p : α → Bool) : Bool :=
  match x with
  | .ok a => p a
  | .error _ => false

theorem exists_of_okAnd {α : Type} {x : Except Failure α} {p : α → Bool} (h : okAnd x p = true) :
    ∃ a, x = .ok a ∧ p a = true := by
  cases x with
  | error cause => cases h
  | ok a => exact ⟨a, rfl, h⟩

/-- Whether a list has one member, and it passes a test. -/
def singleAnd {α : Type} (l : List α) (p : α → Bool) : Bool :=
  match l with
  | [a] => p a
  | _ => false

theorem exists_of_singleAnd {α : Type} {l : List α} {p : α → Bool} (h : singleAnd l p = true) :
    ∃ a, l = [a] ∧ p a = true := by
  unfold singleAnd at h
  split at h
  · exact ⟨_, rfl, h⟩
  · cases h

/-- Whether a list has two members, and they pass a test. -/
def pairAnd {α : Type} (l : List α) (p : α → α → Bool) : Bool :=
  match l with
  | [a, b] => p a b
  | _ => false

theorem exists_of_pairAnd {α : Type} {l : List α} {p : α → α → Bool} (h : pairAnd l p = true) :
    ∃ a b, l = [a, b] ∧ p a b = true := by
  unfold pairAnd at h
  split at h
  · exact ⟨_, _, rfl, h⟩
  · cases h

/-- The declaration of a take that counts: a later one replaces those before it. -/
def Interface.take? (io : Interface) (name : String) : Option Declared :=
  io.takes.reverse.find? (·.name = name)

theorem Interface.take?_eq_some {io : Interface} {name : String} {d : Declared}
    (h : io.take? name = some d) : d ∈ io.takes ∧ d.name = name :=
  ⟨List.mem_reverse.mp (List.mem_of_find?_eq_some h), by simpa using List.find?_some h⟩

namespace Bindings

theorem entries_foldl_set (f : Declared → Option Value) (l : List Declared) (b : Bindings)
    (name : String) :
    (l.foldl (fun b d => b.set d.name (f d)) b).entries.get? name =
      ((l.reverse.find? (·.name = name)).map f).or (b.entries.get? name) := by
  induction l generalizing b with
  | nil => simp
  | cons d rest ih =>
    rw [List.foldl_cons, ih, List.reverse_cons, List.find?_append]
    by_cases hd : d.name = name
    · cases hrest : rest.reverse.find? (·.name = name) <;> simp [hd, set]
    · have hne : name ≠ d.name := fun heq => hd heq.symm
      cases hrest : rest.reverse.find? (·.name = name) <;>
        simp [hd, set, Table.get?_insert_of_ne _ _ hne]

theorem get?_foldl_set (f : Declared → Option Value) (l : List Declared) (stage : String)
    (kind : BindingKind) (name : String) :
    (l.foldl (fun b d => b.set d.name (f d)) (empty stage kind)).get? name =
      (l.reverse.find? (·.name = name)).bind f := by
  unfold get?
  rw [entries_foldl_set]
  cases l.reverse.find? (·.name = name) <;> simp [empty]

theorem ascending_foldl_set (f : Declared → Option Value) (l : List Declared) {b : Bindings}
    (h : b.entries.Ascending) :
    (l.foldl (fun b d => b.set d.name (f d)) b).entries.Ascending := by
  induction l generalizing b with
  | nil => exact h
  | cons d rest ih => exact ih (h.insert _ _)

theorem stage_kind_foldl_set (f : Declared → Option Value) (l : List Declared) (b : Bindings) :
    (l.foldl (fun b d => b.set d.name (f d)) b).stage = b.stage ∧
      (l.foldl (fun b d => b.set d.name (f d)) b).kind = b.kind := by
  induction l generalizing b with
  | nil => exact ⟨rfl, rfl⟩
  | cons d rest ih => exact ih (b.set d.name (f d))

/-- Setting a list of names to what two functions answer gives the same bindings when they agree
on the declarations that count. -/
theorem foldl_set_congr {f g : Declared → Option Value} {l : List Declared} {stage : String}
    {kind : BindingKind}
    (h : ∀ name, (l.reverse.find? (·.name = name)).bind f =
      (l.reverse.find? (·.name = name)).bind g) :
    l.foldl (fun b d => b.set d.name (f d)) (empty stage kind) =
      l.foldl (fun b d => b.set d.name (g d)) (empty stage kind) := by
  have hempty : (empty stage kind).entries.Ascending := Table.ascending_empty
  have hentries := (ascending_foldl_set f l hempty).ext (ascending_foldl_set g l hempty) (by
    intro name
    rw [entries_foldl_set, entries_foldl_set]
    have hname := h name
    cases hd : l.reverse.find? (·.name = name) with
    | none => rfl
    | some d => rw [hd] at hname; simpa using hname)
  obtain ⟨hfs, hfk⟩ := stage_kind_foldl_set f l (empty stage kind)
  obtain ⟨hgs, hgk⟩ := stage_kind_foldl_set g l (empty stage kind)
  exact Bindings.mk.injEq .. ▸ ⟨hfs.trans hgs.symm, hfk.trans hgk.symm, hentries⟩

theorem ascending_bound {b : Bindings} (h : b.entries.Ascending) : b.bound.Ascending :=
  h.filterMap _

theorem get?_bound {b : Bindings} (h : b.entries.Ascending) (name : String) :
    b.bound.get? name = b.get? name := by
  unfold bound get?
  rw [h.get?_filterMap]
  cases b.entries.get? name <;> rfl

end Bindings

namespace Context

/-- What a declared name is bound to: its value resolved, unless it is turned down. -/
def offer (found : String → Option Value) (env : Environment) (accept : Value → Bool)
    (d : Declared) : Option Value :=
  ((found d.name).bind Value.present?).bind fun v =>
    if d.isRequired || accept (env.resolve v) then some (env.resolve v) else none

theorem bindDeclared_eq (stage : String) (kind : BindingKind) (found : String → Option Value)
    (env : Environment) (accept : Value → Bool) (b : Bindings) (d : Declared) :
    bindDeclared stage kind found env accept b d =
      if d.isRequired = true ∧ (found d.name).bind Value.present? = none then
        refuse (.notProvided kind d.name stage)
      else .ok (b.set d.name (offer found env accept d)) := by
  unfold bindDeclared offer
  cases hfound : (found d.name).bind Value.present? with
  | none => by_cases hd : d.isRequired = true <;> simp [hd]
  | some v => by_cases hd : d.isRequired = true <;> simp [hd]

/-- Setting names in turn, where some may be refused, either refuses one or sets them all. -/
theorem foldlM_set {f : Bindings → Declared → Except Failure Bindings} {bad : Declared → Prop}
    [DecidablePred bad] {cause : Declared → Fault} {g : Declared → Option Value}
    (hf : ∀ b d, f b d = if bad d then refuse (cause d) else .ok (b.set d.name (g d)))
    {l : List Declared} {b after : Bindings} :
    l.foldlM f b = .ok after ↔
      (∀ d ∈ l, ¬ bad d) ∧ after = l.foldl (fun b d => b.set d.name (g d)) b := by
  induction l generalizing b with
  | nil =>
    constructor
    · rintro ⟨⟩
      exact ⟨by simp, rfl⟩
    · rintro ⟨-, rfl⟩
      rfl
  | cons d rest ih =>
    rw [List.foldlM_cons, bind_eq_ok, hf, List.forall_mem_cons, List.foldl_cons]
    by_cases hd : bad d
    · rw [if_pos hd]
      constructor
      · rintro ⟨a, hrefuse, -⟩
        cases hrefuse
      · rintro ⟨⟨hgood, -⟩, -⟩
        exact absurd hd hgood
    · simp only [if_neg hd, Except.ok.injEq, exists_eq_left', ih]
      exact ⟨fun h => ⟨⟨hd, h.1⟩, h.2⟩, fun h => ⟨h.1.2, h.2⟩⟩

/-- Binding all declared names either misses a required one, whatever is turned down, or gives
each name its offer. -/
theorem foldlM_bindDeclared {stage : String} {kind : BindingKind}
    {found : String → Option Value} {env : Environment} {accept : Value → Bool}
    {l : List Declared} {b after : Bindings} :
    l.foldlM (bindDeclared stage kind found env accept) b = .ok after ↔
      (∀ d ∈ l, ¬ (d.isRequired = true ∧ (found d.name).bind Value.present? = none)) ∧
        after = l.foldl (fun b d => b.set d.name (offer found env accept d)) b :=
  foldlM_set (bindDeclared_eq stage kind found env accept)

/-- What a stage's take is bound to on a disk. -/
def takeOn (io : Interface) (inputs : StageInputs) (env : Environment) (disk : Disk)
    (name : String) : Option Value :=
  (io.take? name).bind (offer inputs.takes.get? env disk.holds)

/-- A take that is bound has its input, resolved; an optional one has its files on the disk. -/
theorem takeOn_eq_some_iff {io : Interface} {inputs : StageInputs} {env : Environment}
    {disk : Disk} {name : String} {v : Value} :
    takeOn io inputs env disk name = some v ↔
      ∃ d planned, io.take? name = some d ∧ inputs.takes.get? name = some planned ∧
        planned.isNull = false ∧ env.resolve planned = v ∧
          (d.isRequired = true ∨ disk.holds v = true) := by
  unfold takeOn offer
  constructor
  · intro h
    obtain ⟨d, hd, h⟩ := Option.bind_eq_some_iff.mp h
    obtain ⟨planned, hplanned, h⟩ := Option.bind_eq_some_iff.mp h
    obtain ⟨found, hfound, hpresent⟩ := Option.bind_eq_some_iff.mp hplanned
    have hname := (Interface.take?_eq_some hd).2
    unfold Value.present? at hpresent
    split at hpresent
    · cases hpresent
    · rename_i hnull
      cases hpresent
      split at h
      · rename_i haccept
        cases h
        exact ⟨d, planned, hd, hname ▸ hfound, by simpa using hnull, rfl, by simpa using haccept⟩
      · cases h
  · rintro ⟨d, planned, hd, hfound, hnull, rfl, haccept⟩
    have hname := (Interface.take?_eq_some hd).2
    rcases haccept with hrequired | hholds
    · simp [hd, hname, hfound, Value.present?, hnull, hrequired]
    · simp [hd, hname, hfound, Value.present?, hnull, hholds]

/-- A take is bound alike on two disks that accept the same value for it. -/
theorem takeOn_congr {io : Interface} {inputs : StageInputs} {env : Environment}
    {disk other : Disk} {name : String}
    (h : ∀ d planned, io.take? name = some d → inputs.takes.get? name = some planned →
      planned.isNull = false →
      (d.isRequired = true ∨ other.holds (env.resolve planned) = true ↔
        d.isRequired = true ∨ disk.holds (env.resolve planned) = true)) :
    takeOn io inputs env other name = takeOn io inputs env disk name := by
  refine Option.ext fun v => ?_
  rw [takeOn_eq_some_iff, takeOn_eq_some_iff]
  constructor
  · rintro ⟨d, planned, hd, hplanned, hnull, rfl, hother⟩
    exact ⟨d, planned, hd, hplanned, hnull, rfl, (h d planned hd hplanned hnull).mp hother⟩
  · rintro ⟨d, planned, hd, hplanned, hnull, rfl, hdisk⟩
    exact ⟨d, planned, hd, hplanned, hnull, rfl, (h d planned hd hplanned hnull).mpr hdisk⟩

section
variable {io : Interface} {stage : String} {inputs : StageInputs} {env : Environment}
  {roots : Roots} {disk : Disk} {ctx : Context}

/-- The takes of a context, all bound at once. -/
def boundTakes (io : Interface) (stage : String) (inputs : StageInputs) (env : Environment)
    (disk : Disk) : Bindings :=
  io.takes.foldl (fun b d => b.set d.name (offer inputs.takes.get? env disk.holds d))
    (.empty stage .dependency)

theorem ofInputs_takes (h : ofInputs io stage inputs env roots disk = .ok ctx) :
    ctx.takes = boundTakes io stage inputs env disk := by
  unfold ofInputs at h
  obtain ⟨takes, htakes, h⟩ := bind_eq_ok.mp h
  obtain ⟨values, -, h⟩ := bind_eq_ok.mp h
  cases h
  exact (foldlM_bindDeclared.mp htakes).2

theorem get?_boundTakes (name : String) :
    (boundTakes io stage inputs env disk).get? name = takeOn io inputs env disk name :=
  Bindings.get?_foldl_set _ _ _ _ _

/-- Two disks on which the same takes are bound give a stage the same inputs. -/
theorem ofInputs_congr {other : Disk} (h : ofInputs io stage inputs env roots disk = .ok ctx)
    (hcwd : other.cwd = disk.cwd)
    (htakes : ∀ name, takeOn io inputs env other name = takeOn io inputs env disk name) :
    ofInputs io stage inputs env roots other = .ok ctx := by
  unfold ofInputs at h ⊢
  obtain ⟨takes, hfirst, h⟩ := bind_eq_ok.mp h
  obtain ⟨hpresent, rfl⟩ := foldlM_bindDeclared.mp hfirst
  have hsame : io.takes.foldlM
      (bindDeclared stage .dependency inputs.takes.get? env other.holds)
      (.empty stage .dependency) =
        .ok (io.takes.foldl
          (fun b d => b.set d.name (offer inputs.takes.get? env disk.holds d))
          (.empty stage .dependency)) :=
    foldlM_bindDeclared.mpr ⟨hpresent, (Bindings.foldl_set_congr htakes).symm⟩
  exact bind_eq_ok.mpr ⟨_, hsame, by rw [hcwd]; exact h⟩

/-- The takes that are bound and the outputs the user bound determine the rest of a stage's
inputs. -/
theorem ofInputs_ext {other : Disk} {oinputs : StageInputs} {octx : Context}
    (h : ofInputs io stage inputs env roots disk = .ok ctx)
    (ho : ofInputs io stage oinputs env roots other = .ok octx) (hcwd : other.cwd = disk.cwd)
    (htakes : octx.takes = ctx.takes) (hproduces : oinputs.produces = inputs.produces) :
    octx = ctx := by
  unfold ofInputs at h ho
  obtain ⟨takes, -, h⟩ := bind_eq_ok.mp h
  obtain ⟨values, hvalues, h⟩ := bind_eq_ok.mp h
  obtain ⟨otakes, -, ho⟩ := bind_eq_ok.mp ho
  obtain ⟨ovalues, hovalues, ho⟩ := bind_eq_ok.mp ho
  cases h
  cases ho
  have hsame : ovalues = values := Except.ok.inj (hovalues.symm.trans hvalues)
  dsimp only at htakes
  rw [htakes, hsame, hcwd, hproduces]

end

section
variable {m : ToolModule} {stage : String} {inputs : StageInputs} {env : Environment}
  {roots : Roots} {disk : Disk} {ctx : Context}

/-- The parts of a context: its inputs, the module's defaults and the outputs bound from both. -/
theorem build_eq_ok_iff :
    build m stage inputs env roots disk = .ok ctx ↔
      ∃ base defaults outputs, ofInputs m.io stage inputs env roots disk = .ok base ∧
        m.outputs base = .ok defaults ∧
        m.io.produces.foldlM (base.bindOutput defaults inputs.demanded disk.cwd)
          (.empty stage .output) = .ok outputs ∧
        base.takes.checkResolved = .ok () ∧ outputs.checkResolved = .ok () ∧
        ctx = { base with outputs } := by
  unfold build
  simp only [bind_eq_ok]
  constructor
  · rintro ⟨base, hbase, defaults, hdefaults, outputs, houtputs, ⟨⟩, htakes, ⟨⟩, hresolved, h⟩
    cases h
    exact ⟨base, defaults, outputs, hbase, hdefaults, houtputs, htakes, hresolved, rfl⟩
  · rintro ⟨base, defaults, outputs, hbase, hdefaults, houtputs, htakes, hresolved, rfl⟩
    exact ⟨base, hbase, defaults, hdefaults, outputs, houtputs, (), htakes, (), hresolved, rfl⟩

theorem bindOutput_eq (ctx : Context) (defaults : ValueTable) (demanded : NameSet) (cwd : String)
    (b : Bindings) (d : Declared) :
    ctx.bindOutput defaults demanded cwd b d =
      if d.isRequired = true ∧ ctx.outputPath defaults demanded d = none then
        refuse (.noOutputPath ctx.stage d.name)
      else .ok (b.set d.name ((ctx.outputPath defaults demanded d).map (Value.absolute cwd))) := by
  unfold bindOutput
  cases hpath : ctx.outputPath defaults demanded d with
  | none => by_cases hd : d.isRequired = true <;> simp [hd]
  | some v => simp

/-- The outputs of a context: each product at its path, as seen from the working directory. -/
theorem build_outputs (h : build m stage inputs env roots disk = .ok ctx) :
    ∃ base defaults, ofInputs m.io stage inputs env roots disk = .ok base ∧
      m.outputs base = .ok defaults ∧ ctx = { base with outputs := ctx.outputs } ∧
      ctx.outputs = m.io.produces.foldl (fun b d => b.set d.name
        ((base.outputPath defaults inputs.demanded d).map (Value.absolute disk.cwd)))
        (.empty stage .output) := by
  obtain ⟨base, defaults, outputs, hbase, hdefaults, houtputs, -, -, rfl⟩ := build_eq_ok_iff.mp h
  exact ⟨base, defaults, hbase, hdefaults, rfl,
    ((foldlM_set (bindOutput_eq base defaults inputs.demanded disk.cwd)).mp houtputs).2⟩

theorem build_takes (h : build m stage inputs env roots disk = .ok ctx) :
    ctx.takes = boundTakes m.io stage inputs env disk := by
  obtain ⟨base, defaults, outputs, hbase, -, -, -, -, rfl⟩ := build_eq_ok_iff.mp h
  have htakes := ofInputs_takes hbase
  exact htakes

theorem build_take (h : build m stage inputs env roots disk = .ok ctx) (name : String) :
    ctx.takes.get? name = takeOn m.io inputs env disk name := by
  rw [build_takes h, get?_boundTakes]

/-- Required takes are fed. -/
theorem build_required (h : build m stage inputs env roots disk = .ok ctx) {name : String}
    {d : Declared} (hd : m.io.take? name = some d) (hrequired : d.isRequired = true) :
    ∃ planned, inputs.takes.get? name = some planned ∧ planned.isNull = false := by
  obtain ⟨base, -, -, hbase, -, -, -, -, -⟩ := build_eq_ok_iff.mp h
  unfold ofInputs at hbase
  obtain ⟨takes, htakes, -⟩ := bind_eq_ok.mp hbase
  obtain ⟨hmem, rfl⟩ := Interface.take?_eq_some hd
  have hpresent := (foldlM_bindDeclared.mp htakes).1 d hmem
  cases hplanned : inputs.takes.get? d.name with
  | none => exact absurd ⟨hrequired, by rw [hplanned]; rfl⟩ hpresent
  | some planned =>
    refine ⟨planned, rfl, ?_⟩
    by_contra hnull
    refine hpresent ⟨hrequired, ?_⟩
    simp [hplanned, Value.present?, hnull]

/-- What the user bound depends on the inputs alone. -/
theorem build_produces {other : Disk} {octx : Context}
    (h : build m stage inputs env roots disk = .ok ctx)
    (ho : build m stage inputs env roots other = .ok octx) : octx.produces = ctx.produces := by
  have hproduces : ∀ {d : Disk} {c : Context}, build m stage inputs env roots d = .ok c →
      c.produces = m.io.produces.foldl (fun (b : Bindings) d =>
        b.set d.name (((inputs.produces.get? d.name).bind Value.present?).map env.resolve))
        (.empty stage .output) := by
    intro d c hc
    obtain ⟨base, defaults, outputs, hbase, -, -, -, -, rfl⟩ := build_eq_ok_iff.mp hc
    unfold ofInputs at hbase
    obtain ⟨takes, -, hrest⟩ := bind_eq_ok.mp hbase
    obtain ⟨values, -, hlast⟩ := bind_eq_ok.mp hrest
    cases hlast
    rfl
  rw [hproduces h, hproduces ho]

/-- The takes of a context determine the rest of it. -/
theorem build_ext {other : Disk} {octx : Context}
    (h : build m stage inputs env roots disk = .ok ctx)
    (ho : build m stage inputs env roots other = .ok octx) (hcwd : other.cwd = disk.cwd)
    (htakes : octx.takes = ctx.takes) : octx = ctx := by
  obtain ⟨base, defaults, outputs, hbase, hdefaults, houtputs, -, -, rfl⟩ := build_eq_ok_iff.mp h
  obtain ⟨obase, odefaults, ooutputs, hobase, hodefaults, hooutputs, -, -, rfl⟩ :=
    build_eq_ok_iff.mp ho
  have hsame : obase = base := ofInputs_ext hbase hobase hcwd htakes rfl
  subst hsame
  cases hdefaults.symm.trans hodefaults
  rw [hcwd, houtputs] at hooutputs
  cases hooutputs
  rfl

theorem ascending_outputs (h : build m stage inputs env roots disk = .ok ctx) :
    ctx.outputs.entries.Ascending := by
  obtain ⟨base, defaults, -, -, -, houtputs⟩ := build_outputs h
  rw [houtputs]
  exact Bindings.ascending_foldl_set _ _ Table.ascending_empty

/-- Only declared products are bound. -/
theorem output_declared (h : build m stage inputs env roots disk = .ok ctx) {name : String}
    {v : Value} (hv : ctx.outputs.get? name = some v) : ∃ d ∈ m.io.produces, d.name = name := by
  obtain ⟨base, defaults, -, -, -, houtputs⟩ := build_outputs h
  rw [houtputs, Bindings.get?_foldl_set, Option.bind_eq_some_iff] at hv
  obtain ⟨d, hd, -⟩ := hv
  have hname := List.find?_some hd
  exact ⟨d, List.mem_reverse.mp (List.mem_of_find?_eq_some hd), by simpa using hname⟩

/-- A context depends on the disk only through the takes that are bound there. -/
theorem build_congr {other : Disk} (h : build m stage inputs env roots disk = .ok ctx)
    (hcwd : other.cwd = disk.cwd)
    (htakes : ∀ name, takeOn m.io inputs env other name = takeOn m.io inputs env disk name) :
    build m stage inputs env roots other = .ok ctx := by
  obtain ⟨base, defaults, outputs, hbase, hdefaults, houtputs, hchecked, hresolved, rfl⟩ :=
    build_eq_ok_iff.mp h
  exact build_eq_ok_iff.mpr ⟨base, defaults, outputs, ofInputs_congr hbase hcwd htakes, hdefaults,
    by rw [hcwd]; exact houtputs, hchecked, hresolved, rfl⟩

end
end Context

theorem Disk.holds_iff (disk : Disk) (v : Value) :
    disk.holds v = true ↔ v.strings ≠ [] ∧ ∀ path ∈ v.strings, disk.exists? path = true := by
  unfold Disk.holds
  simp

theorem Disk.holds_congr {d e : Disk} {v : Value}
    (h : ∀ path ∈ v.strings, d.exists? path = e.exists? path) : d.holds v = e.holds v := by
  rw [Bool.eq_iff_iff, Disk.holds_iff, Disk.holds_iff]
  constructor
  · rintro ⟨hsome, hall⟩
    exact ⟨hsome, fun path hpath => h path hpath ▸ hall path hpath⟩
  · rintro ⟨hsome, hall⟩
    exact ⟨hsome, fun path hpath => (h path hpath).symm ▸ hall path hpath⟩

end Toolflow
