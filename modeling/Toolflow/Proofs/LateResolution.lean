import Toolflow.Proofs.Composition
import Toolflow.Proofs.ListedDependencies

/-! Bindings that only a stage can resolve.

A dependency can be bound to a path that begins with a variable of some stages only. The flow leaves
the token for later, yet it takes the text for a relative pathname and puts the working directory in
front of it. When a stage fills the token, the directory stays there: the path of the dependency is
below the working directory, even where the variable stands for an absolute directory. -/
namespace Toolflow

open Reference (TokenFree isBodyChar nameOf pieces)

/-! ### Texts with one token -/

theorem Reference.pieces_around {s t body : List Char} (hs : TokenFree s)
    (inside : ∀ c ∈ body, isBodyChar c = true) (ht : TokenFree t) :
    pieces (s ++ ((Piece.token body).chars ++ t)) = s.map .char ++ .token body :: t.map .char := by
  have htoken : pieces ((Piece.token body).chars ++ t) = .token body :: t.map .char := by
    rw [token_append, pieces_token _ _ inside, pieces_of_tokenFree ht]
  rw [← htoken]
  exact pieces_tokenFree_append hs

namespace Environment
variable {env : Environment} {final : Bool} {text : String} {s t body item : List Char}

theorem expand_chars (fill : List Char → Filling) (s : List Char) (ps : List Piece) :
    expand fill (s.map .char ++ ps) = (expand fill ps).map (s ++ ·) := by
  induction s with
  | nil => simp
  | cons c rest ih => simp [expand, ih]

/-- The only token of a text is filled where it stands. -/
theorem resolveText_around (htext : text.toList = s ++ ((Piece.token body).chars ++ t))
    (hs : TokenFree s) (inside : ∀ c ∈ body, isBodyChar c = true) (ht : TokenFree t)
    (hfill : env.filling final body = .one item) :
    env.resolveText final text = .str (String.ofList (s ++ (item ++ t))) := by
  have hrest : expand (env.filling final) (t.map .char) = [t] := by
    have hchars := expand_chars (env.filling final) t []
    simpa [expand] using hchars
  have hfans : fansOut (env.filling final) (s.map .char ++ .token body :: t.map .char) = false := by
    simp [fansOut, hfill, Filling.fansOut]
  rw [resolveText, substitute, htext, Reference.pieces_around hs inside ht, hfans, expand_chars,
    expand, hrest, hfill]
  rfl

theorem resolve_str (env : Environment) (text : String) :
    env.resolve (.str text) = env.resolveText false text := by
  rw [resolve, Value.mapStrings]

theorem filling_str {d : String} (h : env.get? (nameOf body) = some (.str d)) :
    env.filling final body = .one d.toList := by
  simp [filling, h, Value.scalarText?]

end Environment

/-! ### Below the working directory -/

/-- A path below the working directory, with the components of what the variable stands for between
those of the directory and the rest. It is the path that resolving the text at once gives only where
that is relative, or the working directory is the root. -/
structure LandsBelow (cwd d rest p : String) : Prop where
  absolute : Pathname.isAbsolute p = true
  names : Pathname.names p = Pathname.names cwd ++ Pathname.names d ++ Pathname.names rest
  atOnce : Pathname.same p (Pathname.absoluteText cwd (d ++ "/" ++ rest)) = true ↔
    Pathname.isAbsolute (d ++ "/" ++ rest) = false ∨ Pathname.names cwd = []

theorem landsBelow_of_names {cwd d rest p : String} (rooted : Pathname.isAbsolute cwd = true)
    (absolute : Pathname.isAbsolute p = true)
    (names : Pathname.names p = Pathname.names cwd ++ Pathname.names d ++ Pathname.names rest) :
    LandsBelow cwd d rest p where
  absolute := absolute
  names := names
  atOnce := by
    rw [Pathname.same_iff absolute (Pathname.isAbsolute_absoluteText rooted _),
      Pathname.names_absoluteText, Pathname.names_append_slash, names, List.append_assoc]
    cases Pathname.isAbsolute (d ++ "/" ++ rest) with
    | false => simp
    | true => simp

/-- Seen from the directory once more, it stays where it is. -/
theorem LandsBelow.again {cwd d rest p : String} (rooted : Pathname.isAbsolute cwd = true)
    (h : LandsBelow cwd d rest p) : LandsBelow cwd d rest (Pathname.absoluteText cwd p) := by
  refine landsBelow_of_names rooted (Pathname.isAbsolute_absoluteText rooted p) ?_
  rw [Pathname.names_absoluteText, if_pos h.absolute, List.nil_append, h.names]

/-! ### The text of a late binding -/

/-- The text of a binding that begins with a token: `${name}/rest`. -/
def lateText (body : List Char) (rest : String) : String :=
  String.ofList (Piece.token body).chars ++ "/" ++ rest

/-- The token of a late binding can be read as a part of a pathname, and the rest has none. -/
structure Late (body : List Char) (rest : String) : Prop where
  inside : ∀ c ∈ body, isBodyChar c = true
  kept : ∀ part ∈ Pathname.cut (Piece.token body).chars, Pathname.isComponent part = true
  free : TokenFree rest.toList

namespace Late
variable {body : List Char} {rest cwd d : String}

theorem toList_lateText (body : List Char) (rest : String) :
    (lateText body rest).toList = (Piece.token body).chars ++ '/' :: rest.toList := by
  simp [lateText]

/-- The token and the components of the rest. -/
theorem slashedParts_components (h : Late body rest) :
    Pathname.slashedParts (Pathname.components (lateText body rest)) =
      (Piece.token body).chars ++ '/' :: Pathname.slashedParts (Pathname.components rest) := by
  rw [Pathname.components, toList_lateText, Pathname.cut_append, List.filter_append,
    List.filter_eq_self.mpr h.kept, Pathname.slashedParts_append,
    Pathname.slashedParts_eq (Pathname.cut_ne_nil _), Pathname.joinParts_cut, List.append_assoc]
  rfl

/-- What stands behind the token once the text has been seen from a directory: the components of the
rest, with or without a separator at the end. -/
def Tail (rest : String) (tail : List Char) : Prop :=
  tail = '/' :: Pathname.slashedParts (Pathname.components rest) ∨
    tail ++ ['/'] = '/' :: Pathname.slashedParts (Pathname.components rest)

theorem Tail.tokenFree (h : Late body rest) {tail : List Char} (htail : Tail rest tail) :
    TokenFree tail := by
  have hparts : TokenFree ('/' :: Pathname.slashedParts (Pathname.components rest)) :=
    Reference.tokenFree_cons_slash.mpr (Pathname.tokenFree_slashedParts h.free)
  rcases htail with rfl | hslash
  · exact hparts
  · exact Reference.tokenFree_concat_slash.mp (hslash ▸ hparts)

/-- A text with such a tail has the components of the rest behind its own. -/
theorem Tail.names {tail : List Char} (htail : Tail rest tail) (d : String) :
    Pathname.names (d ++ String.ofList tail) = Pathname.names d ++ Pathname.names rest := by
  have hparts : Pathname.names (d ++ "/" ++
      String.ofList (Pathname.slashedParts (Pathname.components rest))) =
      Pathname.names d ++ Pathname.names rest := by
    rw [Pathname.names_append_slash, Pathname.names_eq rest,
      Pathname.names_slashedParts fun part => Pathname.component_of_mem]
    rfl
  rw [← hparts]
  rcases htail with rfl | hslash
  · rw [String.ofList_cons]
    simp [String.append_assoc]
  · rw [← Pathname.names_concat_slash]
    refine congrArg Pathname.names (String.toList_inj.mp ?_)
    simp [hslash]

/-- Seen from a directory, the token stands right behind the directory. -/
theorem exists_tail (h : Late body rest) (rooted : Pathname.isAbsolute cwd = true) :
    ∃ tail, Tail rest tail ∧ (Pathname.absoluteText cwd (lateText body rest)).toList =
      Pathname.slashed cwd ++ ((Piece.token body).chars ++ tail) := by
  have htext := toList_lateText body rest
  have relative : Pathname.isAbsolute (lateText body rest) = false := by
    simp [Pathname.isAbsolute, htext, Piece.chars]
  have nonempty : (lateText body rest).isEmpty = false := by
    rw [Bool.eq_false_iff]
    intro hempty
    rw [String.isEmpty_iff.mp hempty] at htext
    cases htext
  have hslashed := Pathname.slashed_absoluteText rooted relative nonempty
  rw [h.slashedParts_components] at hslashed
  rcases Pathname.eq_slashed_or_append (Pathname.absoluteText cwd (lateText body rest)) with
    hsame | hslash
  · exact ⟨_, Or.inl rfl, hsame.trans hslashed⟩
  · -- The separator that is missing at the end is the last character of the tail.
    obtain ⟨tail, c, htail⟩ := (List.eq_nil_or_concat'
      ('/' :: Pathname.slashedParts (Pathname.components rest))).resolve_left (List.cons_ne_nil _ _)
    have hends := hslash.trans hslashed
    rw [htail, ← List.append_assoc, ← List.append_assoc] at hends
    obtain ⟨hfront, hc⟩ := List.append_inj' hends rfl
    cases hc
    exact ⟨tail, Or.inr htail.symm, by rw [hfront, List.append_assoc]⟩

/-- A flow that does not know the variable leaves the text as it is. -/
theorem resolve_unbound (h : Late body rest) {env : Environment}
    (unbound : env.get? (nameOf body) = none) :
    env.resolve (.str (lateText body rest)) = .str (lateText body rest) := by
  refine Environment.resolveText_of_kept fun other hother => ?_
  rw [toList_lateText, ← List.nil_append (_ ++ _), Reference.pieces_around
    Reference.tokenFree_nil h.inside (Reference.tokenFree_cons_slash.mpr h.free)] at hother
  have hsame : other = body := by simpa using hother
  simp [Environment.filling, hsame, unbound]

/-- A stage that knows it resolves the text at once to a pathname that begins with what it stands
for. -/
theorem resolve_once (h : Late body rest) {env : Environment}
    (found : env.get? (nameOf body) = some (.str d)) :
    env.resolve (.str (lateText body rest)) = .str (d ++ "/" ++ rest) := by
  have htext : (lateText body rest).toList =
      [] ++ ((Piece.token body).chars ++ '/' :: rest.toList) := toList_lateText body rest
  rw [Environment.resolve_str, Environment.resolveText_around htext Reference.tokenFree_nil h.inside
    (Reference.tokenFree_cons_slash.mpr h.free) (Environment.filling_str found)]
  refine congrArg Value.str (String.toList_inj.mp ?_)
  simp

/-- Seen from a directory first, the text is resolved to a pathname below that directory. -/
theorem resolve_below (h : Late body rest) (rooted : Pathname.isAbsolute cwd = true)
    (plain : TokenFree cwd.toList) {env : Environment}
    (found : env.get? (nameOf body) = some (.str d)) :
    ∃ p, env.resolve (.str (Pathname.absoluteText cwd (lateText body rest))) = .str p ∧
      LandsBelow cwd d rest p := by
  obtain ⟨tail, htail, htext⟩ := h.exists_tail rooted
  refine ⟨_, (env.resolve_str _).trans (Environment.resolveText_around htext
    (Pathname.tokenFree_slashed plain) h.inside (htail.tokenFree h)
    (Environment.filling_str found)), landsBelow_of_names rooted ?_ ?_⟩
  · rw [String.ofList_append]
    exact Pathname.isAbsolute_append (Pathname.isAbsolute_slashed rooted) _
  · rw [String.ofList_append, Pathname.names_slashed_append, String.ofList_append,
      String.ofList_toList, htail.names, List.append_assoc]

end Late

/-! ### Late bindings in a plan -/

/-- The sources bind a dependency to a text whose token the flow cannot fill. -/
structure FlowSources.BindsLate (s : FlowSources) (dep : String) (body : List Char)
    (rest : String) : Prop where
  bound : (merged s.bindings).get? dep = some (.str (lateText body rest))
  unbound : ∀ env, s.layered s.layers = .ok env → env.get? (nameOf body) = none
  late : Late body rest

theorem Value.absolute_str (cwd text : String) :
    (Value.str text).absolute cwd = .str (Pathname.absoluteText cwd text) := by
  rw [Value.absolute, Value.mapStrings]

section
variable {s : FlowSources} {registry : Registry} {cwd : String} {flow : Flow} {dep : String}
  {body : List Char} {rest : String}

/-- The flow binds the dependency to the text as it is seen from the working directory. -/
theorem compose_late (h : s.compose registry cwd = .ok flow) (late : s.BindsLate dep body rest) :
    flow.dependencies.get? dep =
      some (.str (Pathname.absoluteText cwd (lateText body rest))) := by
  obtain ⟨env, stages, henv, -, rfl⟩ := FlowSources.eq_of_compose h
  show ((FlowSources.merged s.bindings).map _).get? dep = _
  rw [Table.get?_map, late.bound, Option.map_some,
    late.late.resolve_unbound (late.unbound env henv), Value.absolute_str]

end

section
variable {f : Flow} {target dep : String} {cache : Option Fingerprints} {disk : Disk} {plan : Plan}
  {step : PlanStep}

/-- A take is fed with the output of a step, or with its binding. -/
theorem fed_of_plan (named : f.Named) (h : f.plan target cache disk = .ok plan)
    (hstep : step ∈ plan.steps) {stage : Stage} (known : f.stages.get? step.stage = some stage)
    {take : Declared} (declared : take ∈ stage.io.takes) {planned : Value}
    (fed : step.inputs.takes.get? take.name = some planned) :
    (∃ maker ∈ plan.steps, maker.outputs.get? take.name = some planned) ∨
      f.dependencies.get? take.name = some planned := by
  obtain ⟨producers, p, -, hsteps, -, sound, -⟩ := plan_sound named h
  rw [hsteps] at hstep ⊢
  obtain ⟨before, after, order⟩ := List.append_of_mem hstep
  obtain ⟨found, hfound, fits⟩ := sound.fits before step after order
  cases known.symm.trans hfound
  refine (fits.fed take declared planned fed).imp (fun ⟨maker, hmaker, hmade⟩ => ?_) And.right
  exact ⟨maker, order ▸ List.mem_append_left _ hmaker, hmade⟩

/-- A product goes where its binding, resolved by the stage, is seen from the working directory. -/
theorem output_of_binding (named : f.Named) (h : f.plan target cache disk = .ok plan)
    (hstep : step ∈ plan.steps) {other : Disk} {stage : Stage} {ctx : Context}
    (reached : Reached f step other stage ctx) {d : Declared} (declared : d ∈ stage.io.produces)
    {v : Value} (bound : f.dependencies.get? d.name = some v) (present : v.isNull = false) :
    ctx.outputs.get? d.name = some ((step.env.resolve v).absolute other.cwd) := by
  obtain ⟨producers, hproducers, hbuilt⟩ := plan_built named h
  obtain ⟨found, first, paths, hfirst, -, hinputs⟩ := hbuilt step hstep
  cases hfirst.known.symm.trans reached.known
  have hinput : step.inputs.produces.get? d.name = some v := by
    rw [hinputs, PlanSources.inputsOf_produces _ _ declared]
    exact bound
  exact Context.build_explicit (Flow.producers_nodup hproducers reached.known) reached.built
    declared hinput present

/-- So does what a step of the plan hands on, and it refers to no variable. -/
theorem handed_on (named : f.Named) (h : f.plan target cache disk = .ok plan)
    (hstep : step ∈ plan.steps) {v made : Value} (bound : f.dependencies.get? dep = some v)
    (present : v.isNull = false) (hmade : step.outputs.get? dep = some made) :
    made = (step.env.resolve v).absolute disk.cwd ∧ made.TokenFree := by
  obtain ⟨producers, -, hbuilt⟩ := plan_built named h
  obtain ⟨stage, ctx, -, reached, houtputs, -⟩ := hbuilt step hstep
  rw [houtputs, Bindings.get?_bound (Context.ascending_outputs reached.built)] at hmade
  obtain ⟨d, declared, rfl⟩ := Context.output_declared reached.built hmade
  have houtput := output_of_binding named h hstep reached declared bound present
  exact ⟨Option.some.inj (hmade.symm.trans houtput), Context.build_closed reached.built hmade⟩

end

section
variable {s : FlowSources} {registry : Registry} {flow : Flow} {dep target : String}
  {body : List Char} {rest : String} {cache : Option Fingerprints} {disk other : Disk}
  {plan : Plan} {step : PlanStep} {stage : Stage} {ctx : Context} {d : String}

/-- What a stage is fed with lands below the working directory, whether its own variable or that of
another step has filled the token. -/
theorem fed_below (named : flow.Named) (rooted : Pathname.isAbsolute disk.cwd = true)
    (plain : TokenFree disk.cwd.toList) (late : Late body rest)
    (bound : flow.dependencies.get? dep =
      some (.str (Pathname.absoluteText disk.cwd (lateText body rest))))
    (planned : flow.plan target cache disk = .ok plan) (hstep : step ∈ plan.steps)
    (known : flow.stages.get? step.stage = some stage)
    (found : step.env.get? (nameOf body) = some (.str d))
    (alike : ∀ maker ∈ plan.steps, maker.outputs.contains dep = true →
      maker.env.get? (nameOf body) = some (.str d))
    {take : Declared} (declared : take ∈ stage.io.takes) (hname : take.name = dep) {input : Value}
    (fed : step.inputs.takes.get? dep = some input) :
    ∃ p, step.env.resolve input = .str p ∧ LandsBelow disk.cwd d rest p := by
  subst hname
  rcases fed_of_plan named planned hstep known declared fed with ⟨maker, hmaker, hmade⟩ | hinput
  · have hsame := alike maker hmaker (Table.contains_eq_true_iff.mpr ⟨input, hmade⟩)
    obtain ⟨p, hresolved, lands⟩ := late.resolve_below rooted plain hsame
    obtain ⟨hinput, closed⟩ := handed_on named planned hmaker bound rfl hmade
    rw [hresolved, Value.absolute_str] at hinput
    rw [Environment.resolve_of_literal _ (Value.tokenFree_iff.mp closed)]
    exact ⟨_, hinput, lands.again rooted⟩
  · cases bound.symm.trans hinput
    exact late.resolve_below rooted plain found

/-- The paths of a dependency whose binding begins with a variable of the stage. Resolving the text
at once would give the first one; the take and the product land below the working directory. -/
theorem late_paths (composed : s.compose registry disk.cwd = .ok flow)
    (rooted : Pathname.isAbsolute disk.cwd = true) (plain : TokenFree disk.cwd.toList)
    (late : s.BindsLate dep body rest) (planned : flow.plan target cache disk = .ok plan)
    (hstep : step ∈ plan.steps) (reached : Reached flow step other stage ctx)
    (seen : other.cwd = disk.cwd) (found : step.env.get? (nameOf body) = some (.str d))
    (alike : ∀ maker ∈ plan.steps, maker.outputs.contains dep = true →
      maker.env.get? (nameOf body) = some (.str d)) :
    (step.env.resolve (.str (lateText body rest))).absolute disk.cwd =
        .str (Pathname.absoluteText disk.cwd (d ++ "/" ++ rest)) ∧
      (∀ take, stage.io.take? dep = some take →
        (take.isRequired = true → ∃ v, ctx.takes.get? dep = some v) ∧
        ∀ v, ctx.takes.get? dep = some v → ∃ p, v = .str p ∧ LandsBelow disk.cwd d rest p) ∧
      ∀ product ∈ stage.io.produces, product.name = dep →
        ∃ p, ctx.outputs.get? dep = some (.str p) ∧ LandsBelow disk.cwd d rest p := by
  have named := compose_named composed
  have bound := compose_late composed late
  refine ⟨by rw [late.late.resolve_once found, Value.absolute_str], fun take htake => ?_,
    fun product declared hname => ?_⟩
  · obtain ⟨declared, hname⟩ := Interface.take?_eq_some htake
    rw [Context.build_take reached.built]
    refine ⟨fun required => ?_, fun v hv => ?_⟩
    · obtain ⟨input, hinput, present⟩ := Context.build_required reached.built htake required
      exact ⟨_, Context.takeOn_eq_some_iff.mpr
        ⟨take, input, htake, hinput, present, rfl, Or.inl required⟩⟩
    · obtain ⟨-, input, -, hinput, -, rfl, -⟩ := Context.takeOn_eq_some_iff.mp hv
      exact fed_below named rooted plain late.late bound planned hstep reached.known found alike
        declared hname hinput
  · subst hname
    obtain ⟨p, hresolved, lands⟩ := late.late.resolve_below rooted plain found
    have houtput := output_of_binding named planned hstep reached declared bound rfl
    rw [hresolved, seen, Value.absolute_str] at houtput
    exact ⟨_, houtput, lands.again rooted⟩

end

namespace Relay

/-- The relay, composed: each stage has the directory of a library, and a dependency is bound to a
file there. -/
def libraries (dep : String) : FlowSources where
  platformName := "relay"
  part := "part"
  platform := {
    stages := .ofList [("first", ⟨"common:first", .null, .ofList [("lib", .str "/lib")]⟩),
      ("second", ⟨"common:second", .null, .ofList [("lib", .str "/lib")]⟩)]
    values := .empty
    dependencies := .ofList [("src", .str "/src"), (dep, .str "$\x7blib\x7d/a.v")] }
  project := .empty
  overrides := .empty
  builtins := .empty
  roots := {}

def registry : Registry :=
  (Registry.empty.register "common" "first" (.tool fun _ => .ok first)).register "common" "second"
    (.tool fun _ => .ok second)

/-- The disk of the relay, seen from a directory. -/
def workDisk : Disk := { disk with cwd := "/w" }

theorem late_library : Late "lib".toList "a.v" where
  inside := List.all_eq_true.mp (by decide)
  kept := by decide
  free := Reference.tokenFree_iff.mpr fun _ =>
    Reference.token_notMem_of_plain (List.all_eq_true.mp (by decide))

theorem plain_workDisk : TokenFree workDisk.cwd.toList :=
  Reference.tokenFree_iff.mpr fun _ =>
    Reference.token_notMem_of_plain (List.all_eq_true.mp (by decide))

/-- No layer of the flow has the directory. -/
theorem libraries_late {dep : String}
    (bound : (FlowSources.merged (libraries dep).bindings).get? dep =
      some (.str (lateText "lib".toList "a.v"))) :
    (libraries dep).BindsLate dep "lib".toList "a.v" := by
  refine ⟨bound, fun env henv => ?_, late_library⟩
  have hnone : okAnd ((libraries "src").layered (libraries "src").layers)
      (fun env => env.get? (nameOf "lib".toList) = none) = true := by
    decide +kernel
  -- What is bound stands in no layer of values.
  have hsame : (libraries "src").layered (libraries "src").layers = .ok env := henv
  rw [hsame] at hnone
  exact of_decide_eq_true hnone

/-- The first stage writes to the library what the second one takes from there. Both see it below
the working directory. -/
theorem second_late_paths : ∃ flow plan first second stage ctx,
    (libraries "mid").BindsLate "mid" "lib".toList "a.v" ∧
    (libraries "mid").compose registry workDisk.cwd = .ok flow ∧
    flow.plan "out" none workDisk = .ok plan ∧ plan.steps = [first, second] ∧
    Reached flow second workDisk stage ctx ∧
    second.env.get? (nameOf "lib".toList) = some (.str "/lib") ∧
    ∃ p, ctx.takes.get? "mid" = some (.str p) ∧ LandsBelow "/w" "/lib" "a.v" p := by
  have hchecks : okAnd ((libraries "mid").compose registry workDisk.cwd) (fun flow =>
      okAnd (flow.plan "out" none workDisk) fun plan =>
        pairAnd plan.steps fun first second =>
          (flow.stages.get? second.stage).any fun stage =>
            okAnd (Context.build stage.module second.stage second.inputs second.env flow.roots
              workDisk) fun _ =>
                first.env.get? (nameOf "lib".toList) = some (.str "/lib") ∧
                second.env.get? (nameOf "lib".toList) = some (.str "/lib") ∧
                stage.io.take? "mid" = some (.required "mid")) = true := by
    decide +kernel
  obtain ⟨flow, hflow, hchecks⟩ := exists_of_okAnd hchecks
  obtain ⟨plan, hplan, hchecks⟩ := exists_of_okAnd hchecks
  obtain ⟨first, second, hsteps, hchecks⟩ := exists_of_pairAnd hchecks
  obtain ⟨stage, hknown, hbuild⟩ := (Option.any_eq_true _ _).mp hchecks
  obtain ⟨ctx, hctx, hfacts⟩ := exists_of_okAnd hbuild
  obtain ⟨hfirst, hsecond, htake⟩ := of_decide_eq_true hfacts
  have late : (libraries "mid").BindsLate "mid" "lib".toList "a.v" :=
    libraries_late (by decide +kernel)
  have reached : Reached flow second workDisk stage ctx := ⟨hknown, hctx⟩
  have alike : ∀ maker ∈ plan.steps, maker.outputs.contains "mid" = true →
      maker.env.get? (nameOf "lib".toList) = some (.str "/lib") := by
    rw [hsteps]
    rintro maker hmaker -
    simp only [List.mem_cons, List.not_mem_nil, or_false] at hmaker
    rcases hmaker with rfl | rfl
    · exact hfirst
    · exact hsecond
  obtain ⟨-, htakes, -⟩ := late_paths hflow (by decide) plain_workDisk late hplan
    (by simp [hsteps]) reached rfl hsecond alike
  obtain ⟨hbound, hpath⟩ := htakes _ htake
  obtain ⟨v, hv⟩ := hbound rfl
  obtain ⟨p, rfl, lands⟩ := hpath v hv
  exact ⟨flow, plan, first, second, stage, ctx, late, hflow, hplan, hsteps, reached, hsecond, p, hv,
    lands⟩

/-- A source that is bound to a file of the library is taken from another place than resolving its
binding at once gives. -/
theorem library_source_misplaced : ∃ flow plan first second stage ctx,
    (libraries "src").BindsLate "src" "lib".toList "a.v" ∧
    (libraries "src").compose registry workDisk.cwd = .ok flow ∧
    flow.plan "out" none workDisk = .ok plan ∧ plan.steps = [first, second] ∧
    Reached flow first workDisk stage ctx ∧
    first.env.get? (nameOf "lib".toList) = some (.str "/lib") ∧
    (first.env.resolve (.str (lateText "lib".toList "a.v"))).absolute workDisk.cwd =
      .str "/lib/a.v" ∧
    ctx.takes.get? "src" = some (.str "/w//lib/a.v") ∧
    Pathname.same "/w//lib/a.v" "/lib/a.v" = false := by
  have hchecks : okAnd ((libraries "src").compose registry workDisk.cwd) (fun flow =>
      okAnd (flow.plan "out" none workDisk) fun plan =>
        pairAnd plan.steps fun first second =>
          (flow.stages.get? first.stage).any fun stage =>
            okAnd (Context.build stage.module first.stage first.inputs first.env flow.roots
              workDisk) fun ctx =>
                first.env.get? (nameOf "lib".toList) = some (.str "/lib") ∧
                (first.env.resolve (.str (lateText "lib".toList "a.v"))).absolute workDisk.cwd =
                  .str "/lib/a.v" ∧
                ctx.takes.get? "src" = some (.str "/w//lib/a.v")) = true := by
    decide +kernel
  obtain ⟨flow, hflow, hchecks⟩ := exists_of_okAnd hchecks
  obtain ⟨plan, hplan, hchecks⟩ := exists_of_okAnd hchecks
  obtain ⟨first, second, hsteps, hchecks⟩ := exists_of_pairAnd hchecks
  obtain ⟨stage, hknown, hbuild⟩ := (Option.any_eq_true _ _).mp hchecks
  obtain ⟨ctx, hctx, hfacts⟩ := exists_of_okAnd hbuild
  obtain ⟨hlib, honce, hsrc⟩ := of_decide_eq_true hfacts
  have late : (libraries "src").BindsLate "src" "lib".toList "a.v" :=
    libraries_late (by decide +kernel)
  exact ⟨flow, plan, first, second, stage, ctx, late, hflow, hplan, hsteps, ⟨hknown, hctx⟩, hlib,
    honce, hsrc, by decide⟩

end Relay
end Toolflow
