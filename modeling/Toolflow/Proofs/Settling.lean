import Mathlib.Data.List.Chain
import Mathlib.Data.List.Nodup
import Mathlib.Data.List.Perm.Subperm
import Mathlib.Logic.Relation
import Toolflow.Proofs.Contexts
import Toolflow.Proofs.Tables
import Toolflow.Proofs.Values

/-! Settling an environment evaluates it.

The walk through the references keeps an order in which every name comes after those it refers to,
so a name that is resolved finds their final values. If the walk comes back to a name that waits for
it, the names between are a cycle; where it does not, the order itself rules every cycle out. -/
namespace Toolflow

/-- Names each of which is followed by one it is related to, the first and the last being the
same. -/
def IsCycle (r : String → String → Prop) (names : List String) : Prop :=
  ∃ first inner, names = first :: inner ++ [first] ∧ names.IsChain r

theorem IsCycle.transGen {r : String → String → Prop} {names : List String}
    (h : IsCycle r names) : ∃ name, Relation.TransGen r name name := by
  obtain ⟨first, inner, rfl, chain⟩ := h
  refine ⟨first, ?_⟩
  have hreach : ∀ (l : List String) (start last : String), (start :: l ++ [last]).IsChain r →
      Relation.TransGen r start last := by
    intro l
    induction l with
    | nil =>
      intro start last hchain
      exact .single (List.isChain_pair.mp hchain)
    | cons next rest ih =>
      intro start last hchain
      obtain ⟨hnext, hrest⟩ := List.isChain_cons_cons.mp hchain
      exact .head hnext (ih next last hrest)
  exact hreach inner first first chain

/-- Coming back to a name of a chain closes a cycle. -/
theorem isCycle_of_mem_chain {r : String → String → Prop} {path : List String} {name : String}
    (chain : (path ++ [name]).IsChain r) (h : name ∈ path) :
    IsCycle r (path.dropWhile (· ≠ name) ++ [name]) := by
  obtain ⟨before, after, rfl, hbefore⟩ := List.eq_append_cons_of_mem h
  have hdrop : (before ++ name :: after).dropWhile (· ≠ name) = name :: after := by
    rw [List.dropWhile_append_of_pos fun n hn => by
      simpa using fun heq : n = name => hbefore (heq ▸ hn)]
    simp
  rw [hdrop]
  rw [List.append_assoc] at chain
  exact ⟨name, after, rfl, chain.right_of_append⟩

namespace Environment

/-- The value of a bound name mentions a bound name. -/
def Refers (env : Environment) (name other : String) : Prop :=
  ∃ v, env.get? name = some v ∧ other ∈ Reference.namesIn v ∧ (env.get? other).isSome = true

/-- The recursive evaluation of a name: its value, resolved where exactly the bound names that it
refers to are bound, to their evaluations. -/
inductive Evaluates (env : Environment) : String → Value → Prop
  | resolve {name : String} {v : Value} {below : Environment} (bound : env.get? name = some v)
      (domain : ∀ other ∈ Reference.namesIn v,
        (below.get? other).isSome = (env.get? other).isSome)
      (evaluated : ∀ other ∈ Reference.namesIn v, ∀ w, below.get? other = some w →
        Evaluates env other w) : Evaluates env name (below.resolve v)

/-- A name without a text: it is unbound, or bound to `null` or to a table. -/
def Textless (env : Environment) (name : String) : Prop :=
  ∀ v, env.get? name = some v → v = .null ∨ ∃ fields, v = .map fields

theorem filling_eq_keep_iff {env : Environment} {body : List Char} :
    env.filling false body = .keep ↔ env.Textless (Reference.nameOf body) := by
  unfold filling Textless
  cases env.get? (Reference.nameOf body) with
  | none => simp
  | some v => cases v <;> simp [Value.scalarText?]

/-- Resolving gives a value a text only if it had one. -/
theorem resolve_textless_iff (env : Environment) (v : Value) :
    (env.resolve v = .null ∨ ∃ fields, env.resolve v = .map fields) ↔
      v = .null ∨ ∃ fields, v = .map fields := by
  cases v with
  | str s =>
    simp only [resolve, Value.mapStrings, resolveText, substitute, Value.ofStrings]
    split <;> simp
  | map t => simp [resolve, Value.mapStrings]
  | _ => simp [resolve, Value.mapStrings]

theorem eq_of_isSome_eq {a b : Option Value} (domain : a.isSome = b.isSome)
    (same : ∀ v w, a = some v → b = some w → v = w) : a = b := by
  cases a <;> cases b <;> simp_all

theorem Evaluates.bound {env : Environment} {name : String} {v : Value}
    (h : env.Evaluates name v) : (env.get? name).isSome = true := by
  cases h with
  | resolve bound => exact Option.isSome_iff_exists.mpr ⟨_, bound⟩

/-- A name has at most one evaluation. -/
theorem Evaluates.unique {env : Environment} {name : String} {v w : Value}
    (h : env.Evaluates name v) (h' : env.Evaluates name w) : v = w := by
  induction h generalizing w with
  | resolve bound domain evaluated ih =>
    obtain ⟨bound', domain', evaluated'⟩ := h'
    cases bound.symm.trans bound'
    exact resolve_congr fun other hother => eq_of_isSome_eq
      ((domain other hother).trans (domain' other hother).symm)
      fun a b ha hb => ih other hother a ha (evaluated' other hother b hb)

/-! ### The walk -/

/-- A name follows another in a graph. -/
def Follows (graph : Table NameSet) (name next : String) : Prop :=
  next ∈ ((graph.get? name).getD ∅).keys

/-- Where the walk stands while the names of a path wait: it has left each of the names in the order
once, and after all that follow it. -/
structure Visit.Stands (graph : Table NameSet) (path : List String) (at_ : Visit) : Prop where
  done : ∀ name, at_.done.contains name = true ↔ name ∈ at_.order
  nodup : at_.order.Nodup
  closed : ∀ before name after, at_.order = before ++ name :: after →
    ∀ next, Follows graph name next → next ∈ before
  apart : ∀ name ∈ path, name ∉ at_.order

theorem Follows.mem_keys {graph : Table NameSet} {name next : String}
    (h : Follows graph name next) : name ∈ graph.keys := by
  refine Table.contains_iff_mem_keys.mp (Option.isSome_iff_exists.mpr ?_)
  cases hg : graph.get? name with
  | none =>
    rw [Follows, hg] at h
    cases h
  | some names => exact ⟨names, rfl⟩

theorem Visit.Stands.start (graph : Table NameSet) : Stands graph [] ⟨∅, []⟩ where
  done name := by
    show (Table.empty : NameSet).contains name = true ↔ name ∈ []
    simp [Table.contains]
  nodup := List.nodup_nil
  closed := by simp
  apart := by simp

/-- A walk to some names gets behind all of them, or it finds a cycle. -/
inductive Visit.Walks (graph : Table NameSet) (path : List String) (at_ : Visit)
    (names : List String) : Except Failure Visit → Prop
  | arrives {after : Visit} (stands : after.Stands graph path) (grows : at_.order ⊆ after.order)
      (met : names ⊆ after.order) : Walks graph path at_ names (.ok after)
  | circles {cycle : List String} (cyclic : IsCycle (Follows graph) cycle) :
      Walks graph path at_ names (.error (.fault (.circularReference cycle)))

section
variable {graph : Table NameSet} {path : List String} {at_ : Visit} {name : String}

theorem Visit.walks_foldlM {walk : Visit → String → Except Failure Visit} {names : List String}
    (step : ∀ at_, at_.Stands graph path → ∀ name ∈ names,
      Walks graph path at_ [name] (walk at_ name)) (h : at_.Stands graph path) :
    Walks graph path at_ names (names.foldlM walk at_) := by
  induction names generalizing at_ with
  | nil => exact .arrives h (List.Subset.refl _) (List.nil_subset _)
  | cons name rest ih =>
    rw [List.foldlM_cons]
    have hname := step at_ h name List.mem_cons_self
    generalize hwalk : walk at_ name = result at hname
    cases hname with
    | circles cyclic => exact .circles cyclic
    | @arrives next stands grows met =>
      have hrest := ih (fun at_ h name hname => step at_ h name (List.mem_cons_of_mem _ hname))
        stands
      show Walks graph path at_ (name :: rest) (rest.foldlM walk next)
      generalize rest.foldlM walk next = result at hrest
      cases hrest with
      | circles cyclic => exact .circles cyclic
      | arrives stands' grows' met' =>
        exact .arrives stands' (List.Subset.trans grows grows')
          (List.cons_subset.mpr ⟨grows' (met List.mem_cons_self), met'⟩)

/-- A name is left once everything that follows it has been left. -/
theorem Visit.Stands.leave (h : at_.Stands graph (path ++ [name])) (fresh : name ∉ path)
    (met : ((graph.get? name).getD ∅).keys ⊆ at_.order) :
    Stands graph path ⟨at_.done.add name, at_.order ++ [name]⟩ where
  done other := by
    rw [NameSet.add, Table.contains_insert, h.done, List.mem_append, List.mem_singleton, or_comm]
  nodup := by
    rw [← List.concat_eq_append, List.nodup_concat]
    exact ⟨h.apart name (by simp), h.nodup⟩
  closed before other after order next hnext := by
    rcases List.eq_nil_or_concat' after with rfl | ⟨after, last, rfl⟩
    · obtain ⟨rfl, hlast⟩ := List.append_inj' order rfl
      cases hlast
      exact met hnext
    · rw [← List.cons_append, ← List.append_assoc] at order
      exact h.closed before other after (List.append_inj' order rfl).1 next hnext
  apart other hother := by
    have hne : other ≠ name := fun heq => fresh (heq ▸ hother)
    have hapart := h.apart other (List.mem_append_left _ hother)
    simp [hne, hapart]

/-- The names of the path are distinct names of the graph, so the fuel lasts. -/
theorem visit_walks {names : List String} (known : ∀ a b, Follows graph a b → b ∈ names)
    {fuel : Nat} (room : names.length < fuel + path.length) (nodup : path.Nodup)
    (inside : path ++ [name] ⊆ names) (chain : (path ++ [name]).IsChain (Follows graph))
    (h : at_.Stands graph path) : Visit.Walks graph path at_ [name] (visit graph fuel path at_ name)
    := by
  induction fuel generalizing path at_ name with
  | zero =>
    have hlength := (List.subperm_of_subset nodup
      (List.append_subset.mp inside).1).length_le
    omega
  | succ fuel ih =>
    rw [visit]
    split
    · rename_i hdone
      exact .arrives h (List.Subset.refl _) (by simpa using (h.done name).mp hdone)
    · rename_i hdone
      split
      · rename_i hpath
        exact .circles (isCycle_of_mem_chain chain hpath)
      · rename_i hpath
        have hwaits : at_.Stands graph (path ++ [name]) :=
          ⟨h.done, h.nodup, h.closed, List.forall_mem_append.mpr
            ⟨h.apart, List.forall_mem_singleton.mpr (mt (h.done name).mpr hdone)⟩⟩
        have hnodup : (path ++ [name]).Nodup := by
          rw [← List.concat_eq_append, List.nodup_concat]
          exact ⟨hpath, nodup⟩
        have hnext : Visit.Walks graph (path ++ [name]) at_ ((graph.get? name).getD ∅).keys
            (((graph.get? name).getD ∅).keys.foldlM (visit graph fuel (path ++ [name])) at_) := by
          refine Visit.walks_foldlM (fun at_ hat next hnext => ?_) hwaits
          refine ih ?_ hnodup ?_ ?_ hat
          · simp only [List.length_append, List.length_singleton]
            omega
          · exact List.append_subset.mpr ⟨inside, by simpa using known name next hnext⟩
          · exact List.isChain_append.mpr ⟨chain, .singleton _, by simpa [Follows] using hnext⟩
        dsimp only
        generalize ((graph.get? name).getD ∅).keys.foldlM (visit graph fuel (path ++ [name])) at_ =
          result at hnext
        cases hnext with
        | circles cyclic => exact .circles cyclic
        | arrives stands grows met =>
          exact .arrives (stands.leave hpath met) (fun _ hn => List.mem_append_left _ (grows hn))
            (by simp)

end

/-! ### The order -/

/-- An order in which each name comes once, after all bound names it refers to, and which leaves
out only names that refer to none. -/
structure Orders (env : Environment) (order : List String) : Prop where
  nodup : order.Nodup
  closed : ∀ before name after, order = before ++ name :: after →
    ∀ other, env.Refers name other → other ∈ before
  covers : ∀ name other, env.Refers name other → name ∈ order

section
variable {env : Environment}

theorem get?_dependencies (ascending : env.values.Ascending) (name : String) :
    env.dependencies.get? name = (env.get? name).bind fun v =>
      if (env.boundNames v).isEmpty then none else some (env.boundNames v) :=
  ascending.get?_filterMap _ name

theorem follows_iff (ascending : env.values.Ascending) {name other : String} :
    Follows env.dependencies name other ↔ env.Refers name other := by
  have hkeys : ((env.dependencies.get? name).getD ∅).keys =
      ((env.get? name).map fun v => (env.boundNames v).keys).getD [] := by
    rw [get?_dependencies ascending]
    cases env.get? name with
    | none => rfl
    | some v =>
      by_cases hempty : (env.boundNames v).isEmpty = true
      · have hnil : (env.boundNames v).entries = [] := List.isEmpty_iff.mp hempty
        simp [hempty, Table.keys, hnil, EmptyCollection.emptyCollection, Table.empty]
      · simp [hempty]
  rw [Follows, hkeys, Refers]
  cases env.get? name with
  | none => simp
  | some v => simp [boundNames, NameSet.mem_keys_ofList, Table.contains, get?]

/-- An order rules cycles out: along the references the places go down. -/
theorem Orders.acyclic {order : List String} (h : env.Orders order) :
    ¬ ∃ name, Relation.TransGen env.Refers name name := by
  rintro ⟨name, hcycle⟩
  have hdown : ∀ a b, env.Refers a b → order.idxOf b < order.idxOf a := by
    intro a b hab
    obtain ⟨before, after, rfl, hbefore⟩ := List.eq_append_cons_of_mem (h.covers a b hab)
    have hb := h.closed before a after rfl b hab
    rw [List.idxOf_append_of_mem hb, List.idxOf_append_of_notMem hbefore]
    have := List.idxOf_lt_length_of_mem hb
    omega
  have hless : ∀ a b, Relation.TransGen env.Refers a b → order.idxOf b < order.idxOf a := by
    intro a b hab
    induction hab with
    | single hab => exact hdown _ _ hab
    | tail _ hbc ih => exact (hdown _ _ hbc).trans ih
  exact lt_irrefl _ (hless name name hcycle)

/-- There is an order, or the references have a cycle. -/
theorem settlingOrder_spec (ascending : env.values.Ascending) :
    (∃ order, settlingOrder env.dependencies env.values.size = .ok order ∧ env.Orders order) ∨
      ∃ cycle, settlingOrder env.dependencies env.values.size =
        .error (.fault (.circularReference cycle)) ∧ IsCycle env.Refers cycle := by
  have hsame : Follows env.dependencies = env.Refers :=
    funext fun _ => funext fun _ => propext (follows_iff ascending)
  have hknown : ∀ {name}, (env.get? name).isSome = true → name ∈ env.values.keys :=
    Table.contains_iff_mem_keys.mp
  have hwalks : Visit.Walks env.dependencies [] ⟨∅, []⟩ env.dependencies.keys
      (env.dependencies.keys.foldlM (visit env.dependencies (env.values.size + 2) []) ⟨∅, []⟩) := by
    refine Visit.walks_foldlM (fun at_ hat name hname => ?_) (.start _)
    have hvalues : ∀ a b, Follows env.dependencies a b → b ∈ env.values.keys := by
      intro a b hab
      obtain ⟨-, -, -, hb⟩ := (follows_iff ascending).mp hab
      exact hknown hb
    refine visit_walks hvalues ?_ List.nodup_nil ?_ (.singleton _) hat
    · simp [Table.keys, Table.size]
    · have hbound := Table.contains_iff_mem_keys.mpr hname
      rw [Table.contains, get?_dependencies ascending] at hbound
      cases hv : env.get? name with
      | none => simp [hv] at hbound
      | some v => simpa using hknown (Option.isSome_iff_exists.mpr ⟨v, hv⟩)
  unfold settlingOrder
  generalize env.dependencies.keys.foldlM (visit env.dependencies (env.values.size + 2) [])
    ⟨∅, []⟩ = result at hwalks
  cases hwalks with
  | circles cyclic => exact Or.inr ⟨_, rfl, hsame ▸ cyclic⟩
  | @arrives after stands grows met =>
    exact Or.inl ⟨after.order, rfl, stands.nodup, hsame ▸ stands.closed,
      fun name other h => met ((follows_iff ascending).mpr h).mem_keys⟩

end

/-! ### Settling in order -/

/-- How far the bindings are settled: those of the names `settled` are evaluated, and the others are
as they were. -/
structure SettledTo (env : Environment) (settled : List String) (present : Environment) :
    Prop where
  domain : ∀ name, (present.get? name).isSome = (env.get? name).isSome
  evaluated : ∀ name ∈ settled, ∀ w, present.get? name = some w → env.Evaluates name w
  kept : ∀ name, name ∉ settled → present.get? name = env.get? name

section
variable {env present : Environment} {settled order : List String} {name : String}

/-- A name that refers to settled names only is settled by resolving its binding. -/
theorem SettledTo.settleName (h : env.SettledTo settled present) (fresh : name ∉ settled)
    (refers : ∀ other, env.Refers name other → other ∈ settled) :
    env.SettledTo (settled ++ [name]) (present.settleName name) := by
  unfold Environment.settleName
  cases hv : present.get? name with
  | none =>
    refine ⟨h.domain, fun n hn w hw => ?_, fun n hn => h.kept n (by simp_all)⟩
    rcases List.mem_append.mp hn with hn | hn
    · exact h.evaluated n hn w hw
    · cases List.mem_singleton.mp hn
      cases hv.symm.trans hw
  | some v =>
    have hold : env.get? name = some v := (h.kept name fresh).symm.trans hv
    dsimp only
    refine ⟨fun n => ?_, fun n hn w hw => ?_, fun n hn => ?_⟩
    · rw [get?_bindRaw]
      split
      · rename_i heq
        rw [heq, hold]
        rfl
      · exact h.domain n
    · rw [get?_bindRaw] at hw
      split at hw
      · rename_i heq
        cases heq
        cases hw
        refine .resolve hold (fun other _ => h.domain other) fun other hother w hw => ?_
        have hbound : (env.get? other).isSome = true := by rw [← h.domain, hw]; rfl
        exact h.evaluated other (refers other ⟨v, hold, hother, hbound⟩) w hw
      · rename_i hne
        exact h.evaluated n ((List.mem_append.mp hn).resolve_right (by simpa using hne)) w hw
    · obtain ⟨hn, hne⟩ := List.forall_mem_append.mp fun m hm (heq : m = n) => hn (heq ▸ hm)
      rw [get?_bindRaw, if_neg (Ne.symm (hne name (List.mem_singleton_self _)))]
      exact h.kept n fun hmem => hn n hmem rfl

/-- So a whole order settles all its names. -/
theorem Orders.settles (h : env.Orders order) :
    env.SettledTo order (order.foldl settleName env) := by
  have hprefix : ∀ before after, order = before ++ after →
      env.SettledTo before (before.foldl settleName env) := by
    intro before
    induction before using List.reverseRecOn with
    | nil => exact fun _ _ => ⟨fun _ => rfl, by simp, fun _ _ => rfl⟩
    | append_singleton before name ih =>
      intro after horder
      rw [List.append_assoc] at horder
      rw [List.foldl_append]
      refine (ih _ horder).settleName ?_ (h.closed before name after horder)
      have hnodup := h.nodup
      rw [horder, List.nodup_append] at hnodup
      exact fun hmem => hnodup.2.2 name hmem name (by simp) rfl
  exact hprefix order [] (List.append_nil _).symm

/-- A name that the order leaves out is its own evaluation. -/
theorem Orders.evaluates (h : env.Orders order) {w : Value}
    (hw : (order.foldl settleName env).get? name = some w) : env.Evaluates name w := by
  by_cases hname : name ∈ order
  · exact h.settles.evaluated name hname w hw
  · have hv := (h.settles.kept name hname).symm.trans hw
    have hunbound : ∀ other ∈ Reference.namesIn w, env.get? other = none :=
      fun other hother => Option.not_isSome_iff_eq_none.mp fun hbound =>
        hname (h.covers name other ⟨w, hv, hother, hbound⟩)
    have heval : env.Evaluates name (env.resolve w) := .resolve hv (fun _ _ => rfl)
      fun other hother v hother' => by cases (hunbound other hother).symm.trans hother'
    rwa [resolve_of_unbound hunbound] at heval

/-- What is bound afterwards is each value resolved against what is bound afterwards. -/
theorem Orders.resolves (h : env.Orders order) (name : String) :
    (order.foldl settleName env).get? name =
      (env.get? name).map (order.foldl settleName env).resolve := by
  have hdomain := h.settles.domain name
  cases hw : (order.foldl settleName env).get? name with
  | none =>
    rw [hw] at hdomain
    rw [Option.isSome_eq_false_iff.mp hdomain.symm |> Option.isNone_iff_eq_none.mp]
    rfl
  | some w =>
    obtain ⟨bound, domain, evaluated⟩ := h.evaluates hw
    rw [bound, Option.map_some, Option.some.injEq]
    refine resolve_congr fun other hother => eq_of_isSome_eq
      ((domain other hother).trans (h.settles.domain other).symm)
      fun a b ha hb => (evaluated other hother a ha).unique (h.evaluates hb)

theorem settleInPlace_run (env : Environment) : settleInPlace.run env =
    match settlingOrder env.dependencies env.values.size with
    | .ok order => .ok () (order.foldl settleName env)
    | .error cause => .error cause env := by
  have hall : ∀ (l : List String) (env : Environment),
      (l.forM fun name => modify (·.settleName name) : EStateM Failure Environment Unit).run env =
        .ok () (l.foldl settleName env) := by
    intro l
    induction l with
    | nil => exact fun _ => rfl
    | cons name rest ih => exact fun env => ih (env.settleName name)
  have hrun : settleInPlace.run env =
      ((MonadExcept.ofExcept (settlingOrder env.dependencies env.values.size) >>= fun order =>
        order.forM fun name => modify (·.settleName name)) :
          EStateM Failure Environment Unit).run env := rfl
  rw [hrun]
  cases settlingOrder env.dependencies env.values.size with
  | error cause => rfl
  | ok order => exact hall order env

/-- Settling evaluates every name, and it fails exactly if names refer to each other in a cycle. It
then reports one and leaves the bindings as they are. -/
theorem settle_evaluates (env : Environment) (ascending : env.values.Ascending) :
    ((∃ name, Relation.TransGen env.Refers name name) →
      ∃ cycle, IsCycle env.Refers cycle ∧
        settleInPlace.run env = .error (.fault (.circularReference cycle)) env) ∧
    ((¬ ∃ name, Relation.TransGen env.Refers name name) →
      ∃ after, settleInPlace.run env = .ok () after ∧
        (∀ name w, after.get? name = some w ↔ env.Evaluates name w) ∧
        (∀ name, after.get? name = (env.get? name).map after.resolve) ∧
        ∀ body, after.filling false body = .keep ↔ env.Textless (Reference.nameOf body)) := by
  rw [settleInPlace_run]
  rcases settlingOrder_spec ascending with ⟨order, horder, h⟩ | ⟨cycle, hcycle, cyclic⟩
  · rw [horder]
    refine ⟨fun hcycle => absurd hcycle h.acyclic, fun _ =>
      ⟨_, rfl, fun name w => ⟨h.evaluates, ?_⟩, h.resolves, fun body => ?_⟩⟩
    · intro hw
      obtain ⟨w', hw'⟩ := Option.isSome_iff_exists.mp ((h.settles.domain name).trans hw.bound)
      rw [hw', (h.evaluates hw').unique hw]
    · rw [filling_eq_keep_iff, Textless, Textless, h.resolves]
      cases env.get? (Reference.nameOf body) with
      | none => simp
      | some v => simpa using resolve_textless_iff _ v
  · rw [hcycle]
    exact ⟨fun _ => ⟨cycle, cyclic, rfl⟩, fun hacyclic => absurd cyclic.transGen hacyclic⟩

end

/-- A file below a directory below a root, the names in another order than the references. -/
def sources : Environment :=
  ⟨⟨[("dir", .str "$\x7broot\x7d/src"), ("files", .list [.str "a.v", .str "b.v"]),
    ("paths", .str "$\x7bdir\x7d/$\x7bfiles\x7d$\x7bsuffix\x7d"), ("root", .str "/p")]⟩⟩

/-- The paths fan out over the files, and the name that nothing binds stays. -/
theorem sources_settle_evaluates : sources.values.Ascending ∧
    sources.Evaluates "paths"
      (.list [.str "/p/src/a.v$\x7bsuffix\x7d", .str "/p/src/b.v$\x7bsuffix\x7d"]) := by
  have ascending : sources.values.Ascending := by
    unfold Table.Ascending
    decide
  have hsettled : okAnd sources.settle (fun after => after.get? "paths" =
      some (.list [.str "/p/src/a.v$\x7bsuffix\x7d",
        .str "/p/src/b.v$\x7bsuffix\x7d"])) = true := by
    decide +kernel
  obtain ⟨after, hsettle, hpaths⟩ := exists_of_okAnd hsettled
  obtain ⟨hcyclic, hacyclic⟩ := settle_evaluates sources ascending
  have hnone : ¬ ∃ name, Relation.TransGen sources.Refers name name := by
    intro hcycle
    obtain ⟨cycle, -, hrun⟩ := hcyclic hcycle
    rw [settle, hrun] at hsettle
    cases hsettle
  obtain ⟨after', hrun, hevaluates, -⟩ := hacyclic hnone
  rw [settle, hrun] at hsettle
  cases hsettle
  exact ⟨ascending, (hevaluates ..).mp (of_decide_eq_true hpaths)⟩

end Environment
end Toolflow
