import Toolflow.Proofs.Composition

/-! Lists that layers extend.

A layer extends a list by an entry that mentions it, `[${name}, text]`. The mention fans out over
the texts of the list below; a list among its items has no text, and that is what an extension
leaves in the place of everything it found. After any number of extensions the list therefore holds
the last two texts, and the loss begins with the second extension. -/
namespace Toolflow

namespace Reference

/-- Names that a token can hold as they are. -/
def IsTokenName (name : String) : Prop := ∀ c ∈ name.toList, isBodyChar c = true ∧ c ≠ '?'

/-- The text that consists of the token of a name. -/
def token (name : String) : String := String.ofList ('$' :: '{' :: (name.toList ++ ['}']))

variable {name : String}

theorem pieces_tokenText (h : IsTokenName name) :
    pieces (token name).toList = [.token name.toList] := by
  rw [token, String.toList_ofList, pieces_token _ _ fun c hc => (h c hc).1]
  rfl

theorem nameOf_toList (h : IsTokenName name) : nameOf name.toList = name := by
  have hkept : name.toList.filter (· != '?') = name.toList :=
    List.filter_eq_self.mpr fun c hc => by simpa using (h c hc).2
  rw [nameOf, hkept, String.ofList_toList]

theorem names_tokenText (h : IsTokenName name) : names (token name) = [name] := by
  simp [names, pieces_tokenText h, nameOf_toList h]

end Reference

namespace Environment
open Reference

/-- Layers that start a list and extend it by one text each. -/
def extensions (name first : String) (more : List String) : List ValueTable :=
  ⟨[(name, .list [.str first])]⟩ ::
    more.map fun text => ⟨[(name, .list [.str (token name), .str text])]⟩

section
variable {env : Environment} {name : String} {items : List Value}

/-- A lone token fans out over the items that have a text. -/
theorem resolveText_token (h : IsTokenName name) (bound : env.get? name = some (.list items))
    (final : Bool) :
    env.resolveText final (token name) = Value.ofStrings (items.filterMap Value.scalarText?) := by
  have hfill : env.filling final name.toList =
      .each (items.filterMap fun v => v.scalarText?.map String.toList) := by
    simp only [filling, nameOf_toList h, bound]
  have htexts : (items.filterMap fun v => v.scalarText?.map String.toList) =
      (items.filterMap Value.scalarText?).map String.toList := by
    rw [List.map_filterMap]
  simp [resolveText, substitute, pieces_tokenText h, expand, fansOut, hfill, Filling.fansOut,
    Filling.choices, htexts, Function.comp_def]

/-- Extending a list by a text puts the texts of the list in front of it. -/
theorem stackEntry_extension (h : IsTokenName name) (bound : env.get? name = some (.list items))
    {text : String} (plain : names text = []) :
    env.stackEntry name (.list [.str (token name), .str text]) =
      env.bindRaw name
        (.list [Value.ofStrings (items.filterMap Value.scalarText?), .str text]) := by
  have hmentions : name ∈ namesIn (.list [.str (token name), .str text]) := by
    simp [namesIn, Value.strings, Value.itemStrings, names_tokenText h]
  have hbelow : (empty.bindRaw name (.list items)).get? name = some (.list items) := by
    rw [get?_bindRaw, if_pos rfl]
  have htext : (empty.bindRaw name (.list items)).resolveText false text = .str text :=
    resolve_of_literal (v := .str text) _ (by
      simpa [unresolved, namesIn, Value.strings] using plain)
  simp only [stackEntry, bound, if_pos hmentions, resolve, Value.mapStrings, Value.mapItems,
    resolveText_token h hbelow, htext]

end

theorem ascending_stackEntry {env : Environment} (h : env.values.Ascending) (name : String)
    (v : Value) : (env.stackEntry name v).values.Ascending := by
  unfold stackEntry
  split
  · split <;> exact h.insert _ _
  · exact h.insert _ _

/-- Where a list stands after texts have been put behind each other: it holds the last two, and only
the last one stands in the list itself. -/
structure Extended (env : Environment) (name : String) (texts : List String)
    (present : Environment) : Prop where
  ascending : present.values.Ascending
  others : ∀ other, other ≠ name → present.get? other = env.get? other
  bound : ∃ items, present.get? name = some (.list items) ∧
    items.filterMap Value.scalarText? = texts.drop (texts.length - 1) ∧
    Value.itemStrings items = texts.drop (texts.length - 2)

section
variable {env present after : Environment} {name first : String} {texts : List String}

theorem Extended.start (ascending : env.values.Ascending) (plain : names first = []) :
    env.Extended name [first] (env.stackEntry name (.list [.str first])) where
  ascending := ascending_stackEntry ascending ..
  others _ h := get?_stackEntry_of_ne _ _ h
  bound := by
    refine ⟨[.str first], get?_stackEntry_literal env name ?_, rfl, rfl⟩
    simpa [unresolved, namesIn, Value.strings, Value.itemStrings] using plain

theorem Extended.extend (h : env.Extended name texts present) (hname : IsTokenName name)
    (hne : texts ≠ []) {text : String} (plain : names text = []) :
    env.Extended name (texts ++ [text])
      (present.stackEntry name (.list [.str (token name), .str text])) := by
  obtain ⟨items, hitems, hlast, -⟩ := h.bound
  have hfront : texts.drop (texts.length - 1) = [texts.getLast hne] :=
    List.drop_length_sub_one hne
  refine ⟨ascending_stackEntry h.ascending .., fun other hother => ?_, ?_⟩
  · rw [get?_stackEntry_of_ne _ _ hother, h.others other hother]
  · refine ⟨[Value.ofStrings [texts.getLast hne], .str text], ?_, ?_, ?_⟩
    · rw [stackEntry_extension hname hitems plain, get?_bindRaw, if_pos rfl, hlast, hfront]
    · have hback : (texts ++ [text]).drop ((texts ++ [text]).length - 1) = [text] := by simp
      rw [hback]
      rfl
    · have hlength : (texts ++ [text]).length - 2 = texts.length - 1 := by
        simp only [List.length_append, List.length_singleton]
        omega
      rw [hlength, List.drop_append_of_le_length (by omega), hfront]
      rfl

/-- Stacking the layers of a list puts its texts behind each other. -/
theorem extended_stackAll (ascending : env.values.Ascending) (hname : IsTokenName name)
    {more : List String} (plain : ∀ text ∈ first :: more, names text = []) :
    env.Extended name (first :: more) (env.stackAll (extensions name first more)) := by
  induction more using List.reverseRecOn with
  | nil => exact .start ascending (plain first List.mem_cons_self)
  | append_singleton more text ih =>
    have hbefore := ih fun t ht => plain t (by
      rw [← List.cons_append]
      exact List.mem_append_left _ ht)
    have hlayers : extensions name first (more ++ [text]) =
        extensions name first more ++ [⟨[(name, .list [.str (token name), .str text])]⟩] := by
      simp [extensions]
    rw [hlayers, stackAll, List.foldl_append]
    exact hbefore.extend hname (List.cons_ne_nil _ _) (plain text (by simp))

/-- Binding a name to a value without references closes no cycle. -/
theorem acyclic_of_literal {v : Value} (others : ∀ other, other ≠ name →
      present.get? other = env.get? other) (bound : present.get? name = some v)
    (literal : unresolved v = []) (acyclic : ¬ ∃ n, Relation.TransGen env.Refers n n) :
    ¬ ∃ n, Relation.TransGen present.Refers n n := by
  have hfrom : ∀ {a b}, present.Refers a b → a ≠ name := by
    rintro a b ⟨w, hw, hb, -⟩ rfl
    cases bound.symm.trans hw
    rw [unresolved] at literal
    simp [literal] at hb
  have hstep : ∀ {a b}, present.Refers a b → b ≠ name → env.Refers a b := by
    rintro a b hab hb
    obtain ⟨w, hw, hmem, hbound⟩ := hab
    exact ⟨w, (others a (hfrom ⟨w, hw, hmem, hbound⟩)) ▸ hw, hmem, others b hb ▸ hbound⟩
  have hpath : ∀ {a b}, Relation.TransGen present.Refers a b → b ≠ name →
      Relation.TransGen env.Refers a b := by
    intro a b hab
    induction hab with
    | single hab => exact fun hb => .single (hstep hab hb)
    | tail _ hbc ih => exact fun hc => .tail (ih (hfrom hbc)) (hstep hbc hc)
  rintro ⟨n, hcycle⟩
  have hn : n ≠ name := by
    obtain ⟨next, hnext, -⟩ := Relation.TransGen.head'_iff.mp hcycle
    exact hfrom hnext
  exact acyclic ⟨n, hpath hcycle hn⟩

/-- A list that layers extend is bound to the last two of its texts, so it has all of them exactly
if it was extended at most once. -/
theorem layers_extensions (ascending : env.values.Ascending)
    (acyclic : ¬ ∃ n, Relation.TransGen env.Refers n n) (hname : IsTokenName name)
    {more : List String} (plain : ∀ text ∈ first :: more, names text = []) :
    ∃ after v, env.layers (extensions name first more) = .ok after ∧
      after.get? name = some v ∧
      v.strings = (first :: more).drop (more.length - 1) ∧
      (v.strings = first :: more ↔ more.length ≤ 1) := by
  have h := extended_stackAll ascending hname plain
  obtain ⟨items, hitems, -, hstrings⟩ := h.bound
  have hliteral : unresolved (.list items) = [] := by
    rw [unresolved, namesIn, List.flatMap_eq_nil_iff, Value.strings, hstrings]
    exact fun text htext => plain text (List.mem_of_mem_drop htext)
  obtain ⟨after, hrun, -⟩ := (settle_evaluates _ h.ascending).2
    (acyclic_of_literal h.others hitems hliteral acyclic)
  have hsettle : (env.stackAll (extensions name first more)).settle = .ok after := by
    rw [settle, hrun]
  have hlast : (Value.list items).strings = (first :: more).drop (more.length - 1) := by
    rw [Value.strings, hstrings, List.length_cons]
    rfl
  refine ⟨after, .list items, hsettle, get?_settle_literal hsettle hliteral hitems, hlast, ?_⟩
  rw [hlast]
  constructor
  · intro hall
    have hlength := congrArg List.length hall
    simp only [List.length_drop, List.length_cons] at hlength
    omega
  · intro hshort
    rw [show more.length - 1 = 0 by omega, List.drop_zero]

end

/-- A list of sources next to a binding that will fan out over it. -/
def outputs : Environment := ⟨⟨[("out", .str "$\x7bsrc\x7d.o")]⟩⟩

theorem outputs_extended : ∃ after v,
    outputs.layers [⟨[("src", .list [.str "a"])]⟩,
      ⟨[("src", .list [.str "$\x7bsrc\x7d", .str "b"])]⟩] = .ok after ∧
    after.get? "src" = some v ∧ v.strings = ["a", "b"] := by
  have ascending : outputs.values.Ascending := by
    unfold Table.Ascending
    decide
  have acyclic : ¬ ∃ n, Relation.TransGen outputs.Refers n n := by
    rintro ⟨n, hcycle⟩
    obtain ⟨next, ⟨v, hv, hnext, hbound⟩, -⟩ := Relation.TransGen.head'_iff.mp hcycle
    have hout : ∀ {m w}, outputs.get? m = some w → m = "out" ∧ w = .str "$\x7bsrc\x7d.o" := by
      intro m w hw
      simpa [outputs] using Table.mem_of_get? hw
    have hnames : namesIn (.str "$\x7bsrc\x7d.o") = ["src"] := by decide +kernel
    obtain ⟨w, hw⟩ := Option.isSome_iff_exists.mp hbound
    rw [(hout hv).2, hnames, (hout hw).1] at hnext
    exact absurd hnext (by decide)
  have hname : IsTokenName "src" := by
    unfold IsTokenName
    simp [isBodyChar]
  have plain : ∀ text ∈ ["a", "b"], names text = [] := by decide +kernel
  obtain ⟨after, v, hlayers, hv, -, hall⟩ := layers_extensions ascending acyclic hname plain
  exact ⟨after, v, hlayers, hv, hall.mpr le_rfl⟩

/-- The second extension drops the text the list began with. -/
theorem second_extension_drops : ¬ ∃ after v,
    empty.layers [⟨[("n", .list [.str "a"])]⟩, ⟨[("n", .list [.str "$\x7bn\x7d", .str "b"])]⟩,
      ⟨[("n", .list [.str "$\x7bn\x7d", .str "c"])]⟩] = .ok after ∧
    after.get? "n" = some v ∧ v.strings = ["a", "b", "c"] := by
  rintro ⟨after, v, hlayers, hv, hstrings⟩
  have hrun : okAnd (empty.layers [⟨[("n", .list [.str "a"])]⟩,
      ⟨[("n", .list [.str "$\x7bn\x7d", .str "b"])]⟩,
      ⟨[("n", .list [.str "$\x7bn\x7d", .str "c"])]⟩])
      (fun after => after.get? "n" = some (.list [.list [.str "b"], .str "c"])) = true := by
    decide +kernel
  obtain ⟨after', hlayers', hn⟩ := exists_of_okAnd hrun
  cases hlayers.symm.trans hlayers'
  cases hv.symm.trans (of_decide_eq_true hn)
  exact absurd hstrings (by decide)

end Environment
end Toolflow
