import Toolflow.Environment

/-! What the resolution of a value looks at.

The result depends only on the fillings of the tokens in the value's strings. Where all of them are
kept, the value is its own resolution; a value without references has no token to fill, so that is
so whatever the environment binds. -/
namespace Toolflow

namespace Value

mutual
theorem mapStrings_congr {f g : String → Value} (v : Value) (h : ∀ s ∈ v.strings, f s = g s) :
    v.mapStrings f = v.mapStrings g := by
  cases v with
  | str s => exact h s (by simp [strings])
  | list items =>
    simp only [mapStrings]
    rw [mapItems_congr items (by simpa only [strings] using h)]
  | map t =>
    obtain ⟨entries⟩ := t
    simp only [mapStrings]
    rw [mapEntries_congr entries (by simpa only [strings] using h)]
  | _ => rfl

theorem mapItems_congr {f g : String → Value} (items : List Value)
    (h : ∀ s ∈ itemStrings items, f s = g s) : mapItems f items = mapItems g items := by
  cases items with
  | nil => rfl
  | cons v rest =>
    simp only [itemStrings, List.mem_append] at h
    rw [mapItems, mapItems, mapStrings_congr v fun s hs => h s (Or.inl hs),
      mapItems_congr rest fun s hs => h s (Or.inr hs)]

theorem mapEntries_congr {f g : String → Value} (entries : List (String × Value))
    (h : ∀ s ∈ entryStrings entries, f s = g s) : mapEntries f entries = mapEntries g entries := by
  cases entries with
  | nil => rfl
  | cons e rest =>
    obtain ⟨k, v⟩ := e
    simp only [entryStrings, List.mem_append] at h
    rw [mapEntries, mapEntries, mapStrings_congr v fun s hs => h s (Or.inl hs),
      mapEntries_congr rest fun s hs => h s (Or.inr hs)]
end

mutual
theorem mapStrings_str (v : Value) : v.mapStrings .str = v := by
  cases v with
  | list items => rw [mapStrings, mapItems_str items]
  | map t =>
    obtain ⟨entries⟩ := t
    rw [mapStrings, mapEntries_str entries]
  | _ => rfl

theorem mapItems_str (items : List Value) : mapItems .str items = items := by
  cases items with
  | nil => rfl
  | cons v rest => rw [mapItems, mapStrings_str v, mapItems_str rest]

theorem mapEntries_str (entries : List (String × Value)) : mapEntries .str entries = entries := by
  cases entries with
  | nil => rfl
  | cons e rest =>
    obtain ⟨k, v⟩ := e
    rw [mapEntries, mapStrings_str v, mapEntries_str rest]
end

theorem mapStrings_eq_self {f : String → Value} {v : Value} (h : ∀ s ∈ v.strings, f s = .str s) :
    v.mapStrings f = v :=
  (mapStrings_congr v h).trans v.mapStrings_str

end Value

theorem Reference.mem_names {text : String} {body : List Char}
    (h : .token body ∈ pieces text.toList) : nameOf body ∈ names text :=
  List.mem_filterMap.mpr ⟨_, h, rfl⟩

theorem Reference.mem_namesIn {v : Value} {s name : String} (hs : s ∈ v.strings)
    (h : name ∈ names s) : name ∈ namesIn v :=
  List.mem_flatMap.mpr ⟨s, hs, h⟩

namespace Environment

theorem get?_bindRaw (env : Environment) (name other : String) (v : Value) :
    (env.bindRaw name v).get? other = if other = name then some v else env.get? other :=
  Table.get?_insert ..

variable {fill other : List Char → Filling} {ps : List Piece}

theorem expand_congr (h : ∀ body, .token body ∈ ps → fill body = other body) :
    expand fill ps = expand other ps := by
  induction ps with
  | nil => rfl
  | cons p rest ih =>
    have hrest := ih fun body hbody => h body (List.mem_cons_of_mem _ hbody)
    cases p with
    | char c => simp only [expand, hrest]
    | token body => simp only [expand, hrest, h body List.mem_cons_self]

theorem fansOut_congr (h : ∀ body, .token body ∈ ps → fill body = other body) :
    fansOut fill ps = fansOut other ps := by
  rw [Bool.eq_iff_iff, fansOut, fansOut, List.any_eq_true, List.any_eq_true]
  refine exists_congr fun p => and_congr_right fun hp => ?_
  cases p with
  | char c => rfl
  | token body => simp only [h body hp]

theorem substitute_congr (h : ∀ body, .token body ∈ ps → fill body = other body) :
    substitute fill ps = substitute other ps := by
  unfold substitute
  rw [expand_congr h, fansOut_congr h]

theorem expand_keep (ps : List Piece) : expand (fun _ => .keep) ps = [Reference.join ps] := by
  induction ps with
  | nil => rfl
  | cons p rest ih => cases p <;> simp [expand, ih, Filling.choices, Reference.join, Piece.chars]

theorem substitute_keep (ps : List Piece) :
    substitute (fun _ => .keep) ps = .str (String.ofList (Reference.join ps)) := by
  have hfans : fansOut (fun _ => .keep) ps = false :=
    List.any_eq_false.mpr fun p _ => by cases p <;> simp [Filling.fansOut]
  rw [substitute, expand_keep, hfans]
  rfl

section
variable {env before : Environment} {v : Value}

theorem filling_congr {body : List Char}
    (h : env.get? (Reference.nameOf body) = before.get? (Reference.nameOf body)) (final : Bool) :
    env.filling final body = before.filling final body := by
  rw [filling, h]
  rfl

/-- A value looks only at the bindings of the names it refers to. -/
theorem resolve_congr (h : ∀ name ∈ Reference.namesIn v, env.get? name = before.get? name) :
    env.resolve v = before.resolve v :=
  Value.mapStrings_congr v fun _ hs => substitute_congr fun _ hbody =>
    filling_congr (h _ (Reference.mem_namesIn hs (Reference.mem_names hbody))) false

/-- A text whose tokens are all kept is its own resolution. -/
theorem resolveText_of_kept {final : Bool} {text : String}
    (h : ∀ body, .token body ∈ Reference.pieces text.toList → env.filling final body = .keep) :
    env.resolveText final text = .str text := by
  rw [resolveText, substitute_congr h, substitute_keep, Reference.join_pieces, String.ofList_toList]

/-- So is a value that refers to unbound names only. -/
theorem resolve_of_unbound (h : ∀ name ∈ Reference.namesIn v, env.get? name = none) :
    env.resolve v = v :=
  Value.mapStrings_eq_self fun _ hs => resolveText_of_kept fun _ hbody => by
    simp [filling, h _ (Reference.mem_namesIn hs (Reference.mem_names hbody))]

/-- A value without references is its own resolution. -/
theorem resolve_of_literal (env : Environment) (h : unresolved v = []) : env.resolve v = v :=
  resolve_of_unbound fun name hname => by
    rw [unresolved] at h
    simp [h] at hname

end
end Environment
end Toolflow
