import Toolflow.Proofs.PathVariables
import Toolflow.Proofs.Scanning
import Toolflow.Proofs.SettledResolution
import Toolflow.Proofs.Wrapping

/-! What a script declares, against what resolving its parameters looks up.

Two readers go over the same texts. Resolving one looks up the body of each token without its
question marks, wherever they stand; the scan that finds what a script takes and reads expects a
question mark inside the brackets of a selector or at the very end. So both agree on a token whose
marks stand there, and a token with a mark elsewhere is looked up and declares nothing. -/
namespace Toolflow

namespace Modules.Script

open Reference (pieces nameOf isBodyChar)

/-! ### What is looked up -/

/-- Nothing, or a question mark. -/
def Mark (cs : List Char) : Prop := cs = [] ∨ cs = ['?']

theorem mark_markOf (isOptional : Bool) : Mark (markOf isOptional) := by
  cases isOptional
  · exact Or.inl rfl
  · exact Or.inr rfl

theorem Mark.exists_markOf {cs : List Char} (h : Mark cs) :
    ∃ isOptional, cs = markOf isOptional :=
  h.elim (fun hnone => ⟨false, hnone⟩) fun hone => ⟨true, hone⟩

/-- The question marks of a token stand inside the brackets of a selector, or at the very end. -/
def Placed (body : List Char) : Prop :=
  ∃ front back mark, body = front ++ (back ++ mark) ∧ '?' ∉ front ∧ Selector back ∧ Mark mark

/-- A name that a token may be about. -/
structure Nameable (t : String) : Prop where
  nonempty : t ≠ ""
  opens : '[' ∉ t.toList
  closes : ']' ∉ t.toList

/-- A token is looked up as a take or as a value of some name, with a selector or without. -/
def LooksUp (isTake : Bool) (t : String) (sel body : List Char) : Prop :=
  Selector sel ∧ nameOf body = String.ofList (sigil isTake ++ (t.toList ++ sel))

theorem LooksUp.filter {isTake : Bool} {t : String} {sel body : List Char}
    (h : LooksUp isTake t sel body) :
    body.filter (· != '?') = sigil isTake ++ t.toList ++ sel := by
  rw [List.append_assoc]
  exact String.ofList_injective h.2

theorem selector_filter {back : List Char} (h : Selector back) :
    Selector (back.filter (· != '?')) := by
  rcases h with rfl | ⟨inner, rfl⟩
  · exact Or.inl rfl
  · exact Or.inr ⟨inner.filter (· != '?'), by simp⟩

theorem filter_unmarked {cs : List Char} (h : '?' ∉ cs) : cs.filter (· != '?') = cs :=
  List.filter_eq_self.mpr fun c hc => by
    rw [bne_iff_ne]
    rintro rfl
    exact h hc

theorem filter_mark {mark : List Char} (h : Mark mark) : mark.filter (· != '?') = [] := by
  rcases h with rfl | rfl <;> rfl

/-- A token whose marks are placed begins with the name it is looked up as, and goes on with a
selector and a mark. -/
theorem Placed.split {body stem sel : List Char} (placed : Placed body)
    (hname : body.filter (· != '?') = stem ++ sel) (hstem : '[' ∉ stem) (hsel : Selector sel) :
    ∃ back mark, body = stem ++ (back ++ mark) ∧ Selector back ∧ Mark mark := by
  obtain ⟨front, back, mark, rfl, hfront, hback, hmark⟩ := placed
  rw [List.filter_append, List.filter_append, filter_unmarked hfront, filter_mark hmark,
    List.append_nil] at hname
  rcases hback with rfl | ⟨inner, rfl⟩
  · rw [List.filter_nil, List.append_nil] at hname
    exact ⟨sel, mark, by rw [hname, List.nil_append, List.append_assoc], hsel, hmark⟩
  · have hopens : ('[' :: (inner ++ [']'])).filter (· != '?') =
        '[' :: (inner ++ [']']).filter (· != '?') := List.filter_cons_of_pos rfl
    rw [hopens] at hname
    -- The name has no bracket, so it ends where the first one is: at the selector or before it.
    rcases List.append_eq_append_iff.mp hname with ⟨more, rfl, hrest⟩ | ⟨more, rfl, hrest⟩
    · cases more with
      | nil => exact ⟨_, mark, by rw [List.append_nil], Or.inr ⟨inner, rfl⟩, hmark⟩
      | cons c more =>
        rw [List.cons_append] at hrest
        obtain ⟨rfl, -⟩ := List.cons.inj hrest
        simp at hstem
    · refine ⟨more ++ '[' :: (inner ++ [']']), mark, by simp, ?_, hmark⟩
      cases more with
      | nil => exact Or.inr ⟨inner, rfl⟩
      | cons c more =>
        rcases hsel with rfl | ⟨inside, rfl⟩
        · cases hrest
        · rw [List.cons_append] at hrest
          obtain ⟨rfl, -⟩ := List.cons.inj hrest
          exact Or.inr ⟨more ++ '[' :: inner, by simp⟩

/-- What the scan reads is looked up, and its marks are placed. -/
theorem lookup_of_mention {body : List Char} {m : Mention} (h : mentionOf? body = some m) :
    Placed body ∧ ∃ sel, LooksUp m.isTake m.name sel body := by
  obtain ⟨-, hname, back, hback, rfl⟩ := mentionOf?_iff.mp h
  have hfront : '?' ∉ sigil m.isTake ++ m.name.toList := by
    intro hmem
    rcases List.mem_append.mp hmem with hmem | hmem
    · cases hsort : m.isTake <;> simp [hsort, sigil] at hmem
    · exact absurd (hname _ hmem) (by decide)
  have hmark := mark_markOf m.isOptional
  refine ⟨⟨sigil m.isTake ++ m.name.toList, back, _, by rw [List.append_assoc], hfront, hback,
    hmark⟩, back.filter (· != '?'), selector_filter hback, ?_⟩
  unfold nameOf
  rw [← List.append_assoc, ← List.append_assoc, List.filter_append, List.filter_append,
    filter_unmarked hfront, filter_mark hmark, List.append_nil, List.append_assoc]

/-- What is looked up is read by the scan if its marks are placed. -/
theorem mention_of_lookup {body sel : List Char} {isTake : Bool} {t : String}
    (inside : ∀ c ∈ body, isBodyChar c = true) (placed : Placed body) (nameable : Nameable t)
    (hcolon : isTake = true ∨ t.toList.head? ≠ some ':') (looked : LooksUp isTake t sel body) :
    ∃ isOptional, mentionOf? body = some ⟨isTake, t, isOptional⟩ := by
  have hfilter := looked.filter
  have hstem : '[' ∉ sigil isTake ++ t.toList := by
    intro hmem
    rcases List.mem_append.mp hmem with hmem | hmem
    · cases isTake <;> simp [sigil] at hmem
    · exact nameable.opens hmem
  have hname : ∀ c ∈ t.toList, isNameChar c = true := by
    intro c hc
    have hmem : c ∈ body.filter (· != '?') := by
      rw [hfilter]
      simp [hc]
    obtain ⟨hbody, hmark⟩ := List.mem_filter.mp hmem
    have hopen : c ≠ '[' := fun heq => nameable.opens (heq ▸ hc)
    have hclose : c ≠ ']' := fun heq => nameable.closes (heq ▸ hc)
    have hinside := inside c hbody
    simp only [isBodyChar, Bool.and_eq_true, bne_iff_ne] at hinside
    simp [isNameChar, hinside, hopen, hclose, bne_iff_ne.mp hmark]
  obtain ⟨back, mark, hbody, hback, hmark⟩ := placed.split hfilter hstem looked.1
  obtain ⟨c, rest, hchars⟩ := List.exists_cons_of_ne_nil
    (fun hnil => nameable.nonempty (String.toList_eq_nil_iff.mp hnil))
  obtain ⟨isOptional, rfl⟩ := hmark.exists_markOf
  refine ⟨isOptional, mentionOf?_iff.mpr ⟨?_, hname, back, hback, by
    rw [hbody, List.append_assoc]⟩⟩
  cases isTake with
  | true => exact Or.inl rfl
  | false =>
    have hhead := hcolon.resolve_left (by simp)
    rw [hchars] at hhead
    rw [hbody, hchars]
    exact Or.inr hhead

/-! ### What is declared -/

/-- The scan declares the names of its mentions. -/
theorem declared_declareAll {ms : List Mention} {isTake : Bool} {n : String} :
    (∃ d ∈ side isTake (declareAll ms), d.name = n) ↔
      n ≠ "" ∧ ∃ m ∈ ms, m.isTake = isTake ∧ m.name = n := by
  rw [side_declareAll, ← List.mem_map, names_joined, List.mem_eraseDups, List.mem_map]
  unfold named
  simp only [List.mem_filter, decide_eq_true_eq]
  constructor
  · rintro ⟨m, ⟨hm, hsort, hname⟩, rfl⟩
    exact ⟨hname, m, hm, hsort, rfl⟩
  · rintro ⟨hname, m, hm, hsort, rfl⟩
    exact ⟨m, ⟨hm, hsort, hname⟩, rfl⟩

theorem mem_mentions {text : String} {m : Mention} : m ∈ mentions text ↔
    ∃ body, .token body ∈ pieces text.toList ∧ mentionOf? body = some m := by
  unfold mentions
  rw [List.mem_filterMap]
  constructor
  · rintro ⟨piece, hpiece, hm⟩
    cases piece with
    | char c => cases hm
    | token body => exact ⟨body, hpiece, hm⟩
  · rintro ⟨body, hbody, hm⟩
    exact ⟨_, hbody, hm⟩

/-- A script stage takes and reads what its texts mention. -/
theorem declared_interface {s : Job} {name n : String} {isTake : Bool} :
    (∃ d ∈ (s.interface name).reads isTake, d.name = n) ↔ n ≠ "" ∧ ∃ text ∈ s.texts,
      ∃ body, .token body ∈ pieces text.toList ∧
        ∃ isOptional, mentionOf? body = some ⟨isTake, n, isOptional⟩ := by
  rw [reads_interface, declaredBy, declared_declareAll]
  refine and_congr_right fun _ => ?_
  constructor
  · rintro ⟨⟨_, _, isOptional⟩, hm, rfl, rfl⟩
    obtain ⟨text, htext, hm⟩ := List.mem_flatMap.mp hm
    obtain ⟨body, hbody, hm⟩ := mem_mentions.mp hm
    exact ⟨text, htext, body, hbody, isOptional, hm⟩
  · rintro ⟨text, htext, body, hbody, isOptional, hm⟩
    exact ⟨_, List.mem_flatMap.mpr ⟨text, htext, mem_mentions.mpr ⟨body, hbody, hm⟩⟩, rfl, rfl⟩

/-! ### Which texts are scanned -/

/-- A text of the parameters that the scan goes through: of the script, its directory, its inputs,
or the files and targets of its outputs. -/
inductive Scanned (params : Value) (text : String) : Prop
  | own {key : String} {v : Value} (hkey : key = "script" ∨ key = "cwd")
      (hv : Parameters.get? params key = some v) (within : text ∈ v.strings)
  | input {inputs : ValueTable} {e : String × Value}
      (hinputs : Parameters.get? params "inputs" = some (.map inputs)) (he : e ∈ inputs.entries)
      (within : text ∈ e.2.strings)
  | output {outputs : ValueTable} {e : String × Value} {key : String} {v : Value}
      (houtputs : Parameters.get? params "outputs" = some (.map outputs))
      (he : e ∈ outputs.entries) (hkey : key = "target" ∨ key = "file")
      (hv : Parameters.get? e.2 key = some v) (within : text ∈ v.strings)

/-- Outputs that are read under different names are all there. -/
theorem foldlM_addOutput {l : List (String × Value)} {t after : Table Output}
    (distinct : (l.map (·.1)).Nodup) (h : l.foldlM addOutput t = .ok after) :
    (∀ e ∈ l, ∃ o, Output.parse e.1 e.2 = .ok o ∧ after.get? e.1 = some o) ∧
      ∀ name ∉ l.map (·.1), after.get? name = t.get? name := by
  induction l generalizing t with
  | nil =>
    cases h
    exact ⟨by simp, fun _ _ => rfl⟩
  | cons e rest ih =>
    rw [List.foldlM_cons] at h
    obtain ⟨next, hnext, h⟩ := bind_eq_ok.mp h
    obtain ⟨o, ho, hnext⟩ := bind_eq_ok.mp hnext
    cases hnext
    obtain ⟨hfresh, hrest⟩ := List.nodup_cons.mp distinct
    obtain ⟨hread, hkept⟩ := ih hrest h
    refine ⟨List.forall_mem_cons.mpr ⟨⟨o, ho, ?_⟩, hread⟩, fun name hname => ?_⟩
    · rw [hkept e.1 hfresh, Table.get?_insert_self]
    · obtain ⟨hne, hname⟩ := not_or.mp (List.mem_cons.not.mp hname)
      rw [hkept name hname, Table.get?_insert_of_ne _ _ hne]

/-- The texts that a script stage scans are those of its parameters. -/
theorem mem_texts_iff {params : Value} {s : Job} (ordered : params.Ordered)
    (h : Job.parse params = .ok s) {text : String} : text ∈ s.texts ↔ Scanned params text := by
  have hread := Job.readFrom_of_parse h
  have houtputs := hread.outputs_entries.2
  unfold Job.texts
  simp only [List.mem_append, or_assoc]
  constructor
  · rintro (hscript | hcwd | hinput | houtput)
    · exact .own (Or.inl rfl) hread.script hscript
    · cases hv : s.cwd with
      | none => rw [hv] at hcwd; cases hcwd
      | some v =>
        rw [hv] at hcwd
        exact .own (Or.inr rfl) (hread.cwd.symm.trans hv) hcwd
    · obtain ⟨v, hv, within⟩ := List.mem_flatMap.mp hinput
      obtain ⟨e, he, rfl⟩ := List.mem_map.mp hv
      rcases hread.inputs with ⟨-, hempty⟩ | hinputs
      · rw [hempty] at he
        cases he
      · exact .input hinputs he within
    · obtain ⟨o, ho, within⟩ := List.mem_flatMap.mp houtput
      obtain ⟨e, he, rfl⟩ := List.mem_map.mp ho
      obtain ⟨fields, decl, hfields, hentry, hparse⟩ := houtputs e he
      obtain ⟨htarget, hfile⟩ := Output.parse_spec hparse
      rcases List.mem_append.mp within with within | within
      · exact .output hfields hentry (Or.inl rfl) htarget within
      · cases hv : e.2.file with
        | none => rw [hv] at within; cases within
        | some v =>
          rw [hv] at within
          exact .output hfields hentry (Or.inr rfl) (hfile.symm.trans hv) within
  · intro scanned
    cases scanned with
    | own hkey hv within =>
      rcases hkey with rfl | rfl
      · cases hread.script.symm.trans hv
        exact Or.inl within
      · refine Or.inr (Or.inl ?_)
        rw [hread.cwd, hv]
        exact within
    | input hinputs he within =>
      refine Or.inr (Or.inr (Or.inl ?_))
      rcases hread.inputs with ⟨hnone, -⟩ | hfields
      · cases hnone.symm.trans hinputs
      · cases hfields.symm.trans hinputs
        exact List.mem_flatMap.mpr ⟨_, List.mem_map_of_mem he, within⟩
    | @output outputs e key v hdecls he hkey hv within =>
      refine Or.inr (Or.inr (Or.inr ?_))
      rcases hread.outputs with ⟨hnone, -⟩ | ⟨fields, hfields, hfold⟩
      · cases hnone.symm.trans hdecls
      · cases hfields.symm.trans hdecls
        have ascending : outputs.Ascending := by
          obtain ⟨hascending, -⟩ := ordered.parameter hdecls
          exact hascending outputs rfl
        obtain ⟨o, hparse, ho⟩ := (foldlM_addOutput (ascending.imp fun hlt => hlt.ne) hfold).1 e he
        obtain ⟨htarget, hfile⟩ := Output.parse_spec hparse
        refine List.mem_flatMap.mpr
          ⟨o, List.mem_map.mpr ⟨_, Table.mem_of_get? ho, rfl⟩, List.mem_append.mpr ?_⟩
        rcases hkey with rfl | rfl
        · cases htarget.symm.trans hv
          exact Or.inl within
        · refine Or.inr ?_
          rw [hfile, hv]
          exact within

/-! ### What is declared of what is looked up -/

section
variable {args : ModuleArgs} {m : ToolModule} {t : String}

/-- A name is declared if it is looked up by a token whose marks are placed, and only then. -/
theorem declared_iff_lookup (ordered : args.params.Ordered) (h : make args = .ok m)
    (isTake : Bool) (nameable : Nameable t)
    (hcolon : isTake = true ∨ t.toList.head? ≠ some ':') :
    (∃ d ∈ m.io.reads isTake, d.name = t) ↔ ∃ text body sel, Scanned args.params text ∧
      .token body ∈ pieces text.toList ∧ Placed body ∧ LooksUp isTake t sel body := by
  unfold make at h
  obtain ⟨s, hparse, h⟩ := bind_eq_ok.mp h
  obtain ⟨name, -, h⟩ := bind_eq_ok.mp h
  cases h
  refine (declared_interface (s := s)).trans ⟨?_, ?_⟩
  · rintro ⟨-, text, htext, body, hbody, isOptional, hmention⟩
    obtain ⟨placed, sel, looked⟩ := lookup_of_mention hmention
    exact ⟨text, body, sel, (mem_texts_iff ordered hparse).mp htext, hbody, placed, looked⟩
  · rintro ⟨text, body, sel, scanned, hbody, placed, looked⟩
    exact ⟨nameable.nonempty, text, (mem_texts_iff ordered hparse).mpr scanned, body, hbody,
      mention_of_lookup (Reference.inside_of_mem_pieces hbody) placed nameable hcolon looked⟩

/-- A path variable is a take that is looked up, perhaps with a selector. -/
theorem lookup_of_pathVariable {body : List Char} (h : nameOf body ∈ pathVariables t) :
    ∃ sel, LooksUp true t sel body := by
  have hform : ∀ sel : String, Selector sel.toList → nameOf body = ":" ++ t ++ sel →
      LooksUp true t sel.toList body := by
    refine fun sel hsel hname => ⟨hsel, hname.trans (String.toList_inj.mp ?_)⟩
    simp [sigil]
  unfold pathVariables at h
  simp only [List.mem_cons, List.not_mem_nil, or_false] at h
  rcases h with hname | hname | hname
  · exact ⟨_, hform "" (Or.inl rfl) (by rw [hname, String.append_empty])⟩
  · exact ⟨_, hform "[noext]" (Or.inr ⟨"noext".toList, by decide⟩) hname⟩
  · exact ⟨_, hform "[dir]" (Or.inr ⟨"dir".toList, by decide⟩) hname⟩

/-- What a script looks up under a token whose question marks stand inside a selector or at the end,
it declares: a path variable as a take, a plain name as a value. Exactly what such tokens look up is
declared, so a token with a question mark elsewhere declares nothing. -/
theorem lookups_inferred (ordered : args.params.Ordered) (h : make args = .ok m) :
    (∀ text body, Scanned args.params text → .token body ∈ pieces text.toList → Placed body →
      ∀ t, Nameable t → (nameOf body ∈ pathVariables t → ∃ d ∈ m.io.takes, d.name = t) ∧
        (t.toList.head? ≠ some ':' → nameOf body = t → ∃ d ∈ m.io.values, d.name = t)) ∧
    ∀ isTake t, Nameable t → isTake = true ∨ t.toList.head? ≠ some ':' →
      ((∃ d ∈ m.io.reads isTake, d.name = t) ↔ ∃ text body sel, Scanned args.params text ∧
        .token body ∈ pieces text.toList ∧ Placed body ∧ LooksUp isTake t sel body) := by
  refine ⟨fun text body scanned hbody placed t nameable =>
    ⟨fun hname => ?_, fun hcolon hname => ?_⟩,
    fun isTake t nameable hcolon => declared_iff_lookup ordered h isTake nameable hcolon⟩
  · obtain ⟨sel, looked⟩ := lookup_of_pathVariable hname
    exact (declared_iff_lookup ordered h true nameable (Or.inl rfl)).mpr
      ⟨text, body, sel, scanned, hbody, placed, looked⟩
  · have looked : LooksUp false t [] body := ⟨Or.inl rfl, by simpa [sigil] using hname⟩
    exact (declared_iff_lookup ordered h false nameable (Or.inr hcolon)).mpr
      ⟨text, body, [], scanned, hbody, placed, looked⟩

end

/-- The parameters of a script with one argument. -/
def showing (text : String) : Value := .map (Table.ofList [
  ("inputs", .map (Table.ofList [("#1", .str text)])), ("script", .str "show.sh")])

theorem ordered_ofList {l : List (String × Value)} (h : ∀ e ∈ l, e.2.Ordered) :
    (Value.map (Table.ofList l)).Ordered := by
  refine .intro ?_ ?_
  · rintro t ⟨⟩
    exact Table.ascending_ofList l
  · rintro t ⟨⟩ e he
    exact h e (Table.mem_of_mem_ofList he)

theorem ordered_str (text : String) : (Value.str text).Ordered :=
  .intro (fun _ ht => nomatch ht) (fun _ ht => nomatch ht)

theorem ordered_showing (text : String) : (showing text).Ordered :=
  ordered_ofList (List.forall_mem_cons.mpr
    ⟨ordered_ofList (List.forall_mem_singleton.mpr (ordered_str text)),
      List.forall_mem_singleton.mpr (ordered_str "show.sh")⟩)

theorem scanned_showing (text : String) : Scanned (showing text) text := by
  have hinputs : Parameters.get? (showing text) "inputs" =
      some (.map (Table.ofList [("#1", .str text)])) := by
    have hget : (Table.ofList [("inputs", Value.map (Table.ofList [("#1", .str text)])),
        ("script", .str "show.sh")]).get? "inputs" =
        some (.map (Table.ofList [("#1", .str text)])) :=
      (Table.get?_insert_of_ne _ _ (by decide)).trans (Table.get?_insert_self ..)
    rw [Parameters.get?, showing, Value.map?, Option.bind_some, hget]
    rfl
  exact .input hinputs (List.mem_singleton_self _) (List.mem_singleton_self _)

/-- A selector in front of the question mark: what is looked up is declared. -/
theorem marked_take_inferred : ∃ m body, (showing "$\x7b:source[noext]?\x7d").Ordered ∧
    make ⟨showing "$\x7b:source[noext]?\x7d", .empty, "synth"⟩ = .ok m ∧
    Scanned (showing "$\x7b:source[noext]?\x7d") "$\x7b:source[noext]?\x7d" ∧
    .token body ∈ pieces "$\x7b:source[noext]?\x7d".toList ∧ Placed body ∧ Nameable "source" ∧
    nameOf body ∈ pathVariables "source" ∧ ∃ d ∈ m.io.takes, d.name = "source" := by
  have hmake : okAnd (make ⟨showing "$\x7b:source[noext]?\x7d", .empty, "synth"⟩)
      (fun _ => true) = true := by
    decide +kernel
  obtain ⟨m, hm, -⟩ := exists_of_okAnd hmake
  have hbody : Piece.token ":source[noext]?".toList ∈
      pieces "$\x7b:source[noext]?\x7d".toList := by decide
  have placed : Placed ":source[noext]?".toList :=
    ⟨":source".toList, "[noext]".toList, ['?'], by decide, by decide,
      Or.inr ⟨"noext".toList, by decide⟩, Or.inr rfl⟩
  have nameable : Nameable "source" := ⟨by decide, by decide, by decide⟩
  have hname : nameOf ":source[noext]?".toList ∈ pathVariables "source" := by decide
  exact ⟨m, _, ordered_showing _, hm, scanned_showing _, hbody, placed, nameable, hname,
    (((lookups_inferred (ordered_showing _) hm).1 _ _ (scanned_showing _) hbody placed "source"
      nameable).1 hname)⟩

/-- The question mark in front of the selector: the same name is looked up, and nothing is
declared. -/
theorem marked_selector_undeclared : ∃ m body, (showing "$\x7b:source?[noext]\x7d").Ordered ∧
    make ⟨showing "$\x7b:source?[noext]\x7d", .empty, "synth"⟩ = .ok m ∧
    Scanned (showing "$\x7b:source?[noext]\x7d") "$\x7b:source?[noext]\x7d" ∧
    .token body ∈ pieces "$\x7b:source?[noext]\x7d".toList ∧ Nameable "source" ∧
    nameOf body ∈ pathVariables "source" ∧ ¬ ∃ d ∈ m.io.takes, d.name = "source" := by
  have hmake : okAnd (make ⟨showing "$\x7b:source?[noext]\x7d", .empty, "synth"⟩)
      (fun m => m.io.takes.all (·.name ≠ "source")) = true := by
    decide +kernel
  obtain ⟨m, hm, htakes⟩ := exists_of_okAnd hmake
  refine ⟨m, ":source?[noext]".toList, ordered_showing _, hm, scanned_showing _, by decide,
    ⟨by decide, by decide, by decide⟩, by decide, ?_⟩
  rintro ⟨d, hd, hname⟩
  exact of_decide_eq_true (List.all_eq_true.mp htakes d hd) hname

end Modules.Script
end Toolflow
