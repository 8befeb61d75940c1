import Mathlib.Data.List.Induction
import Mathlib.Data.List.TakeWhile
import Mathlib.Data.List.Nodup
import Toolflow.Modules.Script
import Toolflow.Proofs.Splicing

/-! What the scan of a script's texts declares.

The scan has a pattern of its own, and what it reads in a text are the matches of this pattern
(`matches_iff`). It goes over the texts once and keeps two lists, of takes and of values, which it
extends and upgrades in place. What it has collected after any uses of names can be said at once:
the names in order of first appearance, each required if any of its uses is unconditional. One more
use keeps this, whether it repeats a name, upgrades one or brings a new one (`declare_joined`). So
where the uses stand decides nothing but the order of the lists. -/
namespace Toolflow

/-- The takes of an interface, or its values. -/
def Interface.reads (io : Interface) (isTake : Bool) : List Declared :=
  if isTake then io.takes else io.values

namespace Modules.Script

open Reference

/-! ### The pattern -/

/-- Nothing, or a text in brackets. -/
def Selector (cs : List Char) : Prop := cs = [] ∨ ∃ inner, cs = '[' :: (inner ++ [']'])

/-- What the name of a take has in front of it. -/
def sigil (isTake : Bool) : List Char := if isTake then [':'] else []

/-- What stands at the end of an optional use. -/
def markOf (isOptional : Bool) : List Char := if isOptional then ['?'] else []

/-- A token body is a colon or none, a name, a selector or none, and a question mark or none. A
colon in front is never part of the name of a value. -/
structure Mention.Spelled (m : Mention) (body : List Char) : Prop where
  sort : m.isTake = true ∨ body.head? ≠ some ':'
  name : ∀ c ∈ m.name.toList, isNameChar c = true
  parts : ∃ selector, Selector selector ∧
    body = sigil m.isTake ++ (m.name.toList ++ (selector ++ markOf m.isOptional))

/-- A token body without its colon, and whether it has one. -/
def strip : List Char → Bool × List Char
  | ':' :: rest => (true, rest)
  | cs => (false, cs)

/-- The end of a token body without its question mark, and whether it has one. -/
def ending (rest : List Char) : Bool × List Char :=
  match rest.getLast? with
  | some '?' => (true, rest.dropLast)
  | _ => (false, rest)

theorem mentionOf?_eq (body : List Char) : mentionOf? body =
    let (isTake, cs) := strip body
    let (isOptional, selector) := ending (cs.dropWhile isNameChar)
    if selector = [] ∨ (selector.head? = some '[' ∧ selector.getLast? = some ']') then
      some ⟨isTake, String.ofList (cs.takeWhile isNameChar), isOptional⟩
    else none := rfl

theorem strip_sigil {isTake : Bool} {cs : List Char} (h : isTake = true ∨ cs.head? ≠ some ':') :
    strip (sigil isTake ++ cs) = (isTake, cs) := by
  cases isTake with
  | true => rfl
  | false =>
    have hhead := h.resolve_left (by simp)
    unfold strip
    split
    · rename_i rest hcs
      exact absurd (congrArg List.head? hcs) hhead
    · rfl

theorem eq_of_strip (body : List Char) : body = sigil (strip body).1 ++ (strip body).2 := by
  unfold strip
  split <;> rfl

theorem strip_sort (body : List Char) : (strip body).1 = true ∨ body.head? ≠ some ':' := by
  unfold strip
  split
  · exact Or.inl rfl
  · rename_i hcolon
    refine Or.inr fun hhead => ?_
    obtain ⟨rest, rfl⟩ := List.head?_eq_some_iff.mp hhead
    exact hcolon rest rfl

theorem selector_iff {cs : List Char} :
    cs = [] ∨ (cs.head? = some '[' ∧ cs.getLast? = some ']') ↔ Selector cs := by
  refine or_congr_right ⟨fun ⟨hhead, hlast⟩ => ?_, ?_⟩
  · cases cs with
    | nil => cases hhead
    | cons c rest =>
      cases hhead
      rcases List.eq_nil_or_concat' rest with rfl | ⟨inner, last, rfl⟩
      · cases hlast
      · rw [← List.cons_append, List.getLast?_concat] at hlast
        cases hlast
        exact ⟨inner, rfl⟩
  · rintro ⟨inner, rfl⟩
    exact ⟨rfl, by rw [← List.cons_append, List.getLast?_concat]⟩

theorem eq_of_ending (rest : List Char) : rest = (ending rest).2 ++ markOf (ending rest).1 := by
  unfold ending
  split
  · rename_i hlast
    exact (List.dropLast_append_getLast? _ hlast).symm
  · exact (List.append_nil rest).symm

theorem ending_append {back : List Char} (hback : Selector back) (isOptional : Bool) :
    ending (back ++ markOf isOptional) = (isOptional, back) := by
  unfold ending markOf
  cases isOptional with
  | true =>
    rw [if_pos rfl, List.getLast?_concat, List.dropLast_concat]
    rfl
  | false =>
    rw [if_neg (by decide), List.append_nil]
    rcases hback with rfl | ⟨inner, rfl⟩
    · rfl
    · rw [← List.cons_append, List.getLast?_concat]
      rfl

/-- A name ends where its selector or its mark begins. -/
theorem isNameChar_head {back : List Char} (hback : Selector back) (isOptional : Bool) :
    ∀ c ∈ (back ++ markOf isOptional).head?, isNameChar c = false := by
  rcases hback with rfl | ⟨inner, rfl⟩
  · cases isOptional <;> simp [markOf, isNameChar]
  · simp [isNameChar]

theorem span_name {name tail : List Char} (hname : ∀ c ∈ name, isNameChar c = true)
    (htail : ∀ c ∈ tail.head?, isNameChar c = false) :
    (name ++ tail).takeWhile isNameChar = name ∧ (name ++ tail).dropWhile isNameChar = tail := by
  rw [List.takeWhile_append_of_pos hname, List.dropWhile_append_of_pos hname]
  cases tail with
  | nil => simp
  | cons c rest => simp [htail c rfl]

/-- The reader of token bodies accepts what is spelled by the pattern, and nothing else. -/
theorem mentionOf?_iff {body : List Char} {m : Mention} :
    mentionOf? body = some m ↔ m.Spelled body := by
  constructor
  · intro h
    rw [mentionOf?_eq] at h
    dsimp only at h
    split at h
    · rename_i hselector
      cases h
      refine ⟨strip_sort body, ?_, _, selector_iff.mp hselector, ?_⟩
      · rw [String.toList_ofList]
        exact fun c hc => List.mem_takeWhile_imp hc
      · rw [String.toList_ofList, ← eq_of_ending, List.takeWhile_append_dropWhile]
        exact eq_of_strip body
    · cases h
  · rintro ⟨hsort, hname, back, hback, hbody⟩
    obtain ⟨htake, hdrop⟩ := span_name hname (isNameChar_head hback m.isOptional)
    have hcolon : m.isTake = true ∨
        (m.name.toList ++ (back ++ markOf m.isOptional)).head? ≠ some ':' := by
      rw [hbody] at hsort
      cases htake : m.isTake with
      | true => exact Or.inl rfl
      | false => simpa [htake, sigil] using hsort
    rw [mentionOf?_eq, hbody, strip_sigil hcolon]
    dsimp only
    rw [htake, hdrop, ending_append hback, if_pos (selector_iff.mpr hback), String.ofList_toList]

/-! ### Its matches in a text -/

/-- The matches of the pattern in a text: from the left, one is taken wherever one begins. -/
inductive Matches : List Char → List Mention → Prop
  | nil : Matches [] []
  | token {m : Mention} {body rest : List Char} {ms : List Mention}
      (inside : ∀ c ∈ body, isBodyChar c = true) (spelled : m.Spelled body)
      (matched : Matches rest ms) : Matches ((Piece.token body).chars ++ rest) (m :: ms)
  | char {c : Char} {rest : List Char} {ms : List Mention}
      (plain : ∀ m : Mention, ∀ body after, (∀ c ∈ body, isBodyChar c = true) → m.Spelled body →
        c :: rest ≠ (Piece.token body).chars ++ after)
      (matched : Matches rest ms) : Matches (c :: rest) ms

/-- No match begins but at a dollar. -/
theorem Matches.append_left {front rest : List Char} {ms : List Mention}
    (h : Matches rest ms) (plain : ∀ c ∈ front, c ≠ '$') : Matches (front ++ rest) ms := by
  induction front with
  | nil => exact h
  | cons c front ih =>
    obtain ⟨hc, hfront⟩ := List.forall_mem_cons.mp plain
    refine .char (fun m body after _ _ heq => hc ?_) (ih hfront)
    exact (List.cons.inj heq).1

/-- Two tokens that begin at one place are one. -/
theorem body_unique {body other rest after : List Char} (inside : ∀ c ∈ body, isBodyChar c = true)
    (hother : ∀ c ∈ other, isBodyChar c = true)
    (h : (Piece.token body).chars ++ rest = (Piece.token other).chars ++ after) : body = other := by
  rw [token_append, token_append] at h
  have hread := congrArg tokenBody? h
  rwa [tokenBody?_token body rest inside, tokenBody?_token other after hother,
    Option.some_inj] at hread

/-- A token that is not spelled by the pattern holds no match. -/
theorem Matches.skip {body rest : List Char} {ms : List Mention} (h : Matches rest ms)
    (inside : ∀ c ∈ body, isBodyChar c = true) (unread : mentionOf? body = none) :
    Matches ((Piece.token body).chars ++ rest) ms := by
  refine .char (fun m other after hother hspelled heq => ?_)
    (h.append_left (ne_dollar_of_mem_token inside))
  rw [body_unique inside hother heq, mentionOf?_iff.mpr hspelled] at unread
  cases unread

/-- The mention that a piece of a text is. -/
def Mention.ofPiece? : Piece → Option Mention
  | .token body => mentionOf? body
  | .char _ => none

theorem mentions_eq (text : String) :
    mentions text = (pieces text.toList).filterMap Mention.ofPiece? := rfl

theorem filterMap_plain (cs : List Char) :
    (cs.map Piece.char).filterMap Mention.ofPiece? = [] := by
  rw [List.filterMap_map]
  exact List.filterMap_eq_nil_iff.mpr fun _ _ => rfl

theorem matches_of_cut {s : List Char} {ps : List Piece} (h : Cut s ps) :
    Matches s (ps.filterMap Mention.ofPiece?) := by
  induction h with
  | nil => exact .nil
  | @token body rest ps inside _ ih =>
    rw [List.filterMap_cons, Mention.ofPiece?]
    cases hread : mentionOf? body with
    | some m => exact .token inside (mentionOf?_iff.mp hread) ih
    | none => exact ih.skip inside hread
  | char plain _ ih => exact .char (fun _ body after inside _ => plain body after inside) ih

theorem Matches.eq_pieces {s : List Char} {ms : List Mention} (h : Matches s ms) :
    ms = (pieces s).filterMap Mention.ofPiece? := by
  induction h with
  | nil => rfl
  | @token m body _ _ inside spelled _ ih =>
    have read : Mention.ofPiece? (.token body) = some m := mentionOf?_iff.mpr spelled
    rw [token_append, pieces_token _ _ inside, List.filterMap_cons_some read, ih]
  | @char c rest ms plain _ ih =>
    cases hread : tokenBody? (c :: rest) with
    | none => rw [pieces, hread, List.filterMap_cons_none rfl, ih]
    | some body =>
      obtain ⟨inside, after, heq⟩ := eq_of_tokenBody? hread
      have unread : Mention.ofPiece? (.token body) = none := by
        refine Option.eq_none_iff_forall_ne_some.mpr fun m hm => ?_
        exact plain m body after inside (mentionOf?_iff.mp hm) (heq.trans (token_append ..).symm)
      -- The rest of the token is plain, and so is what the text without its dollar begins with.
      have hrest : pieces rest =
          ('{' :: (body ++ ['}'])).map Piece.char ++ pieces after := by
        rw [← pieces_append_of_plain _ _ (ne_dollar_of_mem_token inside), (List.cons.inj heq).2]
        simp
      rw [heq, pieces_token _ _ inside, List.filterMap_cons_none unread, ih, hrest,
        List.filterMap_append, filterMap_plain, List.nil_append]

/-- What the scan reads in a text are the matches of its pattern. -/
theorem matches_iff {text : String} {ms : List Mention} :
    Matches text.toList ms ↔ ms = mentions text := by
  rw [mentions_eq]
  exact ⟨Matches.eq_pieces, fun h => h ▸ matches_of_cut (cut_pieces text.toList)⟩

/-! ### Uses of one name joined -/

section
variable {α : Type} [DecidableEq α]

/-- One more entry is listed if it is new. -/
theorem eraseDups_concat (l : List α) (a : α) :
    (l ++ [a]).eraseDups = if a ∈ l then l.eraseDups else l.eraseDups ++ [a] := by
  have hsingle : [a].eraseDups = [a] := by
    rw [List.eraseDups_cons, List.filter_nil, List.eraseDups_nil]
  rw [List.eraseDups_append]
  split <;> simp_all [List.removeAll]

theorem nodup_eraseDups (l : List α) : l.eraseDups.Nodup := by
  induction l using List.reverseRecOn with
  | nil => exact List.nodup_nil
  | append_singleton l a ih =>
    rw [eraseDups_concat]
    split
    · exact ih
    · rename_i hnew
      rw [← List.concat_eq_append, List.nodup_concat, List.mem_eraseDups]
      exact ⟨hnew, ih⟩

end

/-- How strictly a name is meant by its uses together: a single unconditional one decides. -/
def strictest (ms : List Mention) (name : String) : Strictness :=
  if ∃ m ∈ ms, m.name = name ∧ m.isOptional = false then .required else .optional

/-- What uses of names declare together: each name where it first appears, as strictly as any of
its uses means it. -/
def joined (ms : List Mention) : List Declared :=
  (ms.map (·.name)).eraseDups.map fun name => ⟨name, strictest ms name⟩

theorem names_joined (ms : List Mention) :
    (joined ms).map (·.name) = (ms.map (·.name)).eraseDups := by
  simp [joined, Function.comp_def]

theorem any_joined (ms : List Mention) (name : String) :
    (joined ms).any (·.name = name) = true ↔ name ∈ ms.map (·.name) := by
  rw [← List.mem_eraseDups, ← names_joined]
  simp

theorem strictest_concat (ms : List Mention) (m : Mention) (name : String) :
    strictest (ms ++ [m]) name =
      if m.name = name ∧ m.isOptional = false then .required else strictest ms name := by
  unfold strictest
  simp only [List.mem_append, List.mem_singleton, or_and_right, exists_or, exists_eq_left]
  by_cases hm : m.name = name ∧ m.isOptional = false
  · rw [if_pos hm, if_pos (Or.inr hm)]
  · simp only [hm, or_false, if_false]

theorem strictest_of_notMem {ms : List Mention} {name : String}
    (h : name ∉ ms.map (·.name)) : strictest ms name = .optional :=
  if_neg fun ⟨_, hm, hname, _⟩ => h (List.mem_map.mpr ⟨_, hm, hname⟩)

/-- A name that is known keeps its place and is upgraded by an unconditional use. -/
theorem joined_concat_of_mem {ms : List Mention} {m : Mention} (h : m.name ∈ ms.map (·.name)) :
    joined (ms ++ [m]) = (joined ms).map fun d =>
      if m.name = d.name ∧ m.isOptional = false then .required d.name else d := by
  unfold joined
  rw [List.map_append, List.map_singleton, eraseDups_concat, if_pos h, List.map_map]
  refine List.map_congr_left fun name _ => ?_
  rw [Function.comp_apply, strictest_concat]
  split <;> rfl

/-- A name that is new goes to the end. -/
theorem joined_concat_of_notMem {ms : List Mention} {m : Mention}
    (h : m.name ∉ ms.map (·.name)) : joined (ms ++ [m]) =
      joined ms ++ [if m.isOptional then .optional m.name else .required m.name] := by
  unfold joined
  rw [List.map_append, List.map_singleton, eraseDups_concat, if_neg h, List.map_append]
  refine congrArg₂ _ (List.map_congr_left fun name hname => ?_) ?_
  · have hne : m.name ≠ name := fun heq => h (heq ▸ List.mem_eraseDups.mp hname)
    rw [strictest_concat, if_neg (mt And.left hne)]
  · rw [List.map_singleton, strictest_concat, strictest_of_notMem h]
    cases m.isOptional <;> simp [Declared.optional, Declared.required]

/-- One more use is declared by joining it to the others. -/
theorem declare_joined (ms : List Mention) (m : Mention) :
    declare (joined ms) m.name m.isOptional = joined (ms ++ [m]) := by
  unfold declare
  by_cases hknown : m.name ∈ ms.map (·.name)
  · rw [if_pos ((any_joined ms m.name).mpr hknown), joined_concat_of_mem hknown]
    cases hoptional : m.isOptional with
    | true => simp
    | false =>
      rw [if_neg (by simp)]
      refine List.map_congr_left fun d _ => ?_
      by_cases hname : d.name = m.name
      · rw [if_pos hname, if_pos ⟨hname.symm, rfl⟩, hname]
      · rw [if_neg hname, if_neg fun h => hname h.1.symm]
  · rw [if_neg (mt (any_joined ms m.name).mp hknown), joined_concat_of_notMem hknown]

theorem required_iff {ms : List Mention} {d : Declared} (h : d ∈ joined ms) :
    d = .required d.name ↔ ∃ m ∈ ms, m.name = d.name ∧ m.isOptional = false := by
  obtain ⟨name, -, rfl⟩ := List.mem_map.mp h
  simp [Declared.required, strictest]

theorem optional_iff {ms : List Mention} {d : Declared} (h : d ∈ joined ms) :
    d = .optional d.name ↔ ∀ m ∈ ms, m.name = d.name → m.isOptional = true := by
  obtain ⟨name, -, rfl⟩ := List.mem_map.mp h
  simp [Declared.optional, strictest]

/-- The order of the uses shows in the order of the names only. -/
theorem joined_perm {ms others : List Mention} (h : ms.Perm others) :
    (joined ms).Perm (joined others) := by
  have hstrict : strictest ms = strictest others := by
    funext name
    simp only [strictest, h.mem_iff]
  have hnames : (ms.map (·.name)).eraseDups.Perm (others.map (·.name)).eraseDups := by
    refine (List.perm_ext_iff_of_nodup (nodup_eraseDups _) (nodup_eraseDups _)).mpr fun name => ?_
    rw [List.mem_eraseDups, List.mem_eraseDups]
    exact (h.map _).mem_iff
  unfold joined
  rw [hstrict]
  exact hnames.map _

/-! ### The scan of texts -/

/-- The first of two lists, or the second. -/
def side (isTake : Bool) (declared : List Declared × List Declared) : List Declared :=
  if isTake then declared.1 else declared.2

/-- What one mention adds. -/
def note : List Declared × List Declared → Mention → List Declared × List Declared :=
  fun (takes, values) m =>
    if m.name.isEmpty then (takes, values)
    else if m.isTake then (declare takes m.name m.isOptional, values)
    else (takes, declare values m.name m.isOptional)

/-- The mentions of one sort that have a name. -/
def named (isTake : Bool) (ms : List Mention) : List Mention :=
  ms.filter fun m => m.isTake = isTake ∧ m.name ≠ ""

theorem named_concat (isTake : Bool) (ms : List Mention) (m : Mention) :
    named isTake (ms ++ [m]) =
      if m.isTake = isTake ∧ m.name ≠ "" then named isTake ms ++ [m] else named isTake ms := by
  unfold named
  rw [List.filter_append]
  by_cases hcounts : m.isTake = isTake ∧ m.name ≠ ""
  · rw [if_pos hcounts, List.filter_cons_of_pos (by simpa using hcounts), List.filter_nil]
  · rw [if_neg hcounts, List.filter_cons_of_neg (by simpa using hcounts), List.filter_nil,
      List.append_nil]

theorem side_note (isTake : Bool) (acc : List Declared × List Declared) (m : Mention) :
    side isTake (note acc m) = if m.isTake = isTake ∧ m.name ≠ "" then
      declare (side isTake acc) m.name m.isOptional else side isTake acc := by
  unfold note
  by_cases hname : m.name = ""
  · simp [hname]
  · cases isTake <;> cases hsort : m.isTake <;> simp [side, hname]

/-- The scan collects the uses of each sort joined. -/
theorem side_declareAll (isTake : Bool) (ms : List Mention) :
    side isTake (declareAll ms) = joined (named isTake ms) := by
  induction ms using List.reverseRecOn with
  | nil => cases isTake <;> rfl
  | append_singleton ms m ih =>
    have hstep : declareAll (ms ++ [m]) = note (declareAll ms) m := List.foldl_concat ..
    rw [hstep, side_note, ih, named_concat, apply_ite joined, declare_joined]

/-- The uses of takes in a sequence of texts, or of values. -/
def uses (isTake : Bool) (texts : List String) : List Mention :=
  named isTake (texts.flatMap mentions)

/-- The takes that scanning a sequence of texts declares, or the values. -/
def declaredBy (isTake : Bool) (texts : List String) : List Declared :=
  side isTake (declareAll (texts.flatMap mentions))

theorem declaredBy_eq (isTake : Bool) (texts : List String) :
    declaredBy isTake texts = joined (uses isTake texts) :=
  side_declareAll isTake _

/-- A script stage takes and reads what its texts declare. -/
theorem reads_interface (s : Job) (name : String) (isTake : Bool) :
    (s.interface name).reads isTake = declaredBy isTake s.texts := by
  cases isTake <;> rfl

/-- Scanning texts joins the uses of a name, which are the matches of the pattern that have this
name. It is listed once, where it first appears, as required if one of its uses has no mark and as
optional if all have one; so the order of the texts shows in the order of the lists only. -/
theorem uses_joined (texts : List String) :
    (∀ text ms, Matches (String.toList text) ms ↔ ms = mentions text) ∧
    ∀ isTake,
      ((declaredBy isTake texts).map (·.name)).Nodup ∧
      (declaredBy isTake texts).map (·.name) = ((uses isTake texts).map (·.name)).eraseDups ∧
      (∀ d ∈ declaredBy isTake texts,
        (d = .required d.name ↔
          ∃ m ∈ uses isTake texts, m.name = d.name ∧ m.isOptional = false) ∧
        (d = .optional d.name ↔
          ∀ m ∈ uses isTake texts, m.name = d.name → m.isOptional = true)) ∧
      ∀ others : List String, others.Perm texts →
        (declaredBy isTake others).Perm (declaredBy isTake texts) := by
  refine ⟨fun _ _ => matches_iff, fun isTake => ?_⟩
  have hnames : (declaredBy isTake texts).map (·.name) =
      ((uses isTake texts).map (·.name)).eraseDups := by
    rw [declaredBy_eq, names_joined]
  refine ⟨hnames ▸ nodup_eraseDups _, hnames, fun d hd => ?_, fun others h => ?_⟩
  · rw [declaredBy_eq] at hd
    exact ⟨required_iff hd, optional_iff hd⟩
  · rw [declaredBy_eq, declaredBy_eq]
    exact joined_perm ((h.flatMap_right mentions).filter _)

/-- Texts that use a take optionally first and then unconditionally, and another one between. -/
def upgrading : List String := ["$\x7b:sdc?\x7d", "$\x7b:eblif?\x7d $\x7b:sdc\x7d"]

/-- The unconditional use decides in either order of the texts. -/
theorem upgraded_use_joined :
    declaredBy true upgrading = [.required "sdc", .optional "eblif"] ∧
    (∃ m ∈ uses true upgrading, m.name = "sdc" ∧ m.isOptional = false) ∧
    (∀ m ∈ uses true upgrading, m.name = "eblif" → m.isOptional = true) ∧
    declaredBy true upgrading.reverse = [.optional "eblif", .required "sdc"] ∧
    upgrading.reverse.Perm upgrading ∧
    (declaredBy true upgrading.reverse).Perm (declaredBy true upgrading) := by
  have hdeclared : declaredBy true upgrading = [.required "sdc", .optional "eblif"] := by
    decide +kernel
  obtain ⟨-, hjoined⟩ := uses_joined upgrading
  obtain ⟨-, -, hstrict, hperm⟩ := hjoined true
  have hsdc : .required "sdc" ∈ declaredBy true upgrading := by simp [hdeclared]
  have heblif : .optional "eblif" ∈ declaredBy true upgrading := by simp [hdeclared]
  exact ⟨hdeclared, (hstrict _ hsdc).1.mp rfl, (hstrict _ heblif).2.mp rfl, by decide +kernel,
    List.reverse_perm _, hperm _ (List.reverse_perm _)⟩

end Modules.Script
end Toolflow
