import Mathlib.Data.List.Basic
import Toolflow.Proofs.Values

/-! Filling a text in place.

A text can also be resolved without cutting it up: the byte offsets of its tokens are taken once,
and from the last token to the first the text between them is replaced in every text that has come
out so far. A fill changes nothing before its own token, so the offsets that are left stay true of
all these texts, whatever was put in behind them. This gives what filling all tokens at once gives:
one text for every choice of alternatives. -/
namespace Toolflow

namespace Reference

/-- The cut of a text at its tokens: from the left, a token is taken wherever one begins. -/
inductive Cut : List Char → List Piece → Prop
  | nil : Cut [] []
  | token {body rest : List Char} {ps : List Piece} (inside : ∀ c ∈ body, isBodyChar c = true)
      (cut : Cut rest ps) : Cut ((Piece.token body).chars ++ rest) (.token body :: ps)
  | char {c : Char} {rest : List Char} {ps : List Piece}
      (plain : ∀ body after, (∀ c ∈ body, isBodyChar c = true) →
        c :: rest ≠ (Piece.token body).chars ++ after)
      (cut : Cut rest ps) : Cut (c :: rest) (.char c :: ps)

theorem token_append (body after : List Char) :
    (Piece.token body).chars ++ after = '$' :: '{' :: (body ++ '}' :: after) := by
  simp [Piece.chars]

theorem Cut.eq_pieces {s : List Char} {ps : List Piece} (h : Cut s ps) : ps = pieces s := by
  induction h with
  | nil => rfl
  | token inside _ ih => rw [token_append, pieces_token _ _ inside, ih]
  | @char c rest ps plain _ ih =>
    have hnone : tokenBody? (c :: rest) = none := by
      cases htoken : tokenBody? (c :: rest) with
      | none => rfl
      | some body =>
        obtain ⟨inside, after, heq⟩ := eq_of_tokenBody? htoken
        exact absurd (heq.trans (token_append ..).symm) (plain body after inside)
    rw [pieces, hnone, ih]

theorem cut_pieces (s : List Char) : Cut s (pieces s) := by
  -- A token takes several characters at once, so the induction is on the length.
  induction hn : s.length using Nat.strongRecOn generalizing s with
  | _ n ih =>
    subst hn
    cases s with
    | nil => exact .nil
    | cons c rest =>
      cases htoken : tokenBody? (c :: rest) with
      | none =>
        rw [pieces, htoken]
        refine .char (fun body after inside heq => ?_) (ih rest.length (by simp) rest rfl)
        rw [heq, token_append, tokenBody?_token body after inside] at htoken
        cases htoken
      | some body =>
        obtain ⟨inside, after, heq⟩ := eq_of_tokenBody? htoken
        have hlength : after.length < (c :: rest).length := by
          rw [heq]
          simp only [List.length_cons, List.length_append]
          omega
        rw [heq, pieces_token _ _ inside, ← token_append]
        exact .token inside (ih _ hlength after rfl)

/-- A text has one cut. -/
theorem cut_iff {s : List Char} {ps : List Piece} : Cut s ps ↔ ps = pieces s :=
  ⟨Cut.eq_pieces, fun h => h ▸ cut_pieces s⟩

/-- Where a token stands in a text, in bytes. -/
structure Span where
  start : Nat
  stop : Nat
  body : List Char

/-- The bytes a text takes. -/
def size (s : List Char) : Nat := (String.ofList s).utf8ByteSize

/-- The spans of the tokens of a text that is continued by some pieces at an offset. -/
def spans : Nat → List Piece → List Span
  | _, [] => []
  | offset, .char c :: rest => spans (offset + size [c]) rest
  | offset, .token body :: rest =>
    let stop := offset + size (Piece.token body).chars
    ⟨offset, stop, body⟩ :: spans stop rest

/-- The span of a token behind a text. -/
def Span.behind (front body : List Char) : Span :=
  ⟨size front, size front + size (Piece.token body).chars, body⟩

theorem size_append (s t : List Char) : size (s ++ t) = size s + size t := by
  simp [size]

/-- The text before an offset, unless that is out of range or inside a character. -/
def upTo? (text : String) (offset : Nat) : Option String :=
  (text.pos? ⟨offset⟩).map fun p => (text.sliceTo p).copy

/-- The text from an offset on, unless that is out of range or inside a character. -/
def from? (text : String) (offset : Nat) : Option String :=
  (text.pos? ⟨offset⟩).map fun p => (text.sliceFrom p).copy

theorem pos?_of_isValid {text : String} {offset : String.Pos.Raw} (h : offset.IsValid text) :
    text.pos? offset = some (text.pos offset h) := by
  have hslice : offset.isValidForSlice text.toSlice = true := by
    rw [String.Pos.Raw.isValidForSlice_eq_true_iff]
    simpa using h
  simp only [String.pos?, String.Slice.pos?, hslice, dif_pos]
  rfl

/-- Between two texts there is a position. -/
theorem pos?_append (s t : String) :
    ∃ p : (s ++ t).Pos, (s ++ t).pos? s.rawEndPos = some p ∧ p.Splits s t := by
  have hvalid : s.rawEndPos.IsValid (s ++ t) :=
    String.Pos.Raw.isValid_iff_exists_append.mpr ⟨s, t, rfl, rfl⟩
  exact ⟨_, pos?_of_isValid hvalid, String.Pos.splits_append_rawEndPos ..⟩

theorem upTo?_append (s t : String) : upTo? (s ++ t) s.utf8ByteSize = some s := by
  obtain ⟨p, hp, splits⟩ := pos?_append s t
  rw [upTo?, ← String.rawEndPos, hp, Option.map_some, splits.copy_sliceTo_eq]

theorem from?_append (s t : String) : from? (s ++ t) s.utf8ByteSize = some t := by
  obtain ⟨p, hp, splits⟩ := pos?_append s t
  rw [from?, ← String.rawEndPos, hp, Option.map_some, splits.copy_sliceFrom_eq]

/-- Puts an item in the place of a span. -/
def splice? (span : Span) (text item : String) : Option String := do
  let before ← upTo? text span.start
  let after ← from? text span.stop
  return before ++ item ++ after

/-- A span is cut out whole, whatever follows it. -/
theorem splice?_token (front after body : List Char) (item : String) :
    splice? (.behind front body)
        (String.ofList (front ++ ((Piece.token body).chars ++ after))) item =
      some (String.ofList front ++ item ++ String.ofList after) := by
  have hbefore : upTo? (String.ofList (front ++ ((Piece.token body).chars ++ after))) (size front) =
      some (String.ofList front) := by
    rw [String.ofList_append, size, upTo?_append]
  have hafter : from? (String.ofList (front ++ ((Piece.token body).chars ++ after)))
      (size front + size (Piece.token body).chars) = some (String.ofList after) := by
    rw [← List.append_assoc, String.ofList_append, ← size_append, size, from?_append]
  rw [splice?, Span.behind, hbefore, hafter]
  rfl

/-! ### Choices of alternatives -/

section
variable {alternatives : List Char → List String} {ps : List Piece} {picks : List Nat}
  {text : String}

/-- A choice picks one alternative for each token of the pieces, by its place. The text it spells
takes the plain characters and the picked alternatives as they are. -/
inductive Spells (alternatives : List Char → List String) :
    List Piece → List Nat → String → Prop
  | nil : Spells alternatives [] [] ""
  | char {c : Char} {ps : List Piece} {picks : List Nat} {text : String}
      (rest : Spells alternatives ps picks text) :
      Spells alternatives (.char c :: ps) picks (String.singleton c ++ text)
  | token {body : List Char} {ps : List Piece} {pick : Nat} {picks : List Nat} {item text : String}
      (picked : (alternatives body)[pick]? = some item) (rest : Spells alternatives ps picks text) :
      Spells alternatives (.token body :: ps) (pick :: picks) (item ++ text)

/-- The order of choices in which the leftmost token varies fastest: the last pick that differs
decides. -/
inductive Before : List Nat → List Nat → Prop
  | here {i j : Nat} {picks : List Nat} (h : i < j) : Before (i :: picks) (j :: picks)
  | later {i j : Nat} {picks others : List Nat} (h : Before picks others) :
      Before (i :: picks) (j :: others)

/-- All choices, each with the text it spells. -/
def spellings (alternatives : List Char → List String) : List Piece → List (List Nat × String)
  | [] => [([], "")]
  | .char c :: rest =>
    (spellings alternatives rest).map fun later => (later.1, String.singleton c ++ later.2)
  | .token body :: rest => (spellings alternatives rest).flatMap fun later =>
    (alternatives body).zipIdx.map fun picked => (picked.2 :: later.1, picked.1 ++ later.2)

theorem mem_spellings :
    (picks, text) ∈ spellings alternatives ps ↔ Spells alternatives ps picks text := by
  induction ps generalizing picks text with
  | nil =>
    simp only [spellings, List.mem_singleton, Prod.mk.injEq]
    refine ⟨fun ⟨hpicks, htext⟩ => hpicks ▸ htext ▸ .nil, fun h => ?_⟩
    cases h
    exact ⟨rfl, rfl⟩
  | cons p rest ih =>
    cases p with
    | char c =>
      simp only [spellings, List.mem_map, Prod.exists, Prod.mk.injEq]
      constructor
      · rintro ⟨later, tail, hlater, rfl, rfl⟩
        exact .char (ih.mp hlater)
      · rintro (_ | ⟨hrest⟩)
        exact ⟨_, _, ih.mpr hrest, rfl, rfl⟩
    | token body =>
      simp only [spellings, List.mem_flatMap, List.mem_map, Prod.exists, Prod.mk.injEq,
        List.mem_zipIdx_iff_getElem?]
      constructor
      · rintro ⟨later, tail, hlater, item, pick, hpick, rfl, rfl⟩
        exact .token hpick (ih.mp hlater)
      · rintro (_ | _ | ⟨hpick, hrest⟩)
        exact ⟨_, _, ih.mpr hrest, _, _, hpick, rfl, rfl⟩

/-- No choice comes twice. -/
theorem spellings_pairwise (alternatives : List Char → List String) (ps : List Piece) :
    (spellings alternatives ps).Pairwise fun a b => Before a.1 b.1 := by
  induction ps with
  | nil => exact List.pairwise_singleton ..
  | cons p rest ih =>
    cases p with
    | char c => exact List.pairwise_map.mpr ih
    | token body =>
      refine List.pairwise_flatMap.mpr ⟨fun later _ => ?_, ih.imp fun hbefore a ha b hb => ?_⟩
      · have hplaces : (alternatives body).zipIdx.Pairwise fun a b => a.2 < b.2 :=
          List.pairwise_map.mp (by rw [List.zipIdx_map_snd]; exact List.pairwise_lt_range')
        exact List.pairwise_map.mpr (hplaces.imp .here)
      · obtain ⟨_, -, rfl⟩ := List.mem_map.mp ha
        obtain ⟨_, -, rfl⟩ := List.mem_map.mp hb
        exact .later hbefore

/-- The texts alone: each alternative in front of each text of what follows. -/
theorem texts_token (alternatives : List Char → List String) (body : List Char) (ps : List Piece) :
    (spellings alternatives (.token body :: ps)).map Prod.snd =
      ((spellings alternatives ps).map Prod.snd).flatMap fun text =>
        (alternatives body).map (· ++ text) := by
  rw [spellings, List.map_flatMap, List.flatMap_map]
  refine List.flatMap_congr fun later _ => ?_
  calc ((alternatives body).zipIdx.map _).map Prod.snd
    _ = ((alternatives body).zipIdx.map Prod.fst).map (· ++ later.2) := by
        simp only [List.map_map, Function.comp_def]
    _ = (alternatives body).map (· ++ later.2) := by rw [List.zipIdx_map_fst]

theorem length_spellings (h : ∀ body, .token body ∈ ps → (alternatives body).length = 1) :
    (spellings alternatives ps).length = 1 := by
  induction ps with
  | nil => rfl
  | cons p rest ih =>
    have hrest := ih fun body hbody => h body (List.mem_cons_of_mem _ hbody)
    cases p with
    | char c => rw [spellings, List.length_map, hrest]
    | token body =>
      obtain ⟨later, hlater⟩ := List.length_eq_one_iff.mp hrest
      rw [spellings, hlater, List.flatMap_singleton, List.length_map, List.length_zipIdx,
        h body List.mem_cons_self]

end
end Reference

namespace Environment

open Reference (Span splice? spans size)

/-- How far a text is filled: the texts that have come out, and whether a list was put in. -/
structure Spliced where
  texts : List String
  fannedOut : Bool

/-- Puts each of some items in the place of a span, in each of the texts. -/
def Spliced.fill (state : Spliced) (span : Span) (items : List String) : Option Spliced := do
  let filled ← state.texts.mapM fun text => items.mapM (splice? span text)
  return { state with texts := filled.flatten }

/-- Fills one token, unless it has to wait. -/
def spliceSpan (env : Environment) (final : Bool) (state : Spliced) (span : Span) :
    Option Spliced :=
  match env.get? (Reference.nameOf span.body) with
  | none | some .null => if final then state.fill span [""] else some state
  | some (.list items) =>
    { state with fannedOut := true }.fill span (items.filterMap Value.scalarText?)
  | some (.map _) => some state
  | some v => state.fill span v.scalarText?.toList

/-- Resolves a text in place, from its last token to its first. There is no result if a text is cut
at an offset where it has no character boundary. -/
def spliceText (env : Environment) (final : Bool) (text : String) : Option Value := do
  let found := spans 0 (Reference.pieces text.toList)
  let state ← found.reverse.foldlM (env.spliceSpan final) ⟨[text], false⟩
  return if state.fannedOut then .ofStrings state.texts else .str (state.texts.headD "")

section
variable {env : Environment} {final : Bool}

theorem spliceSpan_eq (state : Spliced) (span : Span) :
    env.spliceSpan final state span = match env.filling final span.body with
      | .keep => some state
      | .one text => state.fill span [String.ofList text]
      | .each texts => { state with fannedOut := true }.fill span (texts.map String.ofList) := by
  unfold spliceSpan filling
  cases env.get? (Reference.nameOf span.body) with
  | none => cases final <;> rfl
  | some v =>
    cases v with
    | null => cases final <;> rfl
    | list items => simp [List.map_filterMap, Function.comp_def]
    | _ => simp [Value.scalarText?]

theorem mapM_eq_some {α β : Type} {f : α → Option β} {g : α → β} {l : List α}
    (h : ∀ a ∈ l, f a = some (g a)) : l.mapM f = some (l.map g) := by
  induction l with
  | nil => rfl
  | cons a l ih =>
    rw [List.mapM_cons, h a List.mem_cons_self, ih fun b hb => h b (List.mem_cons_of_mem _ hb)]
    rfl

/-- Filling a token of texts that agree up to its end. -/
theorem fill_token (front body : List Char) (tails items : List (List Char)) (fannedOut : Bool) :
    Spliced.fill ⟨tails.map fun tail => String.ofList (front ++ ((Piece.token body).chars ++ tail)),
        fannedOut⟩ (.behind front body) (items.map String.ofList) =
      some ⟨(tails.flatMap fun tail => items.map (· ++ tail)).map fun text =>
        String.ofList (front ++ text), fannedOut⟩ := by
  have hfilled : ((tails.map fun tail =>
        String.ofList (front ++ ((Piece.token body).chars ++ tail))).mapM fun text =>
          (items.map String.ofList).mapM (splice? (.behind front body) text)) =
      some (tails.map fun tail => items.map fun item =>
        String.ofList (front ++ (item ++ tail))) := by
    rw [List.mapM_map]
    refine mapM_eq_some fun tail _ => ?_
    rw [Function.comp_apply, List.mapM_map]
    refine mapM_eq_some fun item _ => ?_
    rw [Function.comp_apply, Reference.splice?_token, String.append_assoc,
      ← String.ofList_append, ← String.ofList_append]
  rw [Spliced.fill, hfilled]
  simp [List.flatMap_def, List.map_flatten, Function.comp_def]

theorem spliceSpan_token (front body : List Char) (tails : List (List Char)) (fannedOut : Bool) :
    env.spliceSpan final
        ⟨tails.map fun tail => String.ofList (front ++ ((Piece.token body).chars ++ tail)),
          fannedOut⟩ (.behind front body) =
      some ⟨(tails.flatMap fun tail => ((env.filling final body).choices body).map (· ++ tail)).map
        fun text => String.ofList (front ++ text),
        (env.filling final body).fansOut || fannedOut⟩ := by
  rw [spliceSpan_eq, Span.behind]
  cases env.filling final body with
  | keep =>
    simp only [Filling.choices, Filling.fansOut, List.map_cons, List.map_nil,
      ← List.map_eq_flatMap, List.map_map, Bool.false_or]
    rfl
  | one text => exact fill_token front body tails [text] fannedOut
  | each texts => exact fill_token front body tails texts true

/-- The tokens of the last pieces of a text are filled, and what stands before them is as it was. -/
theorem splice_pieces (env : Environment) (final : Bool) (front : List Char) (ps : List Piece) :
    (spans (size front) ps).reverse.foldlM (env.spliceSpan final)
        ⟨[String.ofList (front ++ Reference.join ps)], false⟩ =
      some ⟨(expand (env.filling final) ps).map fun text => String.ofList (front ++ text),
        fansOut (env.filling final) ps⟩ := by
  induction ps generalizing front with
  | nil => rfl
  | cons p rest ih =>
    have hrest := ih (front ++ p.chars)
    have hjoin : front ++ Reference.join (p :: rest) = front ++ p.chars ++ Reference.join rest := by
      simp [Reference.join]
    rw [hjoin]
    rw [Reference.size_append] at hrest
    cases p with
    | char c =>
      refine hrest.trans ?_
      simp [expand, fansOut, Piece.chars, Function.comp_def]
    | token body =>
      simp only [List.append_assoc] at hrest ⊢
      -- The spans come from the right, so the first token is filled last.
      rw [spans, List.reverse_cons, List.foldlM_append, hrest]
      simp only [Option.bind_eq_bind, Option.bind_some, List.foldlM_cons, List.foldlM_nil,
        bind_pure]
      exact spliceSpan_token ..

/-- The in-place result. -/
theorem spliceText_eq (text : String) :
    env.spliceText final text = some (env.resolveText final text) := by
  have hall := splice_pieces env final [] (Reference.pieces text.toList)
  rw [Reference.join_pieces, List.nil_append, String.ofList_toList] at hall
  have hzero : size [] = 0 := rfl
  rw [hzero] at hall
  rw [spliceText]
  simp only [hall, Option.bind_eq_bind, Option.bind_some]
  rw [resolveText, substitute]
  cases expand (env.filling final) (Reference.pieces text.toList) <;> rfl

/-! ### What comes out -/

/-- The texts that can stand in the place of a token: the token itself if it has to wait. -/
def alternatives (env : Environment) (final : Bool) (body : List Char) : List String :=
  match env.get? (Reference.nameOf body) with
  | none | some .null => [if final then "" else String.ofList (Piece.token body).chars]
  | some (.map _) => [String.ofList (Piece.token body).chars]
  | some (.list items) => items.filterMap Value.scalarText?
  | some v => v.scalarText?.toList

/-- Some token of the pieces is bound to a list. -/
def BindsList (env : Environment) (ps : List Piece) : Prop :=
  ∃ body items, .token body ∈ ps ∧ env.get? (Reference.nameOf body) = some (.list items)

theorem alternatives_eq (env : Environment) (final : Bool) (body : List Char) :
    env.alternatives final body = ((env.filling final body).choices body).map String.ofList := by
  unfold alternatives filling
  cases env.get? (Reference.nameOf body) with
  | none => cases final <;> rfl
  | some v =>
    cases v with
    | null => cases final <;> rfl
    | list items => simp [Filling.choices, List.map_filterMap, Function.comp_def]
    | _ => simp [Value.scalarText?, Filling.choices]

theorem fansOut_filling_iff {body : List Char} : (env.filling final body).fansOut = true ↔
    ∃ items, env.get? (Reference.nameOf body) = some (.list items) := by
  unfold filling
  cases env.get? (Reference.nameOf body) with
  | none => cases final <;> simp [Filling.fansOut]
  | some v => cases v <;> cases final <;> simp [Filling.fansOut, Value.scalarText?]

theorem fansOut_iff_bindsList {ps : List Piece} :
    fansOut (env.filling final) ps = true ↔ env.BindsList ps := by
  rw [fansOut, List.any_eq_true]
  constructor
  · rintro ⟨p, hp, hfans⟩
    cases p with
    | char c => cases hfans
    | token body =>
      obtain ⟨items, hitems⟩ := fansOut_filling_iff.mp hfans
      exact ⟨body, items, hp, hitems⟩
  · rintro ⟨body, items, hbody, hitems⟩
    exact ⟨_, hbody, fansOut_filling_iff.mpr ⟨items, hitems⟩⟩

theorem length_choices {fill : Filling} (body : List Char) (h : fill.fansOut = false) :
    (fill.choices body).length = 1 := by
  cases fill with
  | each texts => cases h
  | _ => rfl

theorem expand_eq_spellings (env : Environment) (final : Bool) (ps : List Piece) :
    (expand (env.filling final) ps).map String.ofList =
      (Reference.spellings (env.alternatives final) ps).map Prod.snd := by
  induction ps with
  | nil => rfl
  | cons p rest ih =>
    cases p with
    | char c =>
      rw [expand, Reference.spellings, List.map_map, List.map_map]
      calc (expand (env.filling final) rest).map (String.ofList ∘ (c :: ·))
        _ = ((expand (env.filling final) rest).map String.ofList).map
            (String.singleton c ++ ·) := by
          rw [List.map_map]
          exact List.map_congr_left fun text _ => String.ofList_cons
        _ = _ := by rw [ih, List.map_map]; rfl
    | token body =>
      rw [expand, Reference.texts_token, ← ih, List.map_flatMap, List.flatMap_map, alternatives_eq]
      refine List.flatMap_congr fun text _ => ?_
      rw [List.map_map, List.map_map]
      exact List.map_congr_left fun item _ => String.ofList_append

/-- Without a list there is one choice. -/
theorem length_spellings_single (final : Bool) {ps : List Piece} (h : ¬ env.BindsList ps) :
    (Reference.spellings (env.alternatives final) ps).length = 1 := by
  refine Reference.length_spellings fun body hbody => ?_
  rw [alternatives_eq, List.length_map]
  refine length_choices body (Bool.eq_false_iff.mpr fun hfans => h ?_)
  obtain ⟨items, hitems⟩ := fansOut_filling_iff.mp hfans
  exact ⟨body, items, hbody, hitems⟩

/-- Filling a text in place never cuts it outside its characters, and what comes out is spelled by
the choices of alternatives for the tokens of its one cut: a list of one text for each choice, the
leftmost token varying fastest, if a token is bound to a list, and else the text of the only
choice. -/
theorem resolveText_spells (env : Environment) (final : Bool) (text : String) :
    env.spliceText final text = some (env.resolveText final text) ∧
      ∃ ps spelled, (∀ other, Reference.Cut text.toList other ↔ other = ps) ∧
        (∀ picks s, (picks, s) ∈ spelled ↔ Reference.Spells (env.alternatives final) ps picks s) ∧
        (spelled.Pairwise fun a b => Reference.Before a.1 b.1) ∧
        (env.BindsList ps ∧ env.resolveText final text = .ofStrings (spelled.map Prod.snd) ∨
          ¬ env.BindsList ps ∧ ∃ picks s, spelled = [(picks, s)] ∧
            env.resolveText final text = .str s) := by
  refine ⟨spliceText_eq text, Reference.pieces text.toList, _, fun _ => Reference.cut_iff,
    fun _ _ => Reference.mem_spellings, Reference.spellings_pairwise .., ?_⟩
  rw [resolveText, substitute]
  by_cases hlist : env.BindsList (Reference.pieces text.toList)
  · rw [if_pos (fansOut_iff_bindsList.mpr hlist), expand_eq_spellings]
    exact Or.inl ⟨hlist, rfl⟩
  · obtain ⟨⟨picks, s⟩, hspelled⟩ := List.length_eq_one_iff.mp (length_spellings_single final hlist)
    have htexts := expand_eq_spellings env final (Reference.pieces text.toList)
    rw [hspelled] at htexts
    obtain ⟨t, ht, rfl⟩ := List.map_eq_singleton_iff.mp htexts
    rw [if_neg (mt fansOut_iff_bindsList.mp hlist), ht]
    exact Or.inr ⟨hlist, picks, _, hspelled, rfl⟩

/-- Two lists behind a character of two bytes. -/
example : spliceText
    ⟨⟨[("a", .list [.str "1", .str "2"]), ("b", .list [.str "x", .str "$\x7ba\x7d"])]⟩⟩ false
      "é$\x7ba\x7d$\x7bb?\x7d" =
      some (.ofStrings ["é1x", "é2x", "é1$\x7ba\x7d", "é2$\x7ba\x7d"]) := by
  decide +kernel

end
end Environment
end Toolflow
