import Mathlib.Logic.Relation
import Toolflow.Proofs.Settling
import Toolflow.Proofs.Splicing
import Toolflow.Proofs.WrittenOverrides

/-! Resolution in a settled environment.

A text is well formed if its braces stand in its tokens only. Two well-formed texts put together
have the tokens of both and no others, as a token over the seam would need an open brace outside
the tokens of one of them. So the tokens of a resolved text are those that had to wait and those
that bindings have brought in; and a settled binding brings in only tokens that have to wait. -/
namespace Toolflow

namespace Reference

/-- All braces of a text stand in its tokens. -/
def WellFormed (s : List Char) : Prop := .char '{' ∉ pieces s ∧ .char '}' ∉ pieces s

instance (s : List Char) : Decidable (WellFormed s) :=
  inferInstanceAs (Decidable (_ ∧ _))

section
variable {s t : List Char} {body : List Char}

/-- No token begins with an open brace. -/
theorem open_mem_pieces (rest : List Char) : .char '{' ∈ pieces ('{' :: rest) := by
  rw [pieces, tokenBody?_of_ne rest (by decide)]
  exact List.mem_cons_self

/-- A cut goes on past the end of a text without open braces outside its tokens. -/
theorem Cut.append {ps : List Piece} (h : Cut s ps) (hs : .char '{' ∉ ps)
    (ht : .char '{' ∉ pieces t) : Cut (s ++ t) (ps ++ pieces t) := by
  induction h with
  | nil => exact cut_pieces t
  | @token body rest ps inside _ ih =>
    rw [List.append_assoc]
    exact .token inside (ih fun hmem => hs (List.mem_cons_of_mem _ hmem))
  | @char c rest ps plain hcut ih =>
    have hrest : .char '{' ∉ ps := fun hmem => hs (List.mem_cons_of_mem _ hmem)
    refine .char (fun body after inside heq => ?_) (ih hrest)
    rw [token_append, ← List.cons_append] at heq
    -- The open brace of the token is the first character of what follows the dollar.
    cases rest with
    | nil =>
      obtain ⟨-, rfl⟩ := List.cons.inj heq
      exact ht (open_mem_pieces _)
    | cons d rest =>
      obtain ⟨-, htail⟩ := List.cons.inj heq
      obtain ⟨rfl, -⟩ := List.cons.inj htail
      exact hrest (hcut.eq_pieces ▸ open_mem_pieces rest)

/-- No token forms at the seam of two well-formed texts. -/
theorem pieces_append (hs : WellFormed s) (ht : WellFormed t) :
    pieces (s ++ t) = pieces s ++ pieces t :=
  ((cut_pieces s).append hs.1 ht.1).eq_pieces.symm

theorem pieces_of_plain (h : ∀ c ∈ s, isBodyChar c = true) : pieces s = s.map .char := by
  have hpieces := pieces_append_of_plain s [] fun c hc => ne_dollar_of_isBodyChar (h c hc)
  rwa [List.append_nil, pieces, List.append_nil] at hpieces

/-- A text without dollars and braces has no tokens. -/
theorem token_notMem_of_plain (h : ∀ c ∈ s, isBodyChar c = true) : .token body ∉ pieces s := by
  rw [pieces_of_plain h]
  simp

theorem isBodyChar_of_isDigit {c : Char} (h : c.isDigit = true) : isBodyChar c = true := by
  have hne : ∀ d : Char, d.isDigit = false → c ≠ d := by
    rintro d hd rfl
    rw [h] at hd
    cases hd
  simp [isBodyChar, hne '$' rfl, hne '{' rfl, hne '}' rfl]

theorem plain_toDigits (n : Nat) : ∀ c ∈ Nat.toDigits 10 n, isBodyChar c = true := fun _ hc =>
  isBodyChar_of_isDigit (Nat.isDigit_of_mem_toDigits (by decide) (by decide) hc)

theorem inside_of_mem_pieces (h : .token body ∈ pieces s) : ∀ c ∈ body, isBodyChar c = true := by
  have hcut := cut_pieces s
  generalize pieces s = ps at h hcut
  induction hcut with
  | nil => cases h
  | token inside _ ih =>
    rcases List.mem_cons.mp h with heq | h
    · cases heq
      exact inside
    · exact ih h
  | char _ _ ih => exact ih ((List.mem_cons.mp h).resolve_left (by simp))

/-- A well-formed text all of whose tokens have a property. -/
structure Carries (p : List Char → Prop) (s : List Char) : Prop where
  wellFormed : WellFormed s
  tokens : ∀ body, .token body ∈ pieces s → p body

variable {p : List Char → Prop}

theorem carries_of_plain (h : ∀ c ∈ s, isBodyChar c = true) : Carries p s := by
  have hbrace : ∀ c, .char c ∈ pieces s → isBodyChar c = true := by
    intro c hc
    rw [pieces_of_plain h] at hc
    obtain ⟨d, hd, heq⟩ := List.mem_map.mp hc
    cases heq
    exact h c hd
  exact ⟨⟨fun hmem => absurd (hbrace _ hmem) (by decide),
    fun hmem => absurd (hbrace _ hmem) (by decide)⟩,
    fun body hbody => absurd hbody (token_notMem_of_plain h)⟩

theorem carries_singleton {c : Char} (hopen : c ≠ '{') (hclose : c ≠ '}') : Carries p [c] := by
  have hpieces : pieces [c] = [.char c] := by simp [pieces, tokenBody?]
  refine ⟨?_, fun body hbody => ?_⟩
  · simp [WellFormed, hpieces, hopen.symm, hclose.symm]
  · simp [hpieces] at hbody

theorem carries_token (inside : ∀ c ∈ body, isBodyChar c = true) (h : p body) :
    Carries p (Piece.token body).chars := by
  have hpieces : pieces (Piece.token body).chars = [.token body] := by
    have htoken := pieces_token body [] inside
    rwa [← token_append, List.append_nil] at htoken
  refine ⟨?_, fun other hother => ?_⟩
  · simp [WellFormed, hpieces]
  · rw [hpieces] at hother
    cases List.mem_singleton.mp hother
    exact h

theorem Carries.append (hs : Carries p s) (ht : Carries p t) : Carries p (s ++ t) := by
  have hpieces := pieces_append hs.wellFormed ht.wellFormed
  constructor
  · rw [WellFormed, hpieces]
    simp only [List.mem_append, not_or]
    exact ⟨⟨hs.wellFormed.1, ht.wellFormed.1⟩, hs.wellFormed.2, ht.wellFormed.2⟩
  · intro body hbody
    rw [hpieces] at hbody
    exact (List.mem_append.mp hbody).elim (hs.tokens body) (ht.tokens body)

/-- The pieces of a well-formed text become texts that carry what fills their tokens. -/
theorem carries_of_mem_expand {fill : List Char → Filling} {ps : List Piece}
    (plain : .char '{' ∉ ps ∧ .char '}' ∉ ps)
    (filled : ∀ body, .token body ∈ ps → ∀ c ∈ (fill body).choices body, Carries p c)
    (ht : t ∈ Environment.expand fill ps) : Carries p t := by
  induction ps generalizing t with
  | nil =>
    cases List.mem_singleton.mp ht
    exact carries_of_plain (List.forall_mem_nil _)
  | cons piece rest ih =>
    have hrest : ∀ t ∈ Environment.expand fill rest, Carries p t := fun t ht =>
      ih ⟨fun hmem => plain.1 (List.mem_cons_of_mem _ hmem),
        fun hmem => plain.2 (List.mem_cons_of_mem _ hmem)⟩
        (fun body hbody => filled body (List.mem_cons_of_mem _ hbody)) ht
    cases piece with
    | char c =>
      obtain ⟨tail, htail, rfl⟩ := List.mem_map.mp ht
      have hc : Carries p [c] := carries_singleton
        (fun heq => plain.1 (heq ▸ List.mem_cons_self))
        (fun heq => plain.2 (heq ▸ List.mem_cons_self))
      exact hc.append (hrest tail htail)
    | token body =>
      obtain ⟨tail, htail, hmem⟩ := List.mem_flatMap.mp ht
      obtain ⟨item, hitem, rfl⟩ := List.mem_map.mp hmem
      exact (filled body List.mem_cons_self item hitem).append (hrest tail htail)

end
end Reference

/-! ### Values -/

namespace Double

open Reference (isBodyChar plain_toDigits)

theorem plain_positional (n : Nat) (place : Int) :
    ∀ c ∈ positional n place, isBodyChar c = true := by
  have hdigits := plain_toDigits n
  have hzeros : ∀ k : Nat, ∀ c ∈ List.replicate k '0', isBodyChar c = true := fun k c hc =>
    List.eq_of_mem_replicate hc ▸ rfl
  unfold positional
  dsimp only
  split
  · exact List.forall_mem_append.mpr ⟨hdigits, hzeros _⟩
  · split
    · exact List.forall_mem_append.mpr ⟨fun c hc => hdigits c (List.mem_of_mem_take hc),
        List.forall_mem_cons.mpr ⟨rfl, fun c hc => hdigits c (List.mem_of_mem_drop hc)⟩⟩
    · exact List.forall_mem_cons.mpr ⟨rfl, List.forall_mem_cons.mpr
        ⟨rfl, List.forall_mem_append.mpr ⟨hzeros _, hdigits⟩⟩⟩

theorem plain_text (x : Double) : ∀ c ∈ x.text.toList, isBodyChar c = true := by
  cases x with
  | nan => exact List.all_eq_true.mp (by decide)
  | infinite negative => cases negative <;> exact List.all_eq_true.mp (by decide)
  | finite negative m q =>
    have hsigned : ∀ body : List Char, (∀ c ∈ body, isBodyChar c = true) →
        ∀ c ∈ (if negative then '-' :: body else body), isBodyChar c = true := by
      intro body hbody
      cases negative with
      | false => exact hbody
      | true => exact List.forall_mem_cons.mpr ⟨rfl, hbody⟩
    rw [text, String.toList_ofList]
    refine hsigned _ ?_
    split
    · exact List.forall_mem_singleton.mpr rfl
    · split
      · exact plain_positional _ _
      · exact List.forall_mem_singleton.mpr rfl

end Double

namespace Value

/-- All strings of a value are well formed. -/
def WellFormed (v : Value) : Prop := ∀ s ∈ v.strings, Reference.WellFormed s.toList

/-- A token stands in a string of a value. -/
def Mentions (v : Value) (body : List Char) : Prop :=
  ∃ s ∈ v.strings, .token body ∈ Reference.pieces s.toList

instance (v : Value) : Decidable v.WellFormed :=
  inferInstanceAs (Decidable (∀ s ∈ v.strings, Reference.WellFormed s.toList))

instance (v : Value) (body : List Char) : Decidable (v.Mentions body) :=
  inferInstanceAs (Decidable (∃ s ∈ v.strings, Piece.token body ∈ Reference.pieces s.toList))

/-- The texts that the binding of a name brings into a text. -/
def spliced : Value → List String
  | .list items => items.filterMap scalarText?
  | v => v.scalarText?.toList

/-- Numbers and truth values are written without dollars and braces. -/
theorem plain_scalarText {v : Value} {text : String} (h : v.scalarText? = some text) :
    v = .str text ∨ ∀ c ∈ text.toList, Reference.isBodyChar c = true := by
  cases v with
  | str s => exact Or.inl (congrArg Value.str (Option.some.inj h))
  | bool b =>
    cases h
    cases b <;> exact Or.inr (List.all_eq_true.mp (by decide))
  | int n =>
    cases h
    refine Or.inr ?_
    cases n with
    | ofNat n =>
      rw [Integer.toList_ofNat]
      exact Reference.plain_toDigits n
    | negSucc n =>
      rw [Integer.toList_negSucc]
      exact List.forall_mem_cons.mpr ⟨rfl, Reference.plain_toDigits _⟩
  | float x =>
    cases h
    exact Or.inr x.plain_text
  | null | list _ | map _ => cases h

theorem mem_itemStrings {items : List Value} {v : Value} {s : String} (hv : v ∈ items)
    (hs : s ∈ v.strings) : s ∈ itemStrings items := by
  induction items with
  | nil => cases hv
  | cons w rest ih =>
    rw [itemStrings, List.mem_append]
    rcases List.mem_cons.mp hv with rfl | hv
    · exact Or.inl hs
    · exact Or.inr (ih hv)

/-- What a value brings into a text is one of its strings or has no tokens and braces. -/
theorem spliced_spec {v : Value} {text : String} (h : text ∈ v.spliced) :
    text ∈ v.strings ∨ ∀ c ∈ text.toList, Reference.isBodyChar c = true := by
  have hscalar : ∀ w : Value, w.scalarText? = some text →
      text ∈ w.strings ∨ ∀ c ∈ text.toList, Reference.isBodyChar c = true := by
    intro w hw
    rcases plain_scalarText hw with rfl | hplain
    · exact Or.inl (List.mem_singleton_self _)
    · exact Or.inr hplain
  cases v with
  | list items =>
    obtain ⟨w, hw, htext⟩ := List.mem_filterMap.mp h
    exact (hscalar w htext).imp_left (mem_itemStrings hw)
  | _ => exact hscalar _ (Option.mem_toList.mp h)

mutual
/-- The strings of a value that a function has gone through. -/
theorem strings_mapStrings (f : String → Value) (v : Value) :
    (v.mapStrings f).strings = v.strings.flatMap fun s => (f s).strings := by
  cases v with
  | str s => simp [mapStrings, strings]
  | list items =>
    simp only [mapStrings, strings]
    exact itemStrings_mapItems f items
  | map t =>
    obtain ⟨entries⟩ := t
    simp only [mapStrings, strings]
    exact entryStrings_mapEntries f entries
  | _ => rfl

theorem itemStrings_mapItems (f : String → Value) (items : List Value) :
    itemStrings (mapItems f items) = (itemStrings items).flatMap fun s => (f s).strings := by
  cases items with
  | nil => rfl
  | cons v rest =>
    rw [mapItems, itemStrings, itemStrings, strings_mapStrings f v, itemStrings_mapItems f rest,
      List.flatMap_append]

theorem entryStrings_mapEntries (f : String → Value) (entries : List (String × Value)) :
    entryStrings (mapEntries f entries) =
      (entryStrings entries).flatMap fun s => (f s).strings := by
  cases entries with
  | nil => rfl
  | cons e rest =>
    obtain ⟨k, v⟩ := e
    rw [mapEntries, entryStrings, entryStrings, strings_mapStrings f v,
      entryStrings_mapEntries f rest, List.flatMap_append]
end

theorem strings_ofStrings (texts : List String) : (ofStrings texts).strings = texts := by
  rw [ofStrings, strings]
  induction texts with
  | nil => rfl
  | cons text rest ih => rw [List.map_cons, itemStrings, ih, strings, List.singleton_append]

end Value

/-! ### Resolution -/

namespace Environment

open Reference (pieces)

/-- A token that resolving a value leaves: it has had to wait, or the binding of another one has
brought it in. -/
inductive Leaves (env : Environment) (final : Bool) (v : Value) : List Char → Prop
  | waits {body : List Char} (mentioned : v.Mentions body)
      (kept : env.filling final body = .keep) : Leaves env final v body
  | brought {source body : List Char} {bound : Value} {text : String}
      (mentioned : v.Mentions source) (found : env.get? (Reference.nameOf source) = some bound)
      (spliced : text ∈ bound.spliced) (inside : .token body ∈ pieces text.toList) :
      Leaves env final v body

section
variable {env after : Environment} {final : Bool} {v : Value}

/-- A token waits, or it is dropped, or the binding of its name gives what can stand there. -/
theorem choices_filling (env : Environment) (final : Bool) (body : List Char) :
    env.filling final body = .keep ∨ (env.filling final body).choices body = [[]] ∨
      ∃ bound, env.get? (Reference.nameOf body) = some bound ∧
        (env.filling final body).choices body = bound.spliced.map String.toList := by
  unfold filling
  cases env.get? (Reference.nameOf body) with
  | none =>
    cases final with
    | false => exact Or.inl rfl
    | true => exact Or.inr (Or.inl rfl)
  | some bound =>
    cases bound with
    | null =>
      cases final with
      | false => exact Or.inl rfl
      | true => exact Or.inr (Or.inl rfl)
    | map fields => exact Or.inl rfl
    | list items =>
      refine Or.inr (Or.inr ⟨_, rfl, ?_⟩)
      rw [Value.spliced, List.map_filterMap]
      rfl
    | _ => exact Or.inr (Or.inr ⟨_, rfl, rfl⟩)

theorem mem_strings_resolveText {text s : String}
    (h : s ∈ (env.resolveText final text).strings) :
    s.toList = [] ∨ s.toList ∈ expand (env.filling final) (pieces text.toList) := by
  rw [resolveText, substitute] at h
  split at h
  · rw [Value.strings_ofStrings] at h
    obtain ⟨t, ht, rfl⟩ := List.mem_map.mp h
    rw [String.toList_ofList]
    exact Or.inr ht
  · cases List.mem_singleton.mp h
    rw [String.toList_ofList]
    cases expand (env.filling final) (pieces text.toList) with
    | nil => exact Or.inl rfl
    | cons t rest => exact Or.inr List.mem_cons_self

theorem resolveText_leaves {text s : String} (wellFormed : v.WellFormed) (htext : text ∈ v.strings)
    (found : ∀ source, v.Mentions source → ∀ bound,
      env.get? (Reference.nameOf source) = some bound → bound.WellFormed)
    (h : s ∈ (env.resolveText final text).strings) :
    Reference.Carries (env.Leaves final v) s.toList := by
  have hempty : Reference.Carries (env.Leaves final v) [] :=
    Reference.carries_of_plain (List.forall_mem_nil _)
  have hfilled : ∀ source, .token source ∈ pieces text.toList →
      ∀ c ∈ (env.filling final source).choices source,
        Reference.Carries (env.Leaves final v) c := by
    intro source hsource c hc
    have mentioned : v.Mentions source := ⟨text, htext, hsource⟩
    rcases choices_filling env final source with kept | hdropped | ⟨bound, hbound, hspliced⟩
    · rw [kept] at hc
      cases List.mem_singleton.mp hc
      exact Reference.carries_token (Reference.inside_of_mem_pieces hsource)
        (.waits mentioned kept)
    · rw [hdropped] at hc
      cases List.mem_singleton.mp hc
      exact hempty
    · rw [hspliced] at hc
      obtain ⟨t, ht, rfl⟩ := List.mem_map.mp hc
      rcases Value.spliced_spec ht with hstring | hplain
      · exact ⟨found source mentioned bound hbound t hstring,
          fun body hbody => .brought mentioned hbound ht hbody⟩
      · exact Reference.carries_of_plain hplain
  rcases mem_strings_resolveText h with hnil | hmem
  · rwa [hnil]
  · exact Reference.carries_of_mem_expand (wellFormed text htext) hfilled hmem

/-- Resolving keeps values well formed and makes no tokens of its own. -/
theorem mapStrings_leaves (final : Bool) (wellFormed : v.WellFormed)
    (found : ∀ source, v.Mentions source → ∀ bound,
      env.get? (Reference.nameOf source) = some bound → bound.WellFormed) :
    (v.mapStrings (env.resolveText final)).WellFormed ∧
      ∀ body, (v.mapStrings (env.resolveText final)).Mentions body → env.Leaves final v body := by
  have hcarries : ∀ s ∈ (v.mapStrings (env.resolveText final)).strings,
      Reference.Carries (env.Leaves final v) s.toList := by
    intro s hs
    rw [Value.strings_mapStrings] at hs
    obtain ⟨text, htext, hs⟩ := List.mem_flatMap.mp hs
    exact resolveText_leaves wellFormed htext found hs
  exact ⟨fun s hs => (hcarries s hs).wellFormed,
    fun body ⟨s, hs, hbody⟩ => (hcarries s hs).tokens body hbody⟩

theorem mem_namesIn_iff {name : String} :
    name ∈ Reference.namesIn v ↔ ∃ body, v.Mentions body ∧ Reference.nameOf body = name := by
  constructor
  · intro h
    obtain ⟨s, hs, hname⟩ := List.mem_flatMap.mp h
    obtain ⟨p, hp, heq⟩ := List.mem_filterMap.mp hname
    cases p with
    | char c => cases heq
    | token body => exact ⟨body, ⟨s, hs, hp⟩, Option.some.inj heq⟩
  · rintro ⟨body, ⟨s, hs, hbody⟩, rfl⟩
    exact Reference.mem_namesIn hs (Reference.mem_names hbody)

/-- A value whose tokens all have to wait is its own resolution. -/
theorem resolve_of_textless (h : ∀ body, v.Mentions body → env.Textless (Reference.nameOf body)) :
    env.resolve v = v :=
  Value.mapStrings_eq_self fun s hs => resolveText_of_kept fun body hbody =>
    filling_eq_keep_iff.mpr (h body ⟨s, hs, hbody⟩)

/-! ### Settled bindings -/

/-- All bound values are well formed. -/
def WellFormed (env : Environment) : Prop :=
  ∀ name v, env.get? name = some v → v.WellFormed

/-- The tokens of the bound values all have to wait. -/
structure Settled (env : Environment) : Prop where
  wellFormed : env.WellFormed
  waits : ∀ name v, env.get? name = some v →
    ∀ body, v.Mentions body → env.Textless (Reference.nameOf body)

theorem mentions_of_spliced {bound : Value} {text : String} {body : List Char}
    (spliced : text ∈ bound.spliced) (inside : .token body ∈ pieces text.toList) :
    bound.Mentions body :=
  ⟨text, (Value.spliced_spec spliced).resolve_right fun plain =>
    Reference.token_notMem_of_plain plain inside, inside⟩

theorem Settled.waits_resolve (h : env.Settled) (wellFormed : v.WellFormed) {body : List Char}
    (hbody : (env.resolve v).Mentions body) : env.Textless (Reference.nameOf body) := by
  have hleaves := (mapStrings_leaves false wellFormed fun _ _ => h.wellFormed _).2 body hbody
  cases hleaves with
  | waits _ kept => exact filling_eq_keep_iff.mp kept
  | brought _ found spliced inside =>
    exact h.waits _ _ found body (mentions_of_spliced spliced inside)

theorem Evaluates.textless_iff {name : String} {w : Value} (h : env.Evaluates name w)
    (hv : env.get? name = some v) :
    (w = .null ∨ ∃ fields, w = .map fields) ↔ v = .null ∨ ∃ fields, v = .map fields := by
  obtain ⟨bound, -, -⟩ := h
  cases bound.symm.trans hv
  exact resolve_textless_iff ..

/-- What a name evaluates to mentions only names that have to wait, and of the bound ones only such
as the name depends on. -/
theorem Evaluates.mentions (wellFormed : env.WellFormed) {name : String} {w : Value}
    (h : env.Evaluates name w) : w.WellFormed ∧ ∀ body, w.Mentions body →
      env.Textless (Reference.nameOf body) ∧
        ((env.get? (Reference.nameOf body)).isSome = true →
          Relation.TransGen env.Refers name (Reference.nameOf body)) := by
  induction h with
  | @resolve name v below bound domain evaluated ih =>
    have hleaves := mapStrings_leaves false (wellFormed name v bound)
      fun source hsource b hb => (ih _ (mem_namesIn_iff.mpr ⟨_, hsource, rfl⟩) b hb).1
    refine ⟨hleaves.1, fun body hbody => ?_⟩
    cases hleaves.2 body hbody with
    | waits mentioned kept =>
      have hname := mem_namesIn_iff.mpr ⟨_, mentioned, rfl⟩
      -- Evaluating a binding does not give it a text, so the name had none before.
      refine ⟨fun u hu => ?_, fun hbound => .single ⟨v, bound, hname, hbound⟩⟩
      obtain ⟨w, hw⟩ := Option.isSome_iff_exists.mp
        ((domain _ hname).trans (Option.isSome_iff_exists.mpr ⟨u, hu⟩))
      exact ((evaluated _ hname w hw).textless_iff hu).mp (filling_eq_keep_iff.mp kept w hw)
    | @brought source _ b text mentioned found spliced inside =>
      have hname := mem_namesIn_iff.mpr ⟨_, mentioned, rfl⟩
      obtain ⟨htextless, hreaches⟩ :=
        (ih _ hname b found).2 body (mentions_of_spliced spliced inside)
      have hsource : (env.get? (Reference.nameOf source)).isSome = true := by
        rw [← domain _ hname, found]
        rfl
      exact ⟨htextless, fun hbound => .head ⟨v, bound, hname, hsource⟩ (hreaches hbound)⟩

theorem filling_final_eq_keep_iff {body : List Char} : env.filling true body = .keep ↔
    ∃ fields, env.get? (Reference.nameOf body) = some (.map fields) := by
  unfold filling
  cases env.get? (Reference.nameOf body) with
  | none => simp
  | some v => cases v <;> simp [Value.scalarText?]

theorem bindRaw_self (ascending : env.values.Ascending) {name : String}
    (h : env.get? name = some v) : env.bindRaw name v = env := by
  have hvalues : env.values.insert name v = env.values := by
    refine (ascending.insert name v).ext ascending fun other => ?_
    rw [Table.get?_insert]
    split
    · rename_i heq
      exact heq ▸ h.symm
    · rfl
  rw [bindRaw, hvalues]

/-- Bindings that are their own resolutions are settled as they are, unless they depend on each
other in a cycle. -/
theorem settle_eq_self (ascending : env.values.Ascending)
    (resolved : ∀ name v, env.get? name = some v → env.resolve v = v)
    (acyclic : ¬ ∃ name, Relation.TransGen env.Refers name name) : env.settle = .ok env := by
  have hname : ∀ name, env.settleName name = env := by
    intro name
    unfold settleName
    cases hv : env.get? name with
    | none => rfl
    | some v =>
      dsimp only
      rw [resolved name v hv, bindRaw_self ascending hv]
  have hall : ∀ order : List String, order.foldl settleName env = env := fun order =>
    List.foldl_fixed' hname order
  rcases settlingOrder_spec ascending with ⟨order, horder, -⟩ | ⟨cycle, -, cyclic⟩
  · rw [settle, settleInPlace_run, horder]
    dsimp only
    rw [hall]
  · exact absurd cyclic.transGen acyclic

/-- Settling resolves the bindings in an order. -/
theorem orders_of_settle (ascending : env.values.Ascending) (h : env.settle = .ok after) :
    ∃ order, env.Orders order ∧ order.foldl settleName env = after := by
  rw [settle, settleInPlace_run] at h
  rcases settlingOrder_spec ascending with ⟨order, horder, orders⟩ | ⟨cycle, hcycle, -⟩
  · rw [horder] at h
    cases h
    exact ⟨order, orders, rfl⟩
  · rw [hcycle] at h
    cases h

theorem ascending_settleName (ascending : env.values.Ascending) (name : String) :
    (env.settleName name).values.Ascending := by
  unfold settleName
  split
  · exact ascending.insert name _
  · exact ascending

theorem ascending_settle (ascending : env.values.Ascending) (h : env.settle = .ok after) :
    after.values.Ascending := by
  obtain ⟨order, -, rfl⟩ := orders_of_settle ascending h
  exact List.foldlRecOn (motive := fun env => env.values.Ascending) order settleName ascending
    fun env henv name _ => ascending_settleName henv name

theorem settled_of_settle (ascending : env.values.Ascending) (wellFormed : env.WellFormed)
    (h : env.settle = .ok after) : after.Settled := by
  obtain ⟨order, orders, rfl⟩ := orders_of_settle ascending h
  refine ⟨fun name w hw => ((orders.evaluates hw).mentions wellFormed).1,
    fun name w hw body hbody u hu => ?_⟩
  obtain ⟨v, hv⟩ := Option.isSome_iff_exists.mp (orders.evaluates hu).bound
  exact ((orders.evaluates hu).textless_iff hv).mpr
    ((((orders.evaluates hw).mentions wellFormed).2 body hbody).1 v hv)

/-- The names that settled bindings depend on, they depended on before. -/
theorem acyclic_of_settle (ascending : env.values.Ascending) (wellFormed : env.WellFormed)
    (h : env.settle = .ok after) : ¬ ∃ name, Relation.TransGen after.Refers name name := by
  obtain ⟨order, orders, rfl⟩ := orders_of_settle ascending h
  rintro ⟨name, hcycle⟩
  refine orders.acyclic ⟨name, Relation.TransGen.closed ?_ name name hcycle⟩
  rintro a b ⟨w, hw, hb, hbound⟩
  obtain ⟨body, hbody, rfl⟩ := mem_namesIn_iff.mp hb
  rw [orders.settles.domain] at hbound
  exact (((orders.evaluates hw).mentions wellFormed).2 body hbody).2 hbound

/-- Settling again changes nothing in a settled environment, and neither does resolving again. The
tokens that resolving leaves are of names without a text; the final pass leaves those of tables, and
those that a binding brings in, which are not looked at again. -/
theorem settled_fixpoint (ascending : env.values.Ascending) (wellFormed : env.WellFormed)
    (h : env.settle = .ok after) :
    (∀ v : Value, v.WellFormed →
      (∀ body, (after.resolve v).Mentions body → after.Textless (Reference.nameOf body)) ∧
      after.resolve (after.resolve v) = after.resolve v ∧
      ∀ body, (after.resolveFinal v).Mentions body →
        (∃ fields, after.get? (Reference.nameOf body) = some (.map fields)) ∨
          ∃ source bound text, v.Mentions source ∧
            after.get? (Reference.nameOf source) = some bound ∧ text ∈ bound.spliced ∧
            .token body ∈ pieces text.toList) ∧
      after.settle = .ok after := by
  have settled := settled_of_settle ascending wellFormed h
  refine ⟨fun v hv => ⟨fun body => settled.waits_resolve hv,
    resolve_of_textless fun body => settled.waits_resolve hv, fun body hbody => ?_⟩, ?_⟩
  · cases (mapStrings_leaves true hv fun _ _ => settled.wellFormed _).2 body hbody with
    | waits _ kept => exact Or.inl (filling_final_eq_keep_iff.mp kept)
    | brought mentioned found spliced inside =>
      exact Or.inr ⟨_, _, _, mentioned, found, spliced, inside⟩
  · exact settle_eq_self (ascending_settle ascending h)
      (fun name v hv => resolve_of_textless (settled.waits name v hv))
      (acyclic_of_settle ascending wellFormed h)

/-- Where the `sources` are. -/
def listing : Value := .str "$\x7bpaths\x7d in $\x7bdir?\x7d"

/-- The paths of `sources` are resolved once, and the suffix that nothing binds stays in them. -/
theorem sources_settled_fixpoint : sources.values.Ascending ∧ sources.WellFormed ∧
    listing.WellFormed ∧ ∃ after, sources.settle = .ok after ∧ after.settle = .ok after ∧
      after.resolve (after.resolve listing) = after.resolve listing ∧
      (after.resolve listing).Mentions "suffix".toList ∧ after.Textless "suffix" := by
  have ascending : sources.values.Ascending := by
    unfold Table.Ascending
    decide
  have hentries : ∀ e ∈ sources.values.entries, e.2.WellFormed := by
    decide +kernel
  have wellFormed : sources.WellFormed := fun _ _ hv => hentries _ (Table.mem_of_get? hv)
  have hlisting : listing.WellFormed := by decide +kernel
  have hsettled : okAnd sources.settle (fun after =>
      (after.resolve listing).Mentions "suffix".toList) = true := by
    decide +kernel
  obtain ⟨after, hsettle, hmentions⟩ := exists_of_okAnd hsettled
  obtain ⟨hvalues, hagain⟩ := settled_fixpoint ascending wellFormed hsettle
  obtain ⟨htextless, hresolve, -⟩ := hvalues _ hlisting
  have hsuffix := of_decide_eq_true hmentions
  exact ⟨ascending, wellFormed, hlisting, after, hsettle, hagain, hresolve, hsuffix,
    htextless _ hsuffix⟩

/-- A dollar in front of a token and a binding in braces make another token. -/
example : resolve ⟨⟨[("x", .str "\x7by\x7d"), ("y", .str "z")]⟩⟩ (.str "$$\x7bx\x7d") =
    .str "$\x7by\x7d" := by
  decide +kernel

end
end Environment
end Toolflow
