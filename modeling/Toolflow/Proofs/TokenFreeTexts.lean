import Toolflow.Proofs.AbsolutePathnames
import Toolflow.Proofs.SettledResolution

/-! Texts in which no token stands.

Where a token stands is a matter of the text alone: cutting it from the left finds a token if and
only if one stands anywhere. A token that begins somewhere is closed by the first character that no
token body may hold. A separator is none of these, and neither is a dot, so a text has no token if
and only if the components of the text taken as a pathname have none together. -/
namespace Toolflow

namespace Reference
variable {s t body : List Char}

/-- Nowhere in a text stands a token. -/
def TokenFree (s : List Char) : Prop :=
  ∀ front body after, (∀ c ∈ body, isBodyChar c = true) →
    s ≠ front ++ '$' :: '{' :: (body ++ '}' :: after)

theorem Cut.tokenFree {ps : List Piece} (h : Cut s ps) (free : ∀ body, .token body ∉ ps) :
    TokenFree s := by
  induction h with
  | nil =>
    intro front body after _ heq
    simp at heq
  | token _ _ _ => exact absurd List.mem_cons_self (free _)
  | char plain _ ih =>
    intro front body after inside heq
    cases front with
    | nil => exact plain body after inside (heq.trans (token_append ..).symm)
    | cons c front =>
      obtain ⟨-, hrest⟩ := List.cons.inj heq
      exact ih (fun body hmem => free body (List.mem_cons_of_mem _ hmem)) front body after inside
        hrest

/-- Cutting a text finds a token if one stands in it. -/
theorem tokenFree_iff : TokenFree s ↔ ∀ body, .token body ∉ pieces s := by
  refine ⟨fun free body hmem => ?_, (cut_pieces s).tokenFree⟩
  obtain ⟨before, behind, hpieces⟩ := List.append_of_mem hmem
  refine free (join before) body (join behind) (inside_of_mem_pieces hmem) ?_
  rw [← join_pieces s, hpieces]
  simp [join, Piece.chars]

theorem TokenFree.right (h : TokenFree (s ++ t)) : TokenFree t := fun front body after inside heq =>
  h (s ++ front) body after inside (by simp [heq])

/-! ### What closes a token -/

/-- The first character of a text that no token body may hold. -/
def stop (s : List Char) : Option Char := (s.dropWhile isBodyChar).head?

theorem stop_append (s t : List Char) : stop (s ++ t) = (stop s).or (stop t) := by
  induction s with
  | nil => rfl
  | cons c rest ih =>
    unfold stop at ih ⊢
    by_cases hc : isBodyChar c = true
    · rw [List.cons_append, List.dropWhile_cons_of_pos hc, List.dropWhile_cons_of_pos hc, ih]
    · rw [List.cons_append, List.dropWhile_cons_of_neg hc, List.dropWhile_cons_of_neg hc]
      rfl

theorem stop_of_plain (h : ∀ c ∈ s, isBodyChar c = true) : stop s = none := by
  unfold stop
  rw [List.dropWhile_eq_nil_iff.mpr h]
  rfl

theorem stop_slash (s : List Char) : stop ('/' :: s) = stop s :=
  (stop_append ['/'] s).trans
    (by rw [stop_of_plain (List.forall_mem_singleton.mpr rfl), Option.none_or])

/-- No token begins in a text and is closed there or, if nothing in the text closes it, by what
comes next. -/
def Unclosed (s : List Char) (next : Option Char) : Prop :=
  ∀ front after, s = front ++ '$' :: '{' :: after → (stop after).or next ≠ some '}'

theorem tokenFree_iff_unclosed : TokenFree s ↔ Unclosed s none := by
  constructor
  · rintro free front after rfl hstop
    rw [Option.or_none] at hstop
    obtain ⟨rest, hrest⟩ := List.head?_eq_some_iff.mp hstop
    refine free front (after.takeWhile isBodyChar) rest
      (fun c hc => List.mem_takeWhile_imp hc) ?_
    rw [← hrest, List.takeWhile_append_dropWhile]
  · rintro unclosed front body after inside rfl
    refine unclosed front (body ++ '}' :: after) rfl ?_
    rw [stop_append, stop_of_plain inside]
    rfl

/-- No token begins at the seam of two texts if the second one does not begin with a brace. -/
theorem unclosed_append {d : Char} (hd : d ≠ '{') {next : Option Char} :
    Unclosed (s ++ d :: t) next ↔
      Unclosed s ((stop (d :: t)).or next) ∧ Unclosed (d :: t) next := by
  constructor
  · intro h
    refine ⟨fun front after heq => ?_, fun front after heq => h (s ++ front) after (by simp [heq])⟩
    have hstop := h front (after ++ d :: t) (by simp [heq])
    rwa [stop_append, Option.or_assoc] at hstop
  · rintro ⟨hfirst, hsecond⟩ front after heq
    rcases List.append_eq_append_iff.mp heq with ⟨more, rfl, htail⟩ | ⟨more, rfl, htail⟩
    · exact hsecond more after htail
    · match more, htail with
      | [], htail => exact hsecond [] after htail.symm
      | [_], htail =>
        simp only [List.cons_append, List.nil_append, List.cons.injEq] at htail
        exact absurd htail.2.1.symm hd
      | _ :: _ :: rest, htail =>
        simp only [List.cons_append, List.cons.injEq] at htail
        obtain ⟨rfl, rfl, rfl⟩ := htail
        rw [stop_append, Option.or_assoc]
        exact hfirst front rest rfl

theorem unclosed_of_plain (h : ∀ c ∈ s, isBodyChar c = true) (next : Option Char) :
    Unclosed s next := by
  rintro front after rfl
  exact absurd (h '$' (by simp)) (by decide)

theorem unclosed_slash {next : Option Char} : Unclosed ('/' :: s) next ↔ Unclosed s next := by
  constructor
  · exact fun h front after heq => h ('/' :: front) after (by simp [heq])
  · intro h front after heq
    cases front with
    | nil => simp at heq
    | cons c front => exact h front after (List.cons.inj heq).2

/-- A separator neither begins a token nor closes one. -/
theorem tokenFree_slash : TokenFree (s ++ '/' :: t) ↔ Unclosed s (stop t) ∧ TokenFree t := by
  rw [tokenFree_iff_unclosed, unclosed_append (by decide), stop_slash, Option.or_none,
    unclosed_slash, ← tokenFree_iff_unclosed]

theorem tokenFree_nil : TokenFree [] :=
  tokenFree_iff_unclosed.mpr (unclosed_of_plain (List.forall_mem_nil _) none)

theorem tokenFree_cons_slash : TokenFree ('/' :: t) ↔ TokenFree t :=
  (tokenFree_slash (s := [])).trans
    (and_iff_right (unclosed_of_plain (List.forall_mem_nil _) (stop t)))

theorem tokenFree_concat_slash : TokenFree (s ++ ['/']) ↔ TokenFree s := by
  rw [tokenFree_slash, tokenFree_iff_unclosed (s := s)]
  exact and_iff_left tokenFree_nil

/-! ### Pieces of texts without tokens -/

theorem pieces_of_tokenFree (free : TokenFree s) : pieces s = s.map .char := by
  induction s with
  | nil => rfl
  | cons c rest ih =>
    have hnone : tokenBody? (c :: rest) = none := by
      rw [Option.eq_none_iff_forall_ne_some]
      intro body hbody
      obtain ⟨inside, after, heq⟩ := eq_of_tokenBody? hbody
      exact free [] body after inside heq
    rw [pieces, hnone, ih (TokenFree.right (s := [c]) free)]
    rfl

/-- A token behind a text without tokens is a token of both together. -/
theorem pieces_tokenFree_append (free : TokenFree s) :
    pieces (s ++ '$' :: t) = s.map .char ++ pieces ('$' :: t) := by
  induction s with
  | nil => rfl
  | cons c rest ih =>
    have hnone : tokenBody? (c :: (rest ++ '$' :: t)) = none := by
      rw [Option.eq_none_iff_forall_ne_some]
      intro body hbody
      obtain ⟨inside, after, heq⟩ := eq_of_tokenBody? hbody
      have heq : (c :: rest) ++ '$' :: t = ('$' :: '{' :: body) ++ '}' :: after := by
        simpa using heq
      rcases List.append_eq_append_iff.mp heq with ⟨more, hbody, htail⟩ | ⟨more, hrest, htail⟩
      · -- The dollar behind the text would stand in the body.
        cases more with
        | nil => simp at htail
        | cons d more =>
          obtain ⟨rfl, -⟩ := List.cons.inj htail
          rw [List.cons_append] at hbody
          have hmem : '$' ∈ '{' :: body := by
            rw [(List.cons.inj hbody).2]
            simp
          rcases List.mem_cons.mp hmem with hopen | hmem
          · exact absurd hopen (by decide)
          · exact absurd (inside _ hmem) (by decide)
      · cases more with
        | nil => simp at htail
        | cons d more =>
          obtain ⟨rfl, -⟩ := List.cons.inj htail
          exact free [] body more inside hrest
    rw [List.cons_append, pieces, hnone, ih (TokenFree.right (s := [c]) free)]
    rfl

end Reference

/-! ### Components of pathnames -/

namespace Pathname

open Reference (TokenFree isBodyChar stop Unclosed)

/-- What is no component holds nothing that a token could begin or end with. -/
theorem plain_of_not_component {part : List Char} (h : isComponent part = false) :
    ∀ c ∈ part, isBodyChar c = true := by
  simp only [isComponent, Bool.and_eq_false_iff, bne_eq_false_iff_eq] at h
  rcases h with rfl | rfl
  · exact List.forall_mem_nil _
  · exact List.forall_mem_singleton.mpr rfl

/-- The components alone close and hold the same tokens. -/
theorem tokenFree_components (parts : List (List Char)) :
    stop (slashedParts (parts.filter isComponent)) = stop (slashedParts parts) ∧
      (TokenFree (slashedParts (parts.filter isComponent)) ↔ TokenFree (slashedParts parts)) := by
  induction parts with
  | nil => exact ⟨rfl, Iff.rfl⟩
  | cons part rest ih =>
    obtain ⟨hstop, hfree⟩ := ih
    cases hpart : isComponent part with
    | true =>
      rw [List.filter_cons_of_pos hpart, slashedParts_cons, slashedParts_cons,
        Reference.stop_append, Reference.stop_append, Reference.stop_slash, Reference.stop_slash,
        hstop, Reference.tokenFree_slash, Reference.tokenFree_slash, hstop, hfree]
      exact ⟨rfl, Iff.rfl⟩
    | false =>
      have hplain := plain_of_not_component hpart
      rw [List.filter_cons_of_neg (by simp [hpart]), slashedParts_cons, Reference.stop_append,
        Reference.stop_slash, Reference.stop_of_plain hplain, Option.none_or,
        Reference.tokenFree_slash, and_iff_right (Reference.unclosed_of_plain hplain _)]
      exact ⟨hstop, hfree⟩

/-- A pathname without tokens has none in its components. -/
theorem tokenFree_slashedParts {s : List Char} (free : TokenFree s) :
    TokenFree (slashedParts ((cut s).filter isComponent)) := by
  rw [(tokenFree_components _).2, slashedParts_eq (cut_ne_nil s), joinParts_cut]
  exact Reference.tokenFree_concat_slash.mpr free

theorem tokenFree_slashed {path : String} (free : TokenFree path.toList) :
    TokenFree (slashed path) := by
  rcases eq_slashed_or_append path with hsame | hslash
  · exact hsame ▸ free
  · exact hslash ▸ Reference.tokenFree_concat_slash.mpr free

end Pathname

/-- No token stands in a string of a value. -/
def Value.TokenFree (v : Value) : Prop := ∀ s ∈ v.strings, Reference.TokenFree s.toList

theorem Value.tokenFree_iff {v : Value} : v.TokenFree ↔ Environment.unresolved v = [] := by
  rw [Environment.unresolved, List.eq_nil_iff_forall_not_mem]
  constructor
  · intro free name hname
    obtain ⟨body, ⟨s, hs, hbody⟩, -⟩ := Environment.mem_namesIn_iff.mp hname
    exact Reference.tokenFree_iff.mp (free s hs) body hbody
  · intro none s hs
    exact Reference.tokenFree_iff.mpr fun body hbody =>
      none _ (Environment.mem_namesIn_iff.mpr ⟨body, ⟨s, hs, hbody⟩, rfl⟩)

end Toolflow
