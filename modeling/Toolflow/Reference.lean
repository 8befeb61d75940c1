import Toolflow.Value

/-! References `${name}` inside texts.

A text is a sequence of pieces: plain characters and reference tokens. A token is `${`, a body
without `$`, `{` and `}`, and `}`; the leftmost tokens are taken, and whatever is left over stays
plain. `join_pieces` says that cutting a text into pieces loses nothing, and `pieces_token` that a
token in front of a text is cut off whole. -/
namespace Toolflow

inductive Piece where
  | char (c : Char)
  | token (body : List Char)
deriving Repr, DecidableEq

namespace Piece

def chars : Piece → List Char
  | .char c => [c]
  | .token body => '$' :: '{' :: body ++ ['}']

end Piece

namespace Reference

/-- The characters a token body may hold. -/
def isBodyChar (c : Char) : Bool := c != '$' && c != '{' && c != '}'

/-- The body of the token at the front of a text. -/
def tokenBody? : List Char → Option (List Char)
  | '$' :: '{' :: rest =>
    if (rest.dropWhile isBodyChar).head? = some '}' then some (rest.takeWhile isBodyChar) else none
  | _ => none

/-- Cuts a text into pieces. Inside a token no other one begins, so the characters after its `$`
are single pieces of the rest, and are dropped from there. -/
def pieces : List Char → List Piece
  | [] => []
  | c :: rest =>
    match tokenBody? (c :: rest) with
    | some body => .token body :: (pieces rest).drop (body.length + 2)
    | none => .char c :: pieces rest

def join (ps : List Piece) : List Char := ps.flatMap Piece.chars

/-- The name a token body refers to: the body without its `?` marks. -/
def nameOf (body : List Char) : String := String.ofList (body.filter (· != '?'))

/-- The names a text refers to, in order of appearance. -/
def names (text : String) : List String :=
  (pieces text.toList).filterMap fun
    | .token body => some (nameOf body)
    | .char _ => none

/-- The names any string of a value refers to. -/
def namesIn (v : Value) : List String := v.strings.flatMap names

theorem tokenBody?_of_ne {c : Char} (rest : List Char) (h : c ≠ '$') :
    tokenBody? (c :: rest) = none := by
  unfold tokenBody?
  split
  · rename_i heq
    exact absurd (List.cons.inj heq).1 h
  · rfl

theorem pieces_append_of_plain (s t : List Char) (h : ∀ c ∈ s, c ≠ '$') :
    pieces (s ++ t) = s.map Piece.char ++ pieces t := by
  induction s with
  | nil => simp
  | cons c s ih =>
    have hc : c ≠ '$' := h c (by simp)
    have hs : ∀ d ∈ s, d ≠ '$' := fun d hd => h d (by simp [hd])
    simp [pieces, tokenBody?_of_ne _ hc, ih hs]

/-- What a recognised token looks like in the text. -/
theorem eq_of_tokenBody? {s body : List Char} (h : tokenBody? s = some body) :
    (∀ c ∈ body, isBodyChar c = true) ∧ ∃ after, s = '$' :: '{' :: (body ++ '}' :: after) := by
  unfold tokenBody? at h
  split at h
  · rename_i rest
    split at h
    · rename_i hclose
      cases h
      constructor
      · intro c hc
        exact List.all_eq_true.1 (List.all_takeWhile (l := rest)) c hc
      · cases hd : rest.dropWhile isBodyChar with
        | nil => simp [hd] at hclose
        | cons d after =>
          simp only [hd, List.head?_cons, Option.some.injEq] at hclose
          subst hclose
          refine ⟨after, ?_⟩
          rw [← hd, List.takeWhile_append_dropWhile]
    · cases h
  · cases h

theorem ne_dollar_of_isBodyChar {c : Char} (h : isBodyChar c = true) : c ≠ '$' := by
  rintro rfl
  simp [isBodyChar] at h

theorem tokenBody?_token (body after : List Char) (h : ∀ c ∈ body, isBodyChar c = true) :
    tokenBody? ('$' :: '{' :: (body ++ '}' :: after)) = some body := by
  have hstop : isBodyChar '}' = false := by decide
  have htake : (body ++ '}' :: after).takeWhile isBodyChar = body := by
    rw [List.takeWhile_append_of_pos h]
    simp [hstop]
  have hdrop : (body ++ '}' :: after).dropWhile isBodyChar = '}' :: after := by
    rw [List.dropWhile_append_of_pos h]
    simp [hstop]
  simp [tokenBody?, htake, hdrop]

/-- Behind the dollar of a token comes no other up to its end. -/
theorem ne_dollar_of_mem_token {body : List Char} (h : ∀ c ∈ body, isBodyChar c = true) :
    ∀ c ∈ '{' :: (body ++ ['}']), c ≠ '$' := by
  intro c hc
  simp only [List.mem_cons, List.mem_append, List.not_mem_nil, or_false] at hc
  rcases hc with rfl | hc | rfl
  · decide
  · exact ne_dollar_of_isBodyChar (h c hc)
  · decide

/-- A token in front of a text is cut off as one piece. -/
theorem pieces_token (body after : List Char) (h : ∀ c ∈ body, isBodyChar c = true) :
    pieces ('$' :: '{' :: (body ++ '}' :: after)) = .token body :: pieces after := by
  have hrest : '{' :: (body ++ '}' :: after) = ('{' :: (body ++ ['}'])) ++ after := by simp
  rw [pieces, tokenBody?_token body after h, hrest,
    pieces_append_of_plain _ _ (ne_dollar_of_mem_token h)]
  simp [List.drop_append]

/-- Cutting a text into pieces loses nothing. -/
theorem join_pieces (s : List Char) : join (pieces s) = s := by
  induction hn : s.length using Nat.strongRecOn generalizing s with
  | _ n ih =>
    subst hn
    cases s with
    | nil => rfl
    | cons c rest =>
      cases ht : tokenBody? (c :: rest) with
      | none =>
        have := ih rest.length (by simp) rest rfl
        simp only [pieces, ht, join, List.flatMap_cons, Piece.chars] at this ⊢
        rw [this]; rfl
      | some body =>
        obtain ⟨hbody, after, hs⟩ := eq_of_tokenBody? ht
        rw [hs, pieces_token _ _ hbody]
        have := ih after.length (by
          have := congrArg List.length hs
          simp only [List.length_cons, List.length_append] at this ⊢
          omega) after rfl
        simp only [join, List.flatMap_cons, Piece.chars] at this ⊢
        rw [this]; simp

end Reference
end Toolflow
