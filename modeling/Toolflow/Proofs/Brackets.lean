import Mathlib.Data.List.Basic
import Toolflow.Proofs.Contexts
import Toolflow.Proofs.WrittenOverrides

/-! Brackets of overrides.

A list or a table that is read ends in the closer of its first bracket, but nothing else about its
brackets is looked at: the closer may stand behind a `\`, and a plain text inside may close or leave
open what it likes. Where neither happens the splitter counts the brackets as a stack would, and
every list and table that is read is balanced; where one of them happens, some list or table that is
read is not. -/
namespace Toolflow.Override

/-- What an unescaped character does to the brackets that are open, given by their closers with the
innermost first; `none` if it closes a bracket of the other kind, or none at all. -/
def meet (c : Char) (waiting : List Char) : Option (List Char) :=
  if c = '[' then some (']' :: waiting)
  else if c = '{' then some ('}' :: waiting)
  else if c = ']' ∨ c = '}' then if waiting.head? = some c then some waiting.tail else none
  else some waiting

/-- The brackets that are open behind a text, where an escaped character is none. -/
def openAfter : List Char → List Char → Option (List Char)
  | waiting, [] => some waiting
  | waiting, ['\\'] => some waiting
  | waiting, '\\' :: _ :: rest => openAfter waiting rest
  | waiting, c :: rest => (meet c waiting).bind (openAfter · rest)

/-- Every bracket of a text is closed in it, by a closer of its kind. -/
def Nested (cs : List Char) : Prop := openAfter [] cs = some []

/-- A nested text whose first bracket is closed by its last character and not before. -/
structure Balanced (cs : List Char) : Prop where
  nested : Nested cs
  last : ∀ before after, cs = before ++ after → before ≠ [] → after ≠ [] → ¬ Nested before

/-- A text that is read as a list or a table. -/
def Opens (cs : List Char) : Prop := cs.head? = some '[' ∨ cs.head? = some '{'

/-- The last character of a text is a `\` that no other one escapes. -/
def Dangles : List Char → Bool
  | [] => false
  | ['\\'] => true
  | '\\' :: _ :: rest => Dangles rest
  | _ :: rest => Dangles rest

/-- The texts that are read as values while a text is read: the text itself, the items of lists and
the values of tables. -/
inductive Part (cs : List Char) : List Char → Prop
  | whole : Part cs cs
  | item {inner p : List Char} (list : Part cs ('[' :: (inner ++ [']'])))
    (h : p ∈ split ',' inner) : Part cs p
  | value {inner entry key p : List Char} (table : Part cs ('{' :: (inner ++ ['}'])))
    (h : entry ∈ split ',' inner) (pair : split ':' entry = [key, p]) : Part cs p

/-- The texts that are taken for plain ones while a text is read: scalars and keys. -/
inductive PlainPart (cs : List Char) : List Char → Prop
  | scalar {p : List Char} (h : Part cs p) (plain : ¬ Opens p) : PlainPart cs p
  | key {inner entry key p : List Char} (table : Part cs ('{' :: (inner ++ ['}'])))
    (h : entry ∈ split ',' inner) (pair : split ':' entry = [key, p]) : PlainPart cs key

/-! ### The open brackets -/

section
variable {c : Char} {waiting after base rest a b cs : List Char}

theorem meet_frame (h : meet c waiting = some after) (base : List Char) :
    meet c (waiting ++ base) = some (after ++ base) := by
  unfold meet at h ⊢
  split_ifs at h ⊢ with hlist htable hcloser hframed hmatch hmatch
  · cases h
    rfl
  · cases h
    rfl
  · obtain ⟨outer, rfl⟩ := List.head?_eq_some_iff.mp hmatch
    cases h
    rfl
  · obtain ⟨outer, rfl⟩ := List.head?_eq_some_iff.mp hmatch
    exact absurd rfl hframed
  · cases h
    rfl

/-- A closer that needs the outermost bracket closes that one. -/
theorem eq_nil_of_meet {outermost : Char} (h : meet c waiting = none)
    (hframed : meet c (waiting ++ [outermost]) = some after) : after = [] := by
  unfold meet at h hframed
  split_ifs at h hframed with hlist htable hcloser hmatch hmatch'
  cases waiting with
  | nil =>
    cases hframed
    rfl
  | cons closer outer => exact absurd hmatch' hmatch

theorem openAfter_cons (hc : c ≠ '\\') (waiting rest : List Char) :
    openAfter waiting (c :: rest) = (meet c waiting).bind (openAfter · rest) := by
  rw [openAfter]
  · exact fun heq _ => hc heq
  · exact fun _ _ heq _ => hc heq

theorem dangles_cons (hc : c ≠ '\\') (rest : List Char) : Dangles (c :: rest) = Dangles rest := by
  rw [Dangles]
  · exact fun heq _ => hc heq
  · exact fun _ _ heq _ => hc heq

/-- Induction along a text, where a `\` takes the next character with it. -/
@[elab_as_elim]
theorem escapeInduction {motive : List Char → Prop} (nil : motive []) (lone : motive ['\\'])
    (escape : ∀ c rest, motive rest → motive ('\\' :: c :: rest))
    (char : ∀ c rest, c ≠ '\\' → motive rest → motive (c :: rest)) (cs : List Char) :
    motive cs := by
  fun_induction Dangles cs with
  | case1 => exact nil
  | case2 => exact lone
  | case3 c rest ih => exact escape c rest ih
  | case4 c rest hlone hpair ih =>
    refine char c rest ?_ ih
    rintro rfl
    cases rest with
    | nil => exact hlone rfl rfl
    | cons d rest => exact hpair d rest rfl rfl

theorem openAfter_append (h : Dangles a = false) (waiting : List Char) :
    openAfter waiting (a ++ b) = (openAfter waiting a).bind (openAfter · b) := by
  induction a using escapeInduction generalizing waiting with
  | nil => rfl
  | lone => cases h
  | escape c rest ih => exact ih h waiting
  | char c rest hc ih =>
    rw [dangles_cons hc] at h
    rw [List.cons_append, openAfter_cons hc, openAfter_cons hc, Option.bind_assoc]
    exact Option.bind_congr fun next _ => ih h next

/-- Behind a `\` the next character is escaped. -/
theorem openAfter_dangling (h : Dangles a = true) (c : Char) (waiting : List Char) :
    openAfter waiting (a ++ [c]) = openAfter waiting a := by
  induction a using escapeInduction generalizing waiting with
  | nil => cases h
  | lone => rfl
  | escape d rest ih => exact ih h waiting
  | char d rest hd ih =>
    rw [dangles_cons hd] at h
    rw [List.cons_append, openAfter_cons hd, openAfter_cons hd]
    exact Option.bind_congr fun next _ => ih h next

/-- Brackets that are open further out do not matter. -/
theorem openAfter_frame (base : List Char) (h : openAfter waiting cs = some after) :
    openAfter (waiting ++ base) cs = some (after ++ base) := by
  induction cs using escapeInduction generalizing waiting with
  | nil =>
    cases h
    rfl
  | lone =>
    cases h
    rfl
  | escape c rest ih => exact ih h
  | char c rest hc ih =>
    rw [openAfter_cons hc, Option.bind_eq_some_iff] at h
    obtain ⟨next, hnext, hrest⟩ := h
    rw [openAfter_cons hc, meet_frame hnext base]
    exact ih hrest

/-- A text that closes no wrong bracket does not do so on the way either. -/
theorem exists_openAfter_of_append (h : openAfter waiting (a ++ b) = some after) :
    ∃ between, openAfter waiting a = some between := by
  induction a using escapeInduction generalizing waiting with
  | nil => exact ⟨waiting, rfl⟩
  | lone => exact ⟨waiting, rfl⟩
  | escape c rest ih => exact ih h
  | char c rest hc ih =>
    rw [List.cons_append, openAfter_cons hc, Option.bind_eq_some_iff] at h
    obtain ⟨next, hnext, hrest⟩ := h
    rw [openAfter_cons hc, hnext]
    exact ih hrest

/-- Where the outermost bracket stays open, it does not matter. -/
theorem openAfter_unframe {outermost : Char}
    (h : openAfter (waiting ++ [outermost]) cs = some after)
    (stays : ∀ before rest, cs = before ++ rest →
      openAfter (waiting ++ [outermost]) before ≠ some []) :
    ∃ inner, after = inner ++ [outermost] ∧ openAfter waiting cs = some inner := by
  induction cs using escapeInduction generalizing waiting with
  | nil =>
    cases h
    exact ⟨waiting, rfl, rfl⟩
  | lone =>
    cases h
    exact ⟨waiting, rfl, rfl⟩
  | escape c rest ih =>
    exact ih h fun before after heq => stays ('\\' :: c :: before) after (by rw [heq]; rfl)
  | char c rest hc ih =>
    rw [openAfter_cons hc, Option.bind_eq_some_iff] at h
    obtain ⟨next, hnext, hrest⟩ := h
    cases hmeet : meet c waiting with
    | some next' =>
      have hsame := meet_frame hmeet [outermost]
      rw [hnext, Option.some.injEq] at hsame
      subst hsame
      rw [openAfter_cons hc, hmeet]
      refine ih hrest fun before after heq => ?_
      have hstays := stays (c :: before) after (by rw [heq]; rfl)
      rwa [openAfter_cons hc, hnext] at hstays
    | none =>
      -- only the closer of the outermost bracket needs it
      have hfirst := stays [c] rest rfl
      rw [openAfter_cons hc, hnext] at hfirst
      exact absurd (congrArg some (eq_nil_of_meet hmeet hnext)) hfirst

/-! ### Parts -/

/-- What the splitter does with an unescaped character. -/
theorem splitFrom_cons (hc : c ≠ '\\') (separator : Char) (depth : Nat) (rest : List Char) :
    splitFrom separator depth (c :: rest) =
      if c = '[' ∨ c = '{' then
        (c :: (splitFrom separator (depth + 1) rest).1, (splitFrom separator (depth + 1) rest).2)
      else if c = ']' ∨ c = '}' then
        (c :: (splitFrom separator (depth - 1) rest).1, (splitFrom separator (depth - 1) rest).2)
      else if c = separator ∧ depth = 0 then
        ([], (splitFrom separator 0 rest).1 :: (splitFrom separator 0 rest).2)
      else (c :: (splitFrom separator depth rest).1, (splitFrom separator depth rest).2) := by
  rw [splitFrom]
  exact fun _ _ heq _ => hc heq

/-- The splitter counts the brackets that are open as long as no closer is wrong. -/
theorem nested_splitFrom {separator : Char} (hs : isSeparator separator = true) (cs : List Char)
    (waiting : List Char) :
    openAfter waiting cs = some [] ↔
      openAfter waiting (splitFrom separator waiting.length cs).1 = some [] ∧
        ∀ p ∈ (splitFrom separator waiting.length cs).2, Nested p := by
  induction cs using escapeInduction generalizing waiting with
  | nil => simp [splitFrom]
  | lone =>
    have hne : '\\' ≠ separator := by
      rintro rfl
      cases hs
    simp [splitFrom, hne, openAfter]
  | escape c rest ih => exact ih waiting
  | char c rest hc ih =>
    rw [openAfter_cons hc, splitFrom_cons hc]
    by_cases hopen : c = '[' ∨ c = '{'
    · obtain ⟨closer, hmeet⟩ : ∃ closer, meet c waiting = some (closer :: waiting) := by
        rcases hopen with rfl | rfl
        · exact ⟨']', rfl⟩
        · exact ⟨'}', rfl⟩
      rw [if_pos hopen, openAfter_cons hc, hmeet]
      exact ih (closer :: waiting)
    · rw [if_neg hopen]
      by_cases hclose : c = ']' ∨ c = '}'
      · rw [if_pos hclose, openAfter_cons hc]
        cases hmeet : meet c waiting with
        | none => simp
        | some outer =>
          have hlength : waiting.length - 1 = outer.length := by
            simp only [not_or] at hopen
            rw [meet, if_neg hopen.1, if_neg hopen.2, if_pos hclose] at hmeet
            split_ifs at hmeet
            cases hmeet
            exact List.length_tail.symm
          rw [hlength]
          exact ih outer
      · have hmeet : meet c waiting = some waiting := by
          simp only [not_or] at hopen
          rw [meet, if_neg hopen.1, if_neg hopen.2, if_neg hclose]
        rw [if_neg hclose, hmeet]
        split
        · rename_i hcut
          obtain rfl := List.length_eq_zero_iff.mp hcut.2
          rw [List.forall_mem_cons, openAfter, eq_self, true_and]
          exact ih []
        · rw [openAfter_cons hc, hmeet]
          exact ih waiting

/-- A text is nested exactly if all its parts are. -/
theorem nested_iff_split {separator : Char} (hs : isSeparator separator = true) (cs : List Char) :
    Nested cs ↔ ∀ p ∈ split separator cs, Nested p := by
  rw [split, List.forall_mem_cons]
  exact nested_splitFrom hs cs []

/-- The two kinds of brackets. -/
inductive Pair : Char → Char → Prop
  | list : Pair '[' ']'
  | table : Pair '{' '}'

theorem meet_closer {opener closer : Char} (kind : Pair opener closer) (waiting : List Char) :
    meet closer waiting = if waiting.head? = some closer then some waiting.tail else none := by
  cases kind <;> rfl

/-- A text between two brackets of one kind is balanced exactly if the closer is not escaped and the
inside is nested. -/
theorem balanced_iff {opener closer : Char} (kind : Pair opener closer) (inner : List Char) :
    Balanced (opener :: (inner ++ [closer])) ↔ Dangles inner = false ∧ Nested inner := by
  have hopen : ∀ cs, openAfter [] (opener :: cs) = openAfter [closer] cs := by
    intro cs
    cases kind <;> exact openAfter_cons (by decide) _ _
  have hclose : ∀ waiting, openAfter waiting [closer] = meet closer waiting := by
    intro waiting
    cases kind <;> simp [openAfter_cons, openAfter]
  constructor
  · intro h
    have hstays : ∀ before rest, inner = before ++ rest → openAfter [closer] before ≠ some [] := by
      intro before rest heq hbefore
      refine h.last (opener :: before) (rest ++ [closer]) ?_ (by simp) (by simp) ?_
      · rw [heq, List.append_assoc, List.cons_append]
      · rw [Nested, hopen, hbefore]
    have hnested := h.nested
    rw [Nested, hopen] at hnested
    cases hdangles : Dangles inner with
    | true =>
      rw [openAfter_dangling hdangles] at hnested
      exact absurd hnested (hstays inner [] (List.append_nil _).symm)
    | false =>
      rw [openAfter_append hdangles, Option.bind_eq_some_iff] at hnested
      obtain ⟨after, hafter, hlast⟩ := hnested
      have hframed : openAfter ([] ++ [closer]) inner = some after := hafter
      obtain ⟨between, rfl, hinner⟩ := openAfter_unframe hframed hstays
      rw [hclose, meet_closer kind, Option.ite_none_right_eq_some, Option.some.injEq] at hlast
      have hlength := congrArg List.length hlast.2
      have hbetween : between = [] := by simpa using hlength
      rw [Nested, hinner, hbetween]
      exact ⟨rfl, rfl⟩
  · rintro ⟨hdangles, hinner⟩
    have hframed : openAfter [closer] inner = some [closer] := openAfter_frame [closer] hinner
    refine ⟨?_, fun before after heq hbefore hafter hnested => ?_⟩
    · rw [Nested, hopen, openAfter_append hdangles, hframed, Option.bind_some, hclose]
      cases kind <;> rfl
    · obtain ⟨first, before, rfl⟩ := List.exists_cons_of_ne_nil hbefore
      obtain ⟨rfl, hrest⟩ := List.cons.inj heq
      have hinside : inner = before ++ after.dropLast := by
        have hlast : (inner ++ [closer]).dropLast = (before ++ after).dropLast :=
          congrArg List.dropLast hrest
        rwa [List.dropLast_concat, List.dropLast_append_of_ne_nil hafter] at hlast
      obtain ⟨between, hbetween⟩ := exists_openAfter_of_append (hinside ▸ hinner)
      have hopened := openAfter_frame [closer] hbetween
      rw [Nested, hopen] at hnested
      simp [hnested] at hopened

end

/-! ### What is accepted -/

/-- A text that is read as some value. -/
def Accepted (cs : List Char) : Prop := ∃ fuel v, cs.length ≤ fuel ∧ readWithin fuel cs = .ok v

section
variable {cs inner p : List Char}

theorem length_splitFrom_le (separator : Char) (depth : Nat) (cs : List Char) :
    (splitFrom separator depth cs).1.length ≤ cs.length ∧
      ∀ p ∈ (splitFrom separator depth cs).2, p.length ≤ cs.length := by
  induction cs using escapeInduction generalizing depth with
  | nil => simp [splitFrom]
  | lone =>
    simp only [splitFrom]
    split_ifs <;> simp
  | escape c rest ih =>
    obtain ⟨hpart, hparts⟩ := ih depth
    refine ⟨?_, fun p hp => (hparts p hp).trans (by simp only [List.length_cons]; omega)⟩
    simp only [splitFrom, List.length_cons]
    omega
  | char c rest hc ih =>
    have hrest : ∀ depth, ∀ p ∈ (splitFrom separator depth rest).2,
        p.length ≤ (c :: rest).length := fun depth p hp =>
      ((ih depth).2 p hp).trans (Nat.le_succ _)
    rw [splitFrom_cons hc]
    split_ifs with hopen hclose hcut
    · exact ⟨Nat.succ_le_succ (ih _).1, hrest _⟩
    · exact ⟨Nat.succ_le_succ (ih _).1, hrest _⟩
    · exact ⟨Nat.zero_le _, List.forall_mem_cons.mpr ⟨(ih 0).1.trans (Nat.le_succ _), hrest 0⟩⟩
    · exact ⟨Nat.succ_le_succ (ih _).1, hrest _⟩

theorem length_le_of_mem_split {separator : Char} (h : p ∈ split separator cs) :
    p.length ≤ cs.length := by
  obtain ⟨hpart, hparts⟩ := length_splitFrom_le separator 0 cs
  rcases List.mem_cons.mp h with rfl | h
  · exact hpart
  · exact hparts p h

theorem exists_ok_of_mapM {α β : Type} {read : α → Except Failure β} {l : List α} {out : List β}
    (h : l.mapM read = .ok out) : ∀ a ∈ l, ∃ b, read a = .ok b := by
  induction l generalizing out with
  | nil => simp
  | cons a rest ih =>
    rw [List.mapM_cons] at h
    obtain ⟨b, hb, h⟩ := bind_eq_ok.mp h
    obtain ⟨bs, hbs, -⟩ := bind_eq_ok.mp h
    exact List.forall_mem_cons.mpr ⟨⟨b, hb⟩, ih hbs⟩

theorem accepted_nil : Accepted [] := ⟨0, _, le_rfl, rfl⟩

theorem Accepted.items (h : Accepted ('[' :: (inner ++ [']']))) :
    ∀ p ∈ split ',' inner, Accepted p := by
  obtain ⟨fuel, v, hfuel, hread⟩ := h
  simp only [List.length_cons, List.length_append] at hfuel
  obtain ⟨fuel, rfl⟩ := Nat.exists_eq_succ_of_ne_zero (n := fuel) (by omega)
  intro p hp
  have hlength := length_le_of_mem_split hp
  rw [readWithin_list] at hread
  split at hread
  · rename_i hempty
    rw [List.isEmpty_iff.mp hempty] at hp
    exact List.mem_singleton.mp hp ▸ accepted_nil
  · cases hitems : (split ',' inner).mapM (readWithin fuel) with
    | error cause =>
      rw [hitems] at hread
      cases hread
    | ok items =>
      obtain ⟨w, hw⟩ := exists_ok_of_mapM hitems p hp
      exact ⟨fuel, w, by omega, hw⟩

/-- Each entry of a table is cut into a key and a value that is accepted. -/
theorem Accepted.entries (h : Accepted ('{' :: (inner ++ ['}']))) (hne : inner ≠ []) :
    ∀ entry ∈ split ',' inner, ∃ key p, split ':' entry = [key, p] ∧ Accepted p := by
  obtain ⟨fuel, v, hfuel, hread⟩ := h
  simp only [List.length_cons, List.length_append] at hfuel
  obtain ⟨fuel, rfl⟩ := Nat.exists_eq_succ_of_ne_zero (n := fuel) (by omega)
  intro entry hentry
  have hlength := length_le_of_mem_split hentry
  rw [readWithin_map, if_neg (by simpa using hne)] at hread
  cases hfields : (split ',' inner).foldlM (readEntry (readWithin fuel)) .empty with
  | error cause =>
    rw [hfields] at hread
    cases hread
  | ok fields =>
    obtain ⟨before, after, hadded⟩ := foldlM_each hfields hentry
    unfold readEntry at hadded
    split at hadded
    · rename_i key p hpair
      obtain ⟨w, hw, -⟩ := bind_eq_ok.mp hadded
      have hp : p.length ≤ entry.length := length_le_of_mem_split (by rw [hpair]; simp)
      exact ⟨key, p, hpair, fuel, w, by omega, hw⟩
    · cases hadded
    · cases hadded

/-- An accepted text that opens with a bracket ends in its closer. -/
theorem Accepted.exists_inner (h : Accepted cs) (opens : Opens cs) :
    ∃ opener closer inner, Pair opener closer ∧ cs = opener :: (inner ++ [closer]) := by
  obtain ⟨fuel, v, hfuel, hread⟩ := h
  have hinside : ∀ {closer : Char} {whole rest inner : List Char},
      inside closer whole rest = .ok inner → rest = rest.dropLast ++ [closer] := by
    intro closer whole rest inner hinside
    unfold inside at hinside
    split at hinside
    · rename_i hlast
      exact (List.dropLast_append_getLast? closer hlast).symm
    · cases hinside
  have hcons : cs ≠ [] := by
    rintro rfl
    simp [Opens] at opens
  obtain ⟨fuel, rfl⟩ := Nat.exists_eq_succ_of_ne_zero (n := fuel) (by
    have := List.length_pos_of_ne_nil hcons
    omega)
  obtain ⟨c, rest, rfl⟩ := List.exists_cons_of_ne_nil hcons
  simp only [Opens, List.head?_cons, Option.some.injEq] at opens
  rcases opens with rfl | rfl
  · obtain ⟨inner, hinner, -⟩ := bind_eq_ok.mp hread
    exact ⟨_, _, _, .list, congrArg _ (hinside hinner)⟩
  · obtain ⟨inner, hinner, -⟩ := bind_eq_ok.mp hread
    exact ⟨_, _, _, .table, congrArg _ (hinside hinner)⟩

theorem Part.accepted {p : List Char} (h : Accepted cs) (part : Part cs p) : Accepted p := by
  induction part with
  | whole => exact h
  | item list hp ih => exact ih.items _ hp
  | @value inner entry key p table hentry pair ih =>
    by_cases hne : inner = []
    · subst hne
      rw [List.mem_singleton.mp hentry] at pair
      cases pair
    · obtain ⟨key', p', hpair, hp⟩ := ih.entries hne entry hentry
      rw [pair] at hpair
      cases hpair
      exact hp

end

/-! ### Balance -/

section
variable {cs p : List Char}

/-- What is read of a balanced list or table is nested. -/
theorem nested_of_balanced_item {inner : List Char} (h : Balanced ('[' :: (inner ++ [']'])))
    (hp : p ∈ split ',' inner) : Nested p :=
  (nested_iff_split (by decide) inner).mp ((balanced_iff .list inner).mp h).2 p hp

theorem nested_of_balanced_entry {inner entry : List Char}
    (h : Balanced ('{' :: (inner ++ ['}']))) (hentry : entry ∈ split ',' inner)
    (hp : p ∈ split ':' entry) : Nested p :=
  have hnested := (nested_iff_split (by decide) inner).mp ((balanced_iff .table inner).mp h).2
  (nested_iff_split (by decide) entry).mp (hnested entry hentry) p hp

theorem nested_of_balanced_parts (opens : Opens cs)
    (balanced : ∀ p, Part cs p → Opens p → Balanced p) (h : PlainPart cs p) : Nested p := by
  cases h with
  | key table hentry pair =>
    exact nested_of_balanced_entry (balanced _ table (Or.inr rfl)) hentry (by rw [pair]; simp)
  | scalar part plain =>
    cases part with
    | whole => exact absurd opens plain
    | item list hp => exact nested_of_balanced_item (balanced _ list (Or.inl rfl)) hp
    | value table hentry pair =>
      exact nested_of_balanced_entry (balanced _ table (Or.inr rfl)) hentry (by rw [pair]; simp)

/-- Where the plain texts are nested and no closer is escaped, so are the lists and tables around
them. -/
theorem balanced_of_parts (accepted : Accepted cs)
    (closers : ∀ p, Part cs p → Opens p → Dangles p.dropLast = false)
    (plain : ∀ p, PlainPart cs p → Nested p) (part : Part cs p) (opens : Opens p) : Balanced p := by
  induction hn : p.length using Nat.strongRecOn generalizing p with
  | _ n ih =>
    subst hn
    obtain ⟨opener, closer, inner, kind, rfl⟩ := (part.accepted accepted).exists_inner opens
    have hdangles : Dangles inner = false := by
      have hclosers := closers _ part opens
      rwa [← List.cons_append, List.dropLast_concat, dangles_cons (by cases kind <;> decide)]
        at hclosers
    have hvalue : ∀ q, Part cs q → q.length ≤ inner.length → Nested q := by
      intro q hq hlength
      by_cases hopens : Opens q
      · refine (ih q.length ?_ hq hopens rfl).nested
        simp only [List.length_cons, List.length_append]
        omega
      · exact plain q (.scalar hq hopens)
    rw [balanced_iff kind]
    have hcomma : isSeparator ',' = true := by decide
    refine ⟨hdangles, (nested_iff_split hcomma inner).mpr fun p hp => ?_⟩
    have hlength := length_le_of_mem_split hp
    cases kind with
    | list => exact hvalue p (.item part hp) hlength
    | table =>
      by_cases hne : inner = []
      · subst hne
        rw [List.mem_singleton.mp hp]
        rfl
      · obtain ⟨key, q, hpair, -⟩ := (part.accepted accepted).entries hne p hp
        rw [nested_iff_split (show isSeparator ':' = true by decide), hpair]
        have hq : q.length ≤ p.length := length_le_of_mem_split (by rw [hpair]; simp)
        simp only [List.forall_mem_cons, List.not_mem_nil, false_implies, implies_true, and_true]
        exact ⟨plain key (.key part hp hpair), hvalue q (.value part hp hpair) (hq.trans hlength)⟩

end

/-- All lists and tables that are read are balanced exactly if no closer is escaped and every plain
text has its own brackets matched. -/
theorem parts_balanced_iff {text : String} {v : Value} (h : readValue text = .ok v)
    (opens : Opens text.toList) :
    (∀ p, Part text.toList p → Opens p → Balanced p) ↔
      (∀ p, Part text.toList p → Opens p → Dangles p.dropLast = false) ∧
        ∀ p, PlainPart text.toList p → Nested p := by
  have accepted : Accepted text.toList := ⟨_, v, le_rfl, h⟩
  constructor
  · intro balanced
    refine ⟨fun p part hp => ?_, fun p hp => nested_of_balanced_parts opens balanced hp⟩
    obtain ⟨opener, closer, inner, kind, rfl⟩ := (part.accepted accepted).exists_inner hp
    rw [← List.cons_append, List.dropLast_concat, dangles_cons (by cases kind <;> decide)]
    exact ((balanced_iff kind inner).mp (balanced _ part hp)).1
  · rintro ⟨closers, plain⟩ p part hp
    exact balanced_of_parts accepted closers plain part hp

/-- An escaped closer inside a list is part of its item, and the list around it is balanced. -/
theorem escaped_item_balanced :
    readValue "[a,b\\]]" = .ok (.list [.str "a", .str "b]"]) ∧ Opens "[a,b\\]]".toList ∧
      Balanced "[a,b\\]]".toList := by
  have hread : readValue "[a,b\\]]" = .ok (.list [.str "a", .str "b]"]) := by decide +kernel
  have hopens : Opens "[a,b\\]]".toList := Or.inl (by decide)
  have hparts : ∀ p, Part "[a,b\\]]".toList p →
      p = ['[', 'a', ',', 'b', '\\', ']', ']'] ∨ p = ['a'] ∨ p = ['b', '\\', ']'] := by
    intro p part
    induction part with
    | whole => exact Or.inl (by decide)
    | @item inner p list hp ih =>
      obtain heq | heq | heq := ih
      · have hinner : inner = ['a', ',', 'b', '\\', ']'] := by
          simpa using congrArg List.dropLast (List.cons.inj heq).2
        subst hinner
        exact Or.inr (by simpa [split, splitFrom] using hp)
      · cases heq
      · cases heq
    | value table hentry pair ih => simp at ih
  have hplain : ∀ p, PlainPart "[a,b\\]]".toList p → Nested p := by
    intro p hp
    cases hp with
    | key table => simpa using hparts _ table
    | scalar part plain =>
      obtain rfl | rfl | rfl := hparts p part
      · exact absurd (Or.inl rfl) plain
      · rfl
      · rfl
  have hclosers : ∀ p, Part "[a,b\\]]".toList p → Opens p → Dangles p.dropLast = false := by
    intro p part hp
    obtain rfl | rfl | rfl := hparts p part
    · decide
    · simp [Opens] at hp
    · simp [Opens] at hp
  exact ⟨hread, hopens, (parts_balanced_iff hread hopens).mpr ⟨hclosers, hplain⟩ _ .whole hopens⟩

/-- A list is accepted although its closer is escaped, although a plain text closes it before the
end, and although a plain text holds a closer of the other kind. -/
theorem unbalanced_accepted :
    (readValue "[a\\]" = .ok (.list [.str "a"]) ∧ ¬ Balanced "[a\\]".toList) ∧
    (readValue "[a]b]" = .ok (.list [.str "a]b"]) ∧ ¬ Balanced "[a]b]".toList) ∧
    (readValue "[a\x7d]" = .ok (.list [.str "a\x7d"]) ∧ ¬ Balanced "[a\x7d]".toList) := by
  refine ⟨⟨?_, fun h => ?_⟩, ⟨?_, fun h => ?_⟩, ⟨?_, fun h => ?_⟩⟩
  · decide +kernel
  · exact absurd h.nested (by unfold Nested; decide)
  · decide +kernel
  · exact absurd h.nested (by unfold Nested; decide)
  · decide +kernel
  · exact absurd h.nested (by unfold Nested; decide)

end Toolflow.Override
