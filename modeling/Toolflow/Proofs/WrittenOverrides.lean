import Mathlib.Data.String.Basic
import Toolflow.Override
import Toolflow.Proofs.Tables

/-! Overrides that are written down and read back.

`write` puts a `\` in front of every delimiter of a text, so that whatever it renders leaves the
brackets as they were: the splitter passes over the rendering in one go (`Passes`). Each level of a
value is therefore cut exactly where it was joined, and the value is read back part by part. -/
namespace Toolflow

namespace Integer

/-- The number with the given magnitude. -/
def signed (negative : Bool) (n : Nat) : Int := if negative then -n else n

theorem le_ofDigitChars (cs : List Char) (n : Nat) : n ≤ Nat.ofDigitChars 10 cs n := by
  induction cs generalizing n with
  | nil => simp
  | cons c cs ih =>
    rw [Nat.ofDigitChars_cons]
    have := ih (10 * n + (c.toNat - '0'.toNat))
    omega

theorem fitsInt64_iff {n : Int} : fitsInt64 n = true ↔ minInt64 ≤ n ∧ n ≤ maxInt64 := by
  simp [fitsInt64]

theorem fitsInt64_of_le {negative : Bool} {m n : Nat} (hle : m ≤ n)
    (fits : fitsInt64 (signed negative n) = true) : fitsInt64 (signed negative m) = true := by
  rw [fitsInt64_iff, minInt64, maxInt64] at fits ⊢
  cases negative <;> simp only [signed, Bool.false_eq_true, if_true, if_false] at fits ⊢ <;> omega

theorem readDigits_of_isDigit (negative : Bool) (cs : List Char) (n : Nat)
    (digits : ∀ c ∈ cs, c.isDigit = true)
    (fits : fitsInt64 (signed negative (Nat.ofDigitChars 10 cs n)) = true) :
    readDigits negative (signed negative n) cs =
      .ok (signed negative (Nat.ofDigitChars 10 cs n)) := by
  induction cs generalizing n with
  | nil => rw [readDigits, Nat.ofDigitChars_nil]
  | cons c cs ih =>
    obtain ⟨hc, hcs⟩ := List.forall_mem_cons.mp digits
    rw [Nat.ofDigitChars_cons] at fits ⊢
    have hnext : (if negative then signed negative n * 10 - ((c.toNat : Int) - '0'.toNat)
        else signed negative n * 10 + ((c.toNat : Int) - '0'.toNat)) =
        signed negative (10 * n + (c.toNat - '0'.toNat)) := by
      have hlow : '0'.toNat ≤ c.toNat := by
        simp only [Char.isDigit, Bool.and_eq_true, decide_eq_true_eq] at hc
        exact hc.1
      cases negative <;> simp only [signed, Bool.false_eq_true, if_true, if_false] <;> omega
    have hfits := fitsInt64_of_le (le_ofDigitChars cs _) fits
    rw [fitsInt64_iff] at hfits
    rw [readDigits, if_pos hc]
    simp only [hnext]
    rw [if_neg (not_lt.mpr hfits.1), if_neg (not_lt.mpr hfits.2)]
    exact ih _ hcs fits

theorem readDigits_toDigits (negative : Bool) {n : Nat}
    (fits : fitsInt64 (signed negative n) = true) :
    readDigits negative 0 (Nat.toDigits 10 n) = .ok (signed negative n) := by
  have hread := readDigits_of_isDigit negative (Nat.toDigits 10 n) 0
    (fun c => Nat.isDigit_of_mem_toDigits (by decide) (by decide))
    (by rwa [Nat.ofDigitChars_ten_toDigits])
  rw [Nat.ofDigitChars_ten_toDigits] at hread
  have hzero : signed negative 0 = 0 := by cases negative <;> rfl
  rwa [hzero] at hread

theorem readInt64_of_isDigit {cs : List Char} (digits : ∀ c ∈ cs, c.isDigit = true)
    (hne : cs ≠ []) : readInt64 cs = readDigits false 0 cs := by
  obtain ⟨c, rest, rfl⟩ := List.exists_cons_of_ne_nil hne
  have hc := digits c List.mem_cons_self
  have hplus : c ≠ '+' := by rintro rfl; exact absurd hc (by decide)
  have hminus : c ≠ '-' := by rintro rfl; exact absurd hc (by decide)
  simp [readInt64, hplus, hminus]

theorem readInt64_minus {cs : List Char} (hne : cs ≠ []) :
    readInt64 ('-' :: cs) = readDigits true 0 cs := by
  obtain ⟨c, rest, rfl⟩ := List.exists_cons_of_ne_nil hne
  simp [readInt64]

theorem toList_ofNat (n : Nat) : (toString (Int.ofNat n)).toList = Nat.toDigits 10 n :=
  Nat.toList_repr

theorem toList_negSucc (n : Nat) :
    (toString (Int.negSucc n)).toList = '-' :: Nat.toDigits 10 (n + 1) := by
  show ("-" ++ (n + 1).repr).toList = _
  rw [String.toList_append, Nat.toList_repr]
  rfl

/-- A number that fits is read back from its decimal text. -/
theorem readInt64_toString {n : Int} (fits : fitsInt64 n = true) :
    readInt64 (toString n).toList = .ok n := by
  cases n with
  | ofNat n =>
    rw [toList_ofNat, readInt64_of_isDigit
      (fun c => Nat.isDigit_of_mem_toDigits (by decide) (by decide)) Nat.toDigits_ne_nil]
    exact readDigits_toDigits false fits
  | negSucc n =>
    rw [toList_negSucc, readInt64_minus Nat.toDigits_ne_nil]
    exact readDigits_toDigits true fits

end Integer

namespace Override

def isSeparator (c : Char) : Bool := c ∈ [',', ':', '=']

/-- The characters that have a meaning in an override. -/
def isDelimiter (c : Char) : Bool := isSeparator c || c ∈ ['\\', '[', ']', '{', '}']

def escape : List Char → List Char
  | [] => []
  | c :: rest => if isDelimiter c then '\\' :: c :: escape rest else c :: escape rest

mutual
/-- The text of a value; `null` and decimal fractions have none. -/
def render : Value → List Char
  | .null | .float _ => []
  | .str s => escape s.toList
  | .bool b => if b then ['\\', 'T', 'r', 'u', 'e'] else ['\\', 'F', 'a', 'l', 's', 'e']
  | .int n => '\\' :: 'N' :: (toString n).toList
  | .list items => '[' :: ([','].intercalate (renderItems items) ++ [']'])
  | .map ⟨entries⟩ => '{' :: ([','].intercalate (renderEntries entries) ++ ['}'])

def renderItems : List Value → List (List Char)
  | [] => []
  | v :: rest => render v :: renderItems rest

def renderEntries : List (String × Value) → List (List Char)
  | [] => []
  | (key, v) :: rest => (escape key.toList ++ ':' :: render v) :: renderEntries rest
end

def write (v : Value) : String := String.ofList (render v)

/-- Values that have a text of their own. The list of one empty text has the text of the empty
list. -/
inductive Writable : Value → Prop
  | str (s : String) : Writable (.str s)
  | bool (b : Bool) : Writable (.bool b)
  | int {n : Int} (fits : Integer.fitsInt64 n = true) : Writable (.int n)
  | list {items : List Value} (each : ∀ v ∈ items, Writable v) (notBlank : items ≠ [.str ""]) :
    Writable (.list items)
  | map {t : ValueTable} (each : ∀ e ∈ t.entries, Writable e.2) (ascending : t.Ascending) :
    Writable (.map t)

example : render (.list [.str ""]) = render (.list []) := rfl

theorem renderItems_eq_map (items : List Value) : renderItems items = items.map render := by
  induction items with
  | nil => rfl
  | cons v rest ih => rw [renderItems, ih, List.map_cons]

theorem renderEntries_eq_map (entries : List (String × Value)) :
    renderEntries entries = entries.map fun e => escape e.1.toList ++ ':' :: render e.2 := by
  induction entries with
  | nil => rfl
  | cons e rest ih => rw [renderEntries, ih, List.map_cons]

/-! ### Passing over a text -/

/-- With at least `low` brackets open, the splitter finds no separator in the text and leaves as
many brackets open as before. -/
def Passes (separator : Char) (low : Nat) (cs : List Char) : Prop :=
  ∀ depth, low ≤ depth → ∀ rest, splitFrom separator depth (cs ++ rest) =
    (cs ++ (splitFrom separator depth rest).1, (splitFrom separator depth rest).2)

theorem splitFrom_plain {c : Char} (h : isDelimiter c = false ∨ isSeparator c = true)
    (separator : Char) (depth : Nat) (rest : List Char) :
    splitFrom separator depth (c :: rest) =
      if c = separator ∧ depth = 0 then
        ([], (splitFrom separator 0 rest).1 :: (splitFrom separator 0 rest).2)
      else (c :: (splitFrom separator depth rest).1, (splitFrom separator depth rest).2) := by
  have hother : c ≠ '\\' ∧ ¬(c = '[' ∨ c = '{') ∧ ¬(c = ']' ∨ c = '}') := by
    refine ⟨?_, ?_, ?_⟩
    · rintro rfl
      simp [isDelimiter, isSeparator] at h
    · rintro (rfl | rfl) <;> simp [isDelimiter, isSeparator] at h
    · rintro (rfl | rfl) <;> simp [isDelimiter, isSeparator] at h
  rw [splitFrom]
  · rw [if_neg hother.2.1, if_neg hother.2.2]
  · exact fun _ _ heq _ => hother.1 heq

section
variable {separator : Char} {low : Nat} {cs ds : List Char}

theorem Passes.nil : Passes separator low [] := fun _ _ _ => rfl

theorem Passes.mono {high : Nat} (h : Passes separator low cs) (hle : low ≤ high) :
    Passes separator high cs := fun depth hdepth => h depth (hle.trans hdepth)

theorem Passes.append (hc : Passes separator low cs) (hd : Passes separator low ds) :
    Passes separator low (cs ++ ds) := by
  intro depth hdepth rest
  rw [List.append_assoc, hc depth hdepth, hd depth hdepth, List.append_assoc]

theorem passes_escaped (c : Char) : Passes separator low ['\\', c] := fun _ _ _ => rfl

theorem passes_plain {c : Char} (h : isDelimiter c = false) (hs : isSeparator separator = true) :
    Passes separator low [c] := by
  intro depth _ rest
  have hne : c ≠ separator := by
    rintro rfl
    simp [isDelimiter, hs] at h
  rw [List.singleton_append, splitFrom_plain (Or.inl h), if_neg fun heq => hne heq.1]
  rfl

theorem passes_separator {c : Char} (hc : isSeparator c = true) (h : c ≠ separator ∨ 0 < low) :
    Passes separator low [c] := by
  intro depth hdepth rest
  have hcut : ¬(c = separator ∧ depth = 0) := by
    rintro ⟨rfl, rfl⟩
    exact h.elim (· rfl) fun hlow => by omega
  rw [List.singleton_append, splitFrom_plain (Or.inr hc), if_neg hcut]
  rfl

theorem passes_of_forall (h : ∀ c ∈ cs, Passes separator low [c]) : Passes separator low cs := by
  induction cs with
  | nil => exact Passes.nil
  | cons c rest ih =>
    obtain ⟨hc, hrest⟩ := List.forall_mem_cons.mp h
    exact hc.append (ih hrest)

theorem passes_of_plain (h : ∀ c ∈ cs, isDelimiter c = false) (hs : isSeparator separator = true) :
    Passes separator low cs :=
  passes_of_forall fun c hc => passes_plain (h c hc) hs

theorem passes_escape (hs : isSeparator separator = true) (cs : List Char) :
    Passes separator low (escape cs) := by
  induction cs with
  | nil => exact Passes.nil
  | cons c rest ih =>
    rw [escape]
    split
    · exact (passes_escaped c).append ih
    · rename_i hplain
      exact (passes_plain (Bool.not_eq_true _ ▸ hplain) hs).append ih

/-- A pair of brackets lets pass what is passed inside brackets. -/
theorem Passes.brackets {opening closing : Char} (hopen : opening = '[' ∨ opening = '{')
    (hclose : closing = ']' ∨ closing = '}') (h : Passes separator (low + 1) cs) :
    Passes separator low (opening :: (cs ++ [closing])) := by
  intro depth hdepth rest
  have hother : opening ≠ '\\' ∧ closing ≠ '\\' ∧ ¬(closing = '[' ∨ closing = '{') := by
    rcases hopen with rfl | rfl <;> rcases hclose with rfl | rfl <;> decide
  rw [List.cons_append, List.append_assoc, splitFrom]
  · rw [if_pos hopen, h (depth + 1) (by omega), List.singleton_append, splitFrom]
    · rw [if_neg hother.2.2, if_pos hclose, Nat.add_sub_cancel]
      simp
    · exact fun _ _ heq _ => hother.2.1 heq
  · exact fun _ _ heq _ => hother.1 heq

theorem Passes.intercalate {parts : List (List Char)} (h : ∀ p ∈ parts, Passes separator low p)
    {c : Char} (hc : Passes separator low [c]) : Passes separator low ([c].intercalate parts) := by
  induction parts with
  | nil => exact Passes.nil
  | cons p rest ih =>
    obtain ⟨hp, hrest⟩ := List.forall_mem_cons.mp h
    cases rest with
    | nil => simpa using hp
    | cons q rest =>
      rw [List.intercalate_cons_cons]
      exact (hp.append hc).append (ih hrest)

/-- A text that is passed over is one part. -/
theorem Passes.split (h : Passes separator 0 cs) : split separator cs = [cs] := by
  have hwhole := h 0 le_rfl []
  rw [List.append_nil] at hwhole
  rw [Override.split, hwhole]
  simp [splitFrom]

/-- It ends at the separator behind it. -/
theorem Passes.split_separator (h : Passes separator 0 cs) (hs : isSeparator separator = true)
    (rest : List Char) :
    Override.split separator (cs ++ separator :: rest) = cs :: Override.split separator rest := by
  unfold Override.split
  rw [h 0 le_rfl, splitFrom_plain (Or.inr hs), if_pos ⟨rfl, rfl⟩]
  simp

/-- What is joined by separators is cut where it was joined. -/
theorem split_intercalate (hs : isSeparator separator = true) {parts : List (List Char)}
    (hne : parts ≠ []) (h : ∀ p ∈ parts, Passes separator 0 p) :
    split separator ([separator].intercalate parts) = parts := by
  induction parts with
  | nil => exact absurd rfl hne
  | cons p rest ih =>
    obtain ⟨hp, hrest⟩ := List.forall_mem_cons.mp h
    cases rest with
    | nil => simpa using hp.split
    | cons q rest =>
      rw [List.intercalate_cons_cons, List.append_assoc, List.singleton_append,
        hp.split_separator hs, ih (by simp) hrest]

/-- What every character of a list satisfies, found by going through it. -/
theorem forall_mem_of_all {p : Char → Prop} [DecidablePred p] {l : List Char}
    (h : l.all (fun c => decide (p c)) = true) : ∀ c ∈ l, p c := by
  simpa using h

theorem isDelimiter_of_isDigit {c : Char} (h : c.isDigit = true) : isDelimiter c = false := by
  by_contra hdelimiter
  simp only [isDelimiter, isSeparator, Bool.not_eq_false, Bool.or_eq_true, decide_eq_true_eq]
    at hdelimiter
  have hnone : (∀ d ∈ [',', ':', '='], d.isDigit = false) ∧
      ∀ d ∈ ['\\', '[', ']', '{', '}'], d.isDigit = false :=
    ⟨forall_mem_of_all (by decide), forall_mem_of_all (by decide)⟩
  rcases hdelimiter with hmem | hmem
  · simp [hnone.1 c hmem] at h
  · simp [hnone.2 c hmem] at h

theorem plain_toString (n : Int) : ∀ c ∈ (toString n).toList, isDelimiter c = false := by
  have hdigits : ∀ n, ∀ c ∈ Nat.toDigits 10 n, isDelimiter c = false := fun n c hc =>
    isDelimiter_of_isDigit (Nat.isDigit_of_mem_toDigits (by decide) (by decide) hc)
  cases n with
  | ofNat n =>
    rw [Integer.toList_ofNat]
    exact hdigits n
  | negSucc n =>
    rw [Integer.toList_negSucc]
    exact List.forall_mem_cons.mpr ⟨by decide, hdigits (n + 1)⟩

theorem passes_entry (hs : isSeparator separator = true) (h : ':' ≠ separator ∨ 0 < low)
    {v : Value} (hv : Passes separator low (render v)) (key : String) :
    Passes separator low (escape key.toList ++ ':' :: render v) :=
  (passes_escape hs _).append ((passes_separator (by decide) h).append hv)

/-- No separator of a written value stands outside its brackets. -/
theorem passes_render (hs : isSeparator separator = true) {v : Value} (h : Writable v) :
    Passes separator 0 (render v) := by
  induction h with
  | str s => exact passes_escape hs _
  | bool b =>
    have hword : ∀ cs : List Char, (∀ c ∈ cs, isDelimiter c = false) → ∀ c,
        Passes separator 0 ('\\' :: c :: cs) := fun cs hcs c =>
      (passes_escaped c).append (passes_of_plain hcs hs)
    cases b with
    | false => exact hword ['a', 'l', 's', 'e'] (forall_mem_of_all (by decide)) 'F'
    | true => exact hword ['r', 'u', 'e'] (forall_mem_of_all (by decide)) 'T'
  | @int n _ => exact (passes_escaped 'N').append (passes_of_plain (plain_toString n) hs)
  | @list items _ _ ih =>
    rw [render, renderItems_eq_map]
    refine Passes.brackets (Or.inl rfl) (Or.inl rfl)
      (Passes.intercalate ?_ (passes_separator (by decide) (Or.inr Nat.zero_lt_one)))
    intro p hp
    obtain ⟨v, hv, rfl⟩ := List.mem_map.mp hp
    exact (ih v hv).mono (Nat.zero_le _)
  | @map t _ _ ih =>
    obtain ⟨entries⟩ := t
    rw [render, renderEntries_eq_map]
    refine Passes.brackets (Or.inr rfl) (Or.inr rfl)
      (Passes.intercalate ?_ (passes_separator (by decide) (Or.inr Nat.zero_lt_one)))
    intro p hp
    obtain ⟨e, he, rfl⟩ := List.mem_map.mp hp
    exact passes_entry hs (Or.inr Nat.zero_lt_one) ((ih e he).mono (Nat.zero_le _)) e.1

end

/-! ### Reading back -/

theorem unescape_escape (cs : List Char) : unescape (escape cs) = cs := by
  induction cs with
  | nil => rfl
  | cons c rest ih =>
    rw [escape]
    split
    · rw [unescape, ih]
    · rename_i hplain
      have hc : c ≠ '\\' := by rintro rfl; exact hplain (by decide)
      rw [unescape]
      · rw [ih]
      · exact fun heq _ => hc heq
      · exact fun _ _ heq _ => hc heq

/-- Behind a `\` of an escaped text stands a delimiter. -/
theorem isDelimiter_of_escape {cs rest : List Char} {c : Char}
    (h : escape cs = '\\' :: c :: rest) : isDelimiter c = true := by
  cases cs with
  | nil => cases h
  | cons d ds =>
    rw [escape] at h
    split at h
    · rename_i hd
      obtain ⟨-, hdc⟩ := List.cons.inj h
      exact (List.cons.inj hdc).1 ▸ hd
    · rename_i hplain
      rw [(List.cons.inj h).1] at hplain
      exact absurd (by decide) hplain

theorem readScalar_escape (cs : List Char) :
    readScalar (escape cs) = .ok (.str (String.ofList cs)) := by
  unfold readScalar
  split
  · rename_i heq
    exact absurd (isDelimiter_of_escape heq) (by decide)
  · rename_i heq
    exact absurd (isDelimiter_of_escape heq) (by decide)
  · rename_i heq
    exact absurd (isDelimiter_of_escape heq) (by decide)
  · rw [unescape_escape]

/-- A text that opens no bracket at its start is a scalar. -/
theorem readWithin_scalar {cs : List Char} (hlist : ∀ rest, cs ≠ '[' :: rest)
    (hmap : ∀ rest, cs ≠ '{' :: rest) (fuel : Nat) : readWithin fuel cs = readScalar cs := by
  cases fuel with
  | zero => rfl
  | succ fuel => rw [readWithin] <;> assumption

theorem escape_ne_cons {c : Char} (h : isDelimiter c = true) (hc : c ≠ '\\') (cs rest : List Char) :
    escape cs ≠ c :: rest := by
  cases cs with
  | nil => exact fun h => nomatch h
  | cons d ds =>
    rw [escape]
    split
    · exact fun heq => hc (List.cons.inj heq).1.symm
    · rename_i hplain
      exact fun heq => hplain ((List.cons.inj heq).1 ▸ h)

theorem inside_append (closer : Char) (whole cs : List Char) :
    inside closer whole (cs ++ [closer]) = .ok cs := by
  simp [inside]

theorem length_le_intercalate {c : Char} {parts : List (List Char)} {p : List Char}
    (h : p ∈ parts) : p.length ≤ ([c].intercalate parts).length := by
  induction parts with
  | nil => cases h
  | cons q rest ih =>
    cases rest with
    | nil => simp_all
    | cons r rest =>
      rw [List.intercalate_cons_cons, List.length_append, List.length_append]
      rcases List.mem_cons.mp h with rfl | hrest
      · omega
      · have := ih hrest
        omega

theorem ne_nil_of_renderItems {items : List Value} (h : Writable (.list items))
    (hne : items ≠ []) : [','].intercalate (renderItems items) ≠ [] := by
  cases h with
  | list each notBlank =>
    match items, hne with
    | [v], _ =>
      intro hempty
      have hv : render v = [] := by simpa [renderItems] using hempty
      cases each v List.mem_cons_self with
      | str s =>
        rw [render] at hv
        have hs : s.toList = [] := by
          rw [← unescape_escape s.toList, hv]
          rfl
        exact notBlank (by rw [String.toList_eq_nil_iff.mp hs])
      | bool b => cases b <;> simp [render] at hv
      | int _ => simp [render] at hv
      | list _ _ => simp [render] at hv
      | map _ _ => simp [render] at hv
    | v :: w :: rest, _ => simp [renderItems, List.intercalate_cons_cons]

theorem readWithin_list (fuel : Nat) (inner : List Char) :
    readWithin (fuel + 1) ('[' :: (inner ++ [']'])) =
      if inner.isEmpty then .ok (.list [])
      else ((split ',' inner).mapM (readWithin fuel)).map .list := by
  rw [readWithin, inside_append]
  show (if inner.isEmpty = true then Except.ok (Value.list []) else _) = _
  split
  · rfl
  · cases (split ',' inner).mapM (readWithin fuel) <;> rfl

theorem readWithin_map (fuel : Nat) (inner : List Char) :
    readWithin (fuel + 1) ('{' :: (inner ++ ['}'])) =
      if inner.isEmpty then .ok (.map .empty)
      else ((split ',' inner).foldlM (readEntry (readWithin fuel)) .empty).map .map := by
  rw [readWithin, inside_append]
  show (if inner.isEmpty = true then Except.ok (Value.map .empty) else _) = _
  split
  · rfl
  · cases (split ',' inner).foldlM (readEntry (readWithin fuel)) .empty <;> rfl

theorem mapM_map_ok {α β : Type} {f : α → β} {read : β → Except Failure α} {l : List α}
    (h : ∀ a ∈ l, read (f a) = .ok a) : (l.map f).mapM read = .ok l := by
  induction l with
  | nil => rfl
  | cons a rest ih =>
    obtain ⟨ha, hrest⟩ := List.forall_mem_cons.mp h
    rw [List.map_cons, List.mapM_cons, ha, ih hrest]
    rfl

theorem readEntry_render {read : List Char → Except Failure Value} {v : Value} (h : Writable v)
    (hread : read (render v) = .ok v) (key : String) (fields : ValueTable) :
    readEntry read fields (escape key.toList ++ ':' :: render v) =
      .ok (fields.insert key v) := by
  have hsplit : split ':' (escape key.toList ++ ':' :: render v) =
      [escape key.toList, render v] := by
    rw [(passes_escape (by decide) _).split_separator (by decide),
      (passes_render (by decide) h).split]
  simp only [readEntry, hsplit, hread, unescape_escape, String.ofList_toList]
  rfl

theorem foldlM_readEntry {read : List Char → Except Failure Value}
    {entries : List (String × Value)} (each : ∀ e ∈ entries, Writable e.2)
    (hread : ∀ e ∈ entries, read (render e.2) = .ok e.2) (fields : ValueTable) :
    (renderEntries entries).foldlM (readEntry read) fields =
      .ok (entries.foldl (fun t e => t.insert e.1 e.2) fields) := by
  induction entries generalizing fields with
  | nil => rfl
  | cons e rest ih =>
    obtain ⟨he, hrest⟩ := List.forall_mem_cons.mp each
    obtain ⟨hv, hreadRest⟩ := List.forall_mem_cons.mp hread
    rw [renderEntries, List.foldlM_cons, readEntry_render he hv]
    exact ih hrest hreadRest _

theorem split_renderItems {items : List Value} (each : ∀ v ∈ items, Writable v)
    (hne : items ≠ []) : split ',' ([','].intercalate (renderItems items)) = renderItems items := by
  rw [renderItems_eq_map]
  refine split_intercalate (by decide) (by simpa using hne) fun p hp => ?_
  obtain ⟨v, hv, rfl⟩ := List.mem_map.mp hp
  exact passes_render (by decide) (each v hv)

theorem split_renderEntries {entries : List (String × Value)}
    (each : ∀ e ∈ entries, Writable e.2) (hne : entries ≠ []) :
    split ',' ([','].intercalate (renderEntries entries)) = renderEntries entries := by
  rw [renderEntries_eq_map]
  refine split_intercalate (by decide) (by simpa using hne) fun p hp => ?_
  obtain ⟨e, he, rfl⟩ := List.mem_map.mp hp
  exact passes_entry (by decide) (Or.inl (by decide)) (passes_render (by decide) (each e he)) e.1

theorem length_render_le_items {items : List Value} {v : Value} (h : v ∈ items) :
    (render v).length ≤ ([','].intercalate (renderItems items)).length := by
  rw [renderItems_eq_map]
  exact length_le_intercalate (List.mem_map_of_mem h)

theorem length_render_le_entries {entries : List (String × Value)} {e : String × Value}
    (h : e ∈ entries) :
    (render e.2).length ≤ ([','].intercalate (renderEntries entries)).length := by
  rw [renderEntries_eq_map]
  refine Nat.le_trans ?_ (length_le_intercalate (List.mem_map_of_mem h))
  simp only [List.length_append, List.length_cons]
  omega

theorem ne_nil_of_renderEntries {entries : List (String × Value)} (hne : entries ≠ []) :
    [','].intercalate (renderEntries entries) ≠ [] := by
  obtain ⟨e, rest, rfl⟩ := List.exists_cons_of_ne_nil hne
  intro hempty
  have hmem : escape e.1.toList ++ ':' :: render e.2 ∈ renderEntries (e :: rest) := by
    simp [renderEntries]
  have hlength := length_le_intercalate (c := ',') hmem
  simp [hempty] at hlength

/-- A written value is read back with any fuel that reaches over its text. -/
theorem readWithin_render {v : Value} (h : Writable v) (fuel : Nat)
    (room : (render v).length ≤ fuel) : readWithin fuel (render v) = .ok v := by
  induction h generalizing fuel with
  | str s =>
    rw [render, readWithin_scalar (escape_ne_cons (by decide) (by decide) _)
      (escape_ne_cons (by decide) (by decide) _), readScalar_escape, String.ofList_toList]
  | bool b => cases b <;> exact readWithin_scalar (by simp [render]) (by simp [render]) fuel
  | @int n fits =>
    rw [render, readWithin_scalar (by simp) (by simp)]
    simp only [readScalar, Integer.readInt64_toString fits]
  | @list items each notBlank ih =>
    simp only [render, List.length_cons, List.length_append] at room
    obtain ⟨fuel, rfl⟩ := Nat.exists_eq_succ_of_ne_zero (n := fuel) (by omega)
    rw [render, readWithin_list]
    by_cases hne : items = []
    · subst hne
      rfl
    have hread : (renderItems items).mapM (readWithin fuel) = .ok items := by
      rw [renderItems_eq_map]
      refine mapM_map_ok fun v hv => ih v hv fuel ?_
      have := length_render_le_items hv
      omega
    rw [if_neg (by simpa using ne_nil_of_renderItems (.list each notBlank) hne),
      split_renderItems each hne, hread]
    rfl
  | @map t each ascending ih =>
    obtain ⟨entries⟩ := t
    simp only [render, List.length_cons, List.length_append] at room
    obtain ⟨fuel, rfl⟩ := Nat.exists_eq_succ_of_ne_zero (n := fuel) (by omega)
    rw [render, readWithin_map]
    by_cases hne : entries = []
    · subst hne
      rfl
    have hread : (renderEntries entries).foldlM (readEntry (readWithin fuel)) .empty =
        .ok (Table.ofList entries) := by
      refine foldlM_readEntry each (fun e he => ih e he fuel ?_) .empty
      have := @length_render_le_entries entries e he
      omega
    rw [if_neg (by simpa using ne_nil_of_renderEntries hne), split_renderEntries each hne, hread,
      ascending.ofList_entries]
    rfl

theorem readChars_render {v : Value} (h : Writable v) : readChars (render v) = .ok v :=
  readWithin_render h _ le_rfl

/-! ### Assignments -/

/-- Names of stages and bindings that an assignment can spell out. -/
def PlainName (name : String) : Prop :=
  name ≠ "" ∧ ∀ c ∈ name.toList, c ∉ ['\\', '[', ']', '{', '}', '=', '.']

theorem PlainName.passes {name : String} (h : PlainName name) : Passes '=' 0 name.toList := by
  refine passes_of_forall fun c hc => ?_
  have hc := h.2 c hc
  simp only [List.mem_cons, List.not_mem_nil, or_false, not_or] at hc
  cases hs : isSeparator c with
  | true => exact passes_separator hs (Or.inl hc.2.2.2.2.2.1)
  | false => exact passes_plain (by simp [isDelimiter, hs, hc]) (by decide)

theorem PlainName.dot_not_mem {name : String} (h : PlainName name) : '.' ∉ name.toList :=
  fun hdot => h.2 '.' hdot (by decide)

theorem components_of_not_mem {cs : List Char} (h : '.' ∉ cs) : components cs = [cs] := by
  induction cs with
  | nil => rfl
  | cons c rest ih =>
    rw [List.mem_cons, not_or] at h
    rw [components, if_neg fun heq => h.1 heq.symm, ih h.2]

theorem components_append {cs : List Char} (h : '.' ∉ cs) (rest : List Char) :
    components (cs ++ '.' :: rest) = cs :: components rest := by
  induction cs with
  | nil => rw [List.nil_append, components, if_pos rfl]
  | cons c cs ih =>
    rw [List.mem_cons, not_or] at h
    rw [List.cons_append, components, if_neg fun heq => h.1 heq.symm, ih h.2]

theorem split_assignment {path : List Char} (hpath : Passes '=' 0 path) {v : Value}
    (h : Writable v) : split '=' (path ++ '=' :: render v) = [path, render v] := by
  rw [hpath.split_separator (by decide), (passes_render (by decide) h).split]

theorem readAssignment_unscoped {name : String} (hname : PlainName name) {v : Value}
    (h : Writable v) : readAssignment (name ++ "=" ++ write v) = .ok ⟨none, name, v⟩ := by
  have htext : (name ++ "=" ++ write v).toList = name.toList ++ '=' :: render v := by
    simp [write]
  simp only [readAssignment, htext, split_assignment hname.passes h,
    components_of_not_mem hname.dot_not_mem, readChars_render h]
  simp [hname.1, pure, Except.pure, bind, Except.bind]

theorem readAssignment_scoped {stage name : String} (hstage : PlainName stage)
    (hname : PlainName name) {v : Value} (h : Writable v) :
    readAssignment (stage ++ "." ++ name ++ "=" ++ write v) = .ok ⟨some stage, name, v⟩ := by
  have htext : (stage ++ "." ++ name ++ "=" ++ write v).toList =
      (stage.toList ++ '.' :: name.toList) ++ '=' :: render v := by
    simp [write]
  have hdot : Passes '=' 0 ['.'] := passes_plain (by decide) (by decide)
  have hpath : Passes '=' 0 (stage.toList ++ '.' :: name.toList) :=
    hstage.passes.append (hdot.append hname.passes)
  simp only [readAssignment, htext, split_assignment hpath h,
    components_append hstage.dot_not_mem, components_of_not_mem hname.dot_not_mem,
    readChars_render h]
  simp [hname.1, hstage.1, pure, Except.pure, bind, Except.bind]

/-- Every writable value is read back from its text, alone and as the right-hand side of an
assignment to any plain name. -/
theorem read_written {v : Value} (h : Writable v) :
    readValue (write v) = .ok v ∧
      ∀ stage name, PlainName stage → PlainName name →
        readAssignment (name ++ "=" ++ write v) = .ok ⟨none, name, v⟩ ∧
        readAssignment (stage ++ "." ++ name ++ "=" ++ write v) = .ok ⟨some stage, name, v⟩ := by
  refine ⟨?_, fun stage name hstage hname =>
    ⟨readAssignment_unscoped hname h, readAssignment_scoped hstage hname h⟩⟩
  rw [readValue, write, String.toList_ofList]
  exact readChars_render h

/-- A table of a list that holds delimiters, and of a table. -/
def nestedValue : Value :=
  .map ⟨[("files", .list [.str "a.v", .str "b,c.v", .list [.str "", .list []]]),
    ("opts", .map ⟨[("seed", .int (-3)), ("strict", .bool true)]⟩)]⟩

theorem read_nestedValue :
    Writable nestedValue ∧ PlainName "synth" ∧ PlainName "cfg" ∧
      readValue "\x7bfiles:[a.v,b\\,c.v,[,[]]],opts:\x7bseed:\\N-3,strict:\\True\x7d\x7d" =
        .ok nestedValue ∧
      readAssignment
        "synth.cfg=\x7bfiles:[a.v,b\\,c.v,[,[]]],opts:\x7bseed:\\N-3,strict:\\True\x7d\x7d" =
        .ok ⟨some "synth", "cfg", nestedValue⟩ := by
  have hfiles : Writable (.list [.str "a.v", .str "b,c.v", .list [.str "", .list []]]) := by
    refine .list ?_ (by decide)
    simp only [List.forall_mem_cons, List.not_mem_nil, false_implies, implies_true, and_true]
    refine ⟨.str _, .str _, .list ?_ (by decide)⟩
    simp only [List.forall_mem_cons, List.not_mem_nil, false_implies, implies_true, and_true]
    exact ⟨.str _, .list (by simp) (by decide)⟩
  have hopts : Writable (.map ⟨[("seed", .int (-3)), ("strict", .bool true)]⟩) := by
    refine .map ?_ (by unfold Table.Ascending; decide)
    simp only [List.forall_mem_cons, List.not_mem_nil, false_implies, implies_true, and_true]
    exact ⟨.int (by decide), .bool _⟩
  have hvalue : Writable nestedValue := by
    refine .map ?_ (by unfold Table.Ascending; decide)
    simp only [List.forall_mem_cons, List.not_mem_nil, false_implies, implies_true, and_true]
    exact ⟨hfiles, hopts⟩
  have hstage : PlainName "synth" := ⟨by decide, forall_mem_of_all (by decide)⟩
  have hname : PlainName "cfg" := ⟨by decide, forall_mem_of_all (by decide)⟩
  obtain ⟨hread, hassign⟩ := read_written hvalue
  exact ⟨hvalue, hstage, hname, hread, (hassign "synth" "cfg" hstage hname).2⟩

end Override
end Toolflow
