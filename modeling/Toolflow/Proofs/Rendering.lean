import Mathlib.Data.List.DropRight
import Mathlib.Data.String.Basic
import Toolflow.Json.Printer
import Toolflow.Json.Reader

/-! Reading back what has been rendered.

A quoted text is read one character at a time, whatever stands behind it. An object is read field by
field; each field makes the text longer than the fuel it takes, so the fuel of the whole text is
enough for everything in it. A table of tables is therefore read as the object it was rendered
from. -/
namespace Toolflow.Json

theorem fromUTF8?_toUTF8 (s : String) : String.fromUTF8? s.toUTF8 = some s := by
  simp only [String.fromUTF8?, String.toUTF8_eq_toByteArray, dif_pos s.isValidUTF8]
  rfl

theorem hexDigit?_hexDigit : ∀ n < 16, hexDigit? (hexDigit n) = some n := by
  decide

/-- A control character is read from its code. -/
theorem unicodeEscape?_control {c : Char} (h : c.toNat < 32) (rest : List Char) :
    unicodeEscape? ('0' :: '0' :: hexDigit (c.toNat / 16) :: hexDigit (c.toNat % 16) :: rest) =
      some (c, rest) := by
  have hhigh := hexDigit?_hexDigit (c.toNat / 16) (by omega)
  have hlow := hexDigit?_hexDigit (c.toNat % 16) (by omega)
  have hzero : hexDigit? '0' = some 0 := by decide
  have hunit : ((0 * 16 + 0) * 16 + c.toNat / 16) * 16 + c.toNat % 16 = c.toNat := by omega
  simp only [unicodeEscape?, hexUnit?, hzero, hhigh, hlow, Option.bind_eq_bind, Option.bind_some,
    Option.pure_def, hunit]
  rw [if_neg (by omega), if_neg (by omega), Char.ofNat_toNat]

/-- An escaped character is read in one step. -/
theorem readString_escapeChar (c : Char) (fuel : Nat) (done rest : List Char) :
    readString (fuel + 1) done (escapeChar c ++ rest) = readString fuel (c :: done) rest := by
  unfold escapeChar
  split
  · rfl
  · rfl
  · rfl
  · rfl
  · rfl
  · rfl
  · rfl
  · rename_i hquote hslash _ _ _ _ _
    split
    · rename_i hcontrol
      show (unicodeEscape? ('0' :: '0' :: hexDigit (c.toNat / 16) :: hexDigit (c.toNat % 16) ::
        rest) >>= fun read => readString fuel (read.1 :: done) read.2) = _
      rw [unicodeEscape?_control hcontrol]
      rfl
    · rename_i hplain
      rw [List.singleton_append, readString]
      · exact if_neg (not_or.mpr ⟨hplain, hslash⟩)
      · exact hquote
      · exact fun _ h _ => hslash h
      · exact fun _ _ h _ => hslash h

theorem readString_escaped (cs : List Char) {fuel : Nat} (room : cs.length < fuel)
    (done rest : List Char) :
    readString fuel done (cs.flatMap escapeChar ++ '"' :: rest) =
      some (String.ofList (done.reverse ++ cs), rest) := by
  induction cs generalizing fuel done with
  | nil =>
    obtain ⟨fuel, rfl⟩ := Nat.exists_eq_succ_of_ne_zero (Nat.ne_of_gt room)
    simp [readString]
  | cons c cs ih =>
    obtain ⟨fuel, rfl⟩ := Nat.exists_eq_succ_of_ne_zero (Nat.ne_of_gt (Nat.zero_lt_of_lt room))
    rw [List.flatMap_cons, List.append_assoc, readString_escapeChar,
      ih (Nat.lt_of_succ_lt_succ room)]
    simp

theorem length_escapeChar (c : Char) : 0 < (escapeChar c).length := by
  unfold escapeChar
  split <;> first | simp | (split <;> simp)

theorem length_le_escaped (cs : List Char) : cs.length ≤ (cs.flatMap escapeChar).length := by
  induction cs with
  | nil => simp
  | cons c cs ih =>
    have := length_escapeChar c
    rw [List.flatMap_cons, List.length_append, List.length_cons]
    omega

/-- A quoted text is read to its end. -/
theorem readString_quote (s : String) (rest : List Char) :
    ∃ body, (quote s).toList = '"' :: body ∧
      readString ((body ++ rest).length + 1) [] (body ++ rest) = some (s, rest) := by
  refine ⟨s.toList.flatMap escapeChar ++ ['"'], by simp [quote, quoteChars], ?_⟩
  have hlength := length_le_escaped s.toList
  rw [List.append_assoc, List.singleton_append, readString_escaped]
  · simp
  · simp only [List.length_append, List.length_cons]
    omega

/-! ### Documents -/

theorem skipSpace_append {spaces : List Char} (h : ∀ c ∈ spaces, isSpace c = true)
    (cs : List Char) : skipSpace (spaces ++ cs) = skipSpace cs :=
  List.dropWhile_append_of_pos h

theorem readValue_string (fuel depth : Nat) (rest : List Char) :
    readValue (fuel + 1) depth ('"' :: rest) =
      (readString (rest.length + 1) [] rest).map fun read => (.str read.1, read.2) := by
  rw [readValue]
  show (readString (rest.length + 1) [] rest >>= fun read => some (Json.str read.1, read.2)) = _
  cases readString (rest.length + 1) [] rest <;> rfl

theorem readValue_space (fuel depth : Nat) (cs : List Char) :
    readValue fuel depth (' ' :: cs) = readValue fuel depth cs := by
  cases fuel with
  | zero => rfl
  | succ fuel =>
    rw [readValue, readValue]
    rfl

/-- Reads on behind a field. -/
def readMore (fuel depth : Nat) (field : String × Json) (cs : List Char) :
    Option (List (String × Json) × List Char) :=
  match skipSpace cs with
  | ',' :: rest => do
    let (fields, rest) ← readFields fuel depth rest
    return (field :: fields, rest)
  | '}' :: rest => return ([field], rest)
  | _ => none

/-- Reads on behind the name of a field. -/
def readField (fuel depth : Nat) (name : String) (cs : List Char) :
    Option (List (String × Json) × List Char) :=
  match skipSpace cs with
  | ':' :: rest => do
    let (item, rest) ← readValue fuel depth rest
    readMore fuel depth (name, item) rest
  | _ => none

/-- Reads on behind the brace of an object. -/
def readObject (fuel depth : Nat) (cs : List Char) : Option (Json × List Char) :=
  match skipSpace cs with
  | '}' :: rest => some (.obj [], rest)
  | rest => do
    let (fields, rest) ← readFields fuel depth rest
    return (.obj fields, rest)

theorem readFields_name (fuel depth : Nat) {spaces : List Char}
    (h : ∀ c ∈ spaces, isSpace c = true) (rest : List Char) :
    readFields (fuel + 1) depth (spaces ++ '"' :: rest) =
      (readString (rest.length + 1) [] rest).bind fun read =>
        readField fuel depth read.1 read.2 := by
  rw [readFields, skipSpace_append h]
  rfl

/-- A text is read as a document, whatever follows, with fuel for twice its length. -/
def Reads (depth : Nat) (text : String) (j : Json) : Prop :=
  ∀ fuel rest, 2 * text.toList.length ≤ fuel →
    readValue fuel depth (text.toList ++ rest) = some (j, rest)

theorem reads_quote (depth : Nat) (s : String) : Reads depth (quote s) (.str s) := by
  intro fuel rest hfuel
  obtain ⟨body, htext, hread⟩ := readString_quote s rest
  rw [htext] at hfuel ⊢
  obtain ⟨fuel, rfl⟩ := Nat.exists_eq_succ_of_ne_zero
    (Nat.ne_of_gt (Nat.lt_of_lt_of_le (by simp) hfuel))
  rw [List.cons_append, readValue_string, hread]
  rfl

/-- The line of a field. -/
def line (indent : String) (field : String × String) : String :=
  indent ++ "  " ++ quote field.1 ++ ": " ++ field.2

theorem readFields_line {indent : String} (spaces : ∀ c ∈ indent.toList, isSpace c = true)
    {depth : Nat} {name text : String} {j : Json} (reads : Reads depth text j) {fuel : Nat}
    (room : 2 * text.toList.length ≤ fuel) (rest : List Char) :
    readFields (fuel + 1) depth ((line indent (name, text)).toList ++ rest) =
      readMore fuel depth (name, j) rest := by
  obtain ⟨body, htext, hread⟩ := readString_quote name (':' :: ' ' :: text.toList ++ rest)
  have hline : (line indent (name, text)).toList ++ rest =
      (indent.toList ++ [' ', ' ']) ++ '"' :: (body ++ (':' :: ' ' :: text.toList ++ rest)) := by
    simp [line, String.toList_append, htext]
  have hspaces : ∀ c ∈ indent.toList ++ [' ', ' '], isSpace c = true := by
    refine List.forall_mem_append.mpr ⟨spaces, ?_⟩
    simp [isSpace]
  rw [hline, readFields_name fuel depth hspaces, hread, Option.bind_some]
  show (readValue fuel depth (' ' :: text.toList ++ rest)).bind (fun read =>
    readMore fuel depth (name, read.1) read.2) = _
  rw [List.cons_append, readValue_space, reads fuel rest room, Option.bind_some]

/-- The lines of some fields, each with the document its text is read as. -/
def lines (indent : String) (items : List (String × String × Json)) : List Char :=
  [',', '\n'].intercalate (items.map fun item => (line indent (item.1, item.2.1)).toList)

/-- Lines begin with blanks and a quote. -/
theorem lines_cons (indent : String) (item : String × String × Json)
    (more : List (String × String × Json)) :
    ∃ body, lines indent (item :: more) = indent.toList ++ [' ', ' '] ++ '"' :: body := by
  obtain ⟨name, hname, -⟩ := readString_quote item.1 []
  have hline : ∃ body, (line indent (item.1, item.2.1)).toList =
      indent.toList ++ [' ', ' '] ++ '"' :: body :=
    ⟨_, by simp only [line, String.toList_append, hname, List.append_assoc]; rfl⟩
  obtain ⟨body, hbody⟩ := hline
  cases more with
  | nil => exact ⟨body, by rw [lines, List.map_singleton, List.intercalate_singleton, hbody]⟩
  | cons next more =>
    refine ⟨body ++ [',', '\n'] ++ lines indent (next :: more), ?_⟩
    rw [lines, List.map_cons, List.map_cons, List.intercalate_cons_cons, hbody]
    simp only [List.append_assoc, List.cons_append]
    rfl

theorem readFields_skipSpace (fuel depth : Nat) (cs : List Char) :
    readFields fuel depth (skipSpace cs) = readFields fuel depth cs := by
  have hskip : skipSpace (skipSpace cs) = skipSpace cs := List.dropWhile_idempotent ..
  cases fuel with
  | zero => rfl
  | succ fuel => rw [readFields, readFields, hskip]

theorem readValue_object (fuel depth : Nat) {cs : List Char}
    (h : ∀ rest, skipSpace cs ≠ '\x7d' :: rest) :
    readValue (fuel + 1) (depth + 1) ('\x7b' :: cs) =
      (readFields fuel depth cs).map fun read => (.obj read.1, read.2) := by
  rw [readValue]
  show readObject fuel depth cs = _
  unfold readObject
  split
  · rename_i rest hrest
    exact absurd hrest (h rest)
  · rw [readFields_skipSpace]
    cases readFields fuel depth cs <;> rfl

theorem readFields_newline (fuel depth : Nat) (cs : List Char) :
    readFields fuel depth ('\n' :: cs) = readFields fuel depth cs := by
  cases fuel with
  | zero => rfl
  | succ fuel =>
    rw [readFields, readFields]
    rfl

/-- Fields are read up to the closing brace. -/
theorem readFields_lines {indent : String} (spaces : ∀ c ∈ indent.toList, isSpace c = true)
    {depth : Nat} {items : List (String × String × Json)} (some? : items ≠ [])
    (reads : ∀ item ∈ items, Reads depth item.2.1 item.2.2) {fuel : Nat}
    (room : 2 * (lines indent items).length ≤ fuel) (rest : List Char) :
    readFields fuel depth (lines indent items ++ '\n' :: indent.toList ++ '\x7d' :: rest) =
      some (items.map fun item => (item.1, item.2.2), rest) := by
  induction items generalizing fuel with
  | nil => exact absurd rfl some?
  | cons item more ih =>
    obtain ⟨name, text, j⟩ := item
    obtain ⟨hitem, hmore⟩ := List.forall_mem_cons.mp reads
    have hline : text.toList.length + 4 ≤ (line indent (name, text)).toList.length := by
      have hblanks : ("  " : String).toList.length = 2 := by decide
      have hcolon : (": " : String).toList.length = 2 := by decide
      simp only [line, String.toList_append, List.length_append, hblanks, hcolon]
      omega
    have hclose : ∀ c ∈ '\n' :: indent.toList, isSpace c = true :=
      List.forall_mem_cons.mpr ⟨by decide, spaces⟩
    have hroom : 2 * (line indent (name, text)).toList.length ≤ fuel →
        ∃ less, fuel = less + 1 ∧ 2 * text.toList.length ≤ less := fun h => ⟨fuel - 1, by omega⟩
    cases more with
    | nil =>
      rw [lines, List.map_singleton, List.intercalate_singleton] at room ⊢
      obtain ⟨less, rfl, hless⟩ := hroom room
      rw [List.append_assoc, readFields_line spaces hitem hless, readMore,
        skipSpace_append hclose]
      rfl
    | cons next more =>
      have hlines : lines indent ((name, text, j) :: next :: more) =
          (line indent (name, text)).toList ++ [',', '\n'] ++ lines indent (next :: more) :=
        List.intercalate_cons_cons
      rw [hlines, List.length_append, List.length_append] at room
      obtain ⟨less, rfl, hless⟩ := hroom (by omega)
      have hrest := ih (by simp) hmore
        (show 2 * (lines indent (next :: more)).length ≤ less by omega)
      rw [hlines]
      simp only [List.append_assoc] at hrest ⊢
      rw [readFields_line spaces hitem hless]
      show (readFields less depth ('\n' :: (lines indent (next :: more) ++ _)) >>= _) = _
      rw [readFields_newline, hrest]
      rfl

/-- An object whose fields are read is read. -/
theorem reads_object {indent : String} (spaces : ∀ c ∈ indent.toList, isSpace c = true)
    {depth : Nat} {items : List (String × String × Json)}
    (reads : ∀ item ∈ items, Reads depth item.2.1 item.2.2) :
    Reads (depth + 1) (object indent (items.map fun item => (item.1, item.2.1)))
      (.obj (items.map fun item => (item.1, item.2.2))) := by
  intro fuel rest room
  cases items with
  | nil =>
    have htext : (object indent []).toList = ['\x7b', '\x7d'] := by
      rw [show object indent [] = "\x7b\x7d" from rfl]
      decide
    rw [List.map_nil, htext] at room ⊢
    obtain ⟨less, rfl⟩ := Nat.exists_eq_succ_of_ne_zero
      (Nat.ne_of_gt (Nat.lt_of_lt_of_le (by decide) room))
    rfl
  | cons item more =>
    have htext : (object indent ((item :: more).map fun item => (item.1, item.2.1))).toList =
        '\x7b' :: '\n' :: (lines indent (item :: more) ++ '\n' :: indent.toList ++ ['\x7d']) := by
      have hobject : object indent ((item :: more).map fun item => (item.1, item.2.1)) =
          "\x7b\n" ++ ",\n".intercalate (((item :: more).map fun item =>
            (item.1, item.2.1)).map (line indent)) ++ "\n" ++ indent ++ "\x7d" := rfl
      rw [hobject]
      simp only [String.toList_append, String.toList_intercalate, List.map_map, lines,
        List.append_assoc]
      rfl
    rw [htext] at room ⊢
    obtain ⟨less, rfl⟩ := Nat.exists_eq_succ_of_ne_zero
      (Nat.ne_of_gt (Nat.lt_of_lt_of_le (by simp) room))
    have hroom : 2 * (lines indent (item :: more)).length ≤ less := by
      simp only [List.length_cons, List.length_append] at room
      omega
    have hfields := readFields_lines spaces (List.cons_ne_nil item more) reads hroom rest
    obtain ⟨body, hbody⟩ := lines_cons indent item more
    have hblank : ∀ c ∈ '\n' :: (indent.toList ++ [' ', ' ']), isSpace c = true :=
      List.forall_mem_cons.mpr ⟨by decide, List.forall_mem_append.mpr ⟨spaces, by simp [isSpace]⟩⟩
    have hclosed : ∀ tail, skipSpace ('\n' :: (lines indent (item :: more) ++
        '\n' :: indent.toList ++ '\x7d' :: rest)) ≠ '\x7d' :: tail := by
      intro tail
      rw [hbody, List.append_assoc, List.append_assoc, ← List.cons_append, skipSpace_append hblank]
      simp [skipSpace, isSpace]
    have hcut : '\x7b' :: '\n' :: (lines indent (item :: more) ++ '\n' :: indent.toList ++
        ['\x7d']) ++ rest = '\x7b' :: '\n' :: (lines indent (item :: more) ++
          '\n' :: indent.toList ++ '\x7d' :: rest) := by
      simp
    rw [hcut, readValue_object _ _ hclosed, readFields_newline, hfields]
    rfl

/-- The document of a table of tables. -/
def ofTables (t : Table (Table String)) : Json :=
  .obj (t.entries.map fun e => (e.1, .obj (e.2.entries.map fun f => (f.1, .str f.2))))

theorem reads_table {indent : String} (spaces : ∀ c ∈ indent.toList, isSpace c = true)
    (depth : Nat) (t : Table String) :
    Reads (depth + 1) (object indent (t.map quote).entries)
      (.obj (t.entries.map fun f => (f.1, .str f.2))) := by
  have hitems : ∀ item ∈ t.entries.map fun f => (f.1, quote f.2, Json.str f.2),
      Reads depth item.2.1 item.2.2 := by
    intro item hitem
    obtain ⟨f, -, rfl⟩ := List.mem_map.mp hitem
    exact reads_quote depth f.2
  have hreads := reads_object spaces hitems
  simp only [List.map_map] at hreads
  exact hreads

theorem reads_render (t : Table (Table String)) : Reads 127 (render t) (ofTables t) := by
  have hitems : ∀ item ∈ t.entries.map fun e => (e.1, object "  " (e.2.map quote).entries,
      Json.obj (e.2.entries.map fun f => (f.1, .str f.2))), Reads 126 item.2.1 item.2.2 := by
    intro item hitem
    obtain ⟨e, -, rfl⟩ := List.mem_map.mp hitem
    exact reads_table (by simp [isSpace]) 125 e.2
  have hblank : ∀ c ∈ ("" : String).toList, isSpace c = true := by simp
  have hreads := reads_object hblank hitems
  simp only [List.map_map] at hreads
  exact hreads

/-- What has been rendered is read as the document it was rendered from. -/
theorem parse?_render (t : Table (Table String)) : parse? (render t) = some (ofTables t) := by
  have hread := reads_render t (2 * (render t).toList.length + 2) [] (by omega)
  rw [List.append_nil] at hread
  simp only [parse?, hread, Option.bind_eq_bind, Option.bind_some]
  rfl

theorem parseBytes?_render (t : Table (Table String)) :
    parseBytes? (render t).toUTF8 = some (ofTables t) := by
  rw [parseBytes?, fromUTF8?_toUTF8, Option.bind_eq_bind, Option.bind_some, parse?_render]

end Toolflow.Json
