import Toolflow.Shell.FileTools
import Toolflow.Shell.Format
import Toolflow.Shell.Regular

/-! Tools that work on text. They treat each byte as a character of its own, so that any content
passes through unchanged. -/
namespace Toolflow.Shell.TextTools

open Run FileTools

/-- The characters whose codes are the bytes. -/
def charsOf (bytes : ByteArray) : List Char := bytes.toList.map fun b => Char.ofNat b.toNat

def bytesOf (cs : List Char) : ByteArray :=
  ByteArray.mk (cs.map fun c => UInt8.ofNat c.toNat).toArray

/-- An argument as the characters of its bytes. -/
def argument (s : String) : List Char := charsOf s.toUTF8

/-- A text cut into lines; the last one need not be closed. -/
def lines : List Char → List (List Char)
  | [] => []
  | c :: rest =>
    if c = '\n' then [] :: lines rest
    else match lines rest with
      | [] => [[c]]
      | l :: ls => (c :: l) :: ls

def writeLines (ls : List (List Char)) : Run Unit :=
  write 1 (bytesOf (ls.flatMap (· ++ ['\n'])))

/-- The content of each of the files, or what is left to read where there are none. -/
def sources (program : String) (paths : List String) :
    Run (List (String × List Char) × Nat) := do
  (if paths.isEmpty then ["-"] else paths).foldlM (fun (texts, code) path => do
    if path = "-" then return (texts ++ [(path, charsOf (← readAll))], code)
    match (← disk).read path with
    | .ok content => return (texts ++ [(path, charsOf content)], code)
    | .error fault =>
      let failed ← fail program s!"{path}: {fault.text}"
      return (texts, failed)) ([], 0)

/-- The content of the files one behind the other. -/
def contents (program : String) (paths : List String) : Run (List Char × Nat) := do
  let (texts, code) ← sources program paths
  return (texts.flatMap (·.2), code)

/-- The classes of characters by name. -/
def classNames : List String :=
  ["alpha", "digit", "alnum", "upper", "lower", "blank", "space", "xdigit", "cntrl", "graph",
    "print", "punct"]

/-- The members of a set that `tr` is given. A round takes a character, so fuel above their number
is enough. -/
def members : Nat → List Char → List Char
  | 0, _ => []
  | _ + 1, [] => []
  | fuel + 1, '[' :: ':' :: rest =>
    match classNames.find? fun n => (n.toList ++ [':', ']']).isPrefixOf rest with
    | some n =>
      ((List.range 256).map Char.ofNat).filter (Pattern.inClass n ·)
        ++ members fuel (rest.drop (n.length + 2))
    | none => '[' :: members fuel (':' :: rest)
  | fuel + 1, '\\' :: rest =>
    match rest with
    | [] => ['\\']
    | _ =>
      let (b, rest) := Format.escape rest
      let cs := charsOf b
      (if cs.length = 2 then cs.drop 1 else cs) ++ members fuel rest
  | fuel + 1, a :: '-' :: b :: rest =>
    if b = '\\' then a :: members fuel ('-' :: b :: rest)
    else (List.range (b.toNat + 1 - a.toNat)).map (fun i => Char.ofNat (a.toNat + i))
      ++ members fuel rest
  | fuel + 1, c :: rest => c :: members fuel rest

def setOf (s : String) : List Char := members (s.utf8ByteSize + 1) (argument s)

/-- Runs of one member of a set, cut down to a single one. -/
def squeeze (set : List Char) : List Char → List Char
  | [] => []
  | c :: rest =>
    match rest with
    | d :: _ => if c = d ∧ set.contains c then squeeze set rest else c :: squeeze set rest
    | [] => [c]

def tr (args : List String) : Run Nat := do
  let (letters, sets) := options args
  let text := charsOf (← readAll)
  let first := setOf (sets.headD "")
  let first := if letters.any (· ∈ ['c', 'C']) then
      ((List.range 256).map Char.ofNat).filter (!first.contains ·) else first
  let second := (sets[1]?).map setOf
  let text :=
    if letters.contains 'd' then text.filter (!first.contains ·)
    else match second with
      | none => text
      | some second =>
        text.map fun c =>
          match first.idxOf? c with
          | some i => (second[i]?.or second.getLast?).getD c
          | none => c
  let squeezed := second.getD first
  write 1 (bytesOf (if letters.contains 's' then squeeze squeezed text else text))
  return 0

/-- Which lines a command of the line editor is meant for. -/
inductive Address where
  | number (n : Nat)
  | last
  | matching (r : Regular)

/-- What the line editor does with a line. -/
inductive Edit where
  | substitute (r : Regular) (replacement : List Char) (every print : Bool) (nth : Nat)
  | delete
  | print
  | quit

structure EditCommand where
  first : Option Address := none
  second : Option Address := none
  negated : Bool := false
  edit : Edit

/-- Cuts a text at a delimiter; one behind a backslash stands for itself. -/
def cutAt (delimiter : Char) : List Char → Option (List Char × List Char)
  | [] => none
  | '\\' :: c :: rest =>
    (cutAt delimiter rest).map fun (text, after) =>
      (if c = delimiter then c :: text else '\\' :: c :: text, after)
  | c :: rest =>
    if c = delimiter then some ([], rest)
    else (cutAt delimiter rest).map fun (text, after) => (c :: text, after)

def address? (extended : Bool) (cs : List Char) : Option (Option Address × List Char) :=
  match cs with
  | '$' :: rest => some (some .last, rest)
  | '/' :: rest => do
    let (text, rest) ← cutAt '/' rest
    return (some (.matching (← Regular.parse? extended text)), rest)
  | _ =>
    let digits := cs.takeWhile Char.isDigit
    if digits.isEmpty then some (none, cs)
    else some ((String.ofList digits).toNat?.map .number, cs.drop digits.length)

/-- Reads the commands of the line editor. A round takes a character, so fuel above their number is
enough. -/
def editCommands? (extended : Bool) : Nat → List Char → Option (List EditCommand)
  | 0, _ => none
  | fuel + 1, cs => do
    let cs := cs.dropWhile fun c => c == ' ' || c == ';' || c == '\n' || c == '\t'
    if cs.isEmpty then return []
    let (first, cs) ← address? extended cs
    let (second, cs) ← match cs with
      | ',' :: rest => address? extended rest
      | _ => some (none, cs)
    let cs := cs.dropWhile (· = ' ')
    let negated := cs.head? = some '!'
    let cs := if negated then cs.drop 1 else cs
    let (edit, cs) ← match cs with
      | 'd' :: rest => some (Edit.delete, rest)
      | 'p' :: rest => some (.print, rest)
      | 'q' :: rest => some (.quit, rest)
      | 's' :: delimiter :: rest => do
        let (expression, rest) ← cutAt delimiter rest
        let (replacement, rest) ← cutAt delimiter rest
        let flags := rest.takeWhile fun c => c == 'g' || c == 'p' || c.isDigit
        let nth := ((String.ofList (flags.filter Char.isDigit)).toNat?).getD 1
        let r ← Regular.parse? extended expression
        some (.substitute r replacement (flags.contains 'g') (flags.contains 'p') nth,
          rest.drop flags.length)
      | _ => none
    return { first, second, negated, edit } :: (← editCommands? extended fuel cs)

/-- What a replacement writes for a match. -/
def replacementText (found : List Char) (groups : List (Nat × List Char)) : List Char → List Char
  | [] => []
  | '&' :: rest => found ++ replacementText found groups rest
  | '\\' :: c :: rest =>
    (if c.isDigit then (groups.lookup (c.toNat - '0'.toNat)).getD (if c = '0' then found else [])
      else if c = 'n' then ['\n'] else if c = 't' then ['\t'] else [c])
      ++ replacementText found groups rest
  | c :: rest => c :: replacementText found groups rest

/-- Replaces matches from the `nth` on. Each round takes a character, so fuel above their number is
enough. -/
def substitute (r : Regular) (replacement : List Char) (every : Bool) :
    Nat → Nat → Bool → List Char → Option (List Char)
  | 0, _, _, _ => none
  | fuel + 1, nth, atStart, cs => do
    let (before, found, p) ← r.find? atStart cs
    let written := if nth ≤ 1 then replacementText found p.groups replacement else found
    let (moved, rest) := match found, p.rest with
      | [], c :: rest => ([c], rest)
      | _, rest => ([], rest)
    let more :=
      if (nth ≤ 1 ∧ ¬ every) ∨ (found.isEmpty ∧ p.rest.isEmpty) then none
      else substitute r replacement every fuel (nth - 1) false rest
    match more with
    | some text => return before ++ written ++ moved ++ text
    | none => if nth ≤ 1 then return before ++ written ++ moved ++ rest else none

/-- A line under the editor's hands. -/
structure Editing where
  text : List Char
  printed : List (List Char) := []
  deleted : Bool := false
  quit : Bool := false

def addressed (number : Nat) (isLast : Bool) (text : List Char) : Address → Bool
  | .number n => n = number
  | .last => isLast
  | .matching r => (r.find? true text).isSome

/-- Runs commands on one line. `inside` tells which of the commands with two addresses are between
them. -/
def editLine (number : Nat) (isLast : Bool) : List EditCommand → List Bool → Editing →
    Editing × List Bool
  | [], _, e => (e, [])
  | c :: cs, inside, e =>
    let was := inside.headD false
    let (hit, still) := match c.first, c.second with
      | none, _ => (true, false)
      | some a, none => (addressed number isLast e.text a, false)
      | some a, some b =>
        if was then (true, !addressed number isLast e.text b)
        else if addressed number isLast e.text a then
          (true, match b with
            | .number n => number < n
            | _ => true)
        else (false, false)
    let e := if e.deleted || e.quit || hit == c.negated then e
      else match c.edit with
        | .delete => { e with deleted := true }
        | .print => { e with printed := e.printed ++ [e.text] }
        | .quit => { e with quit := true }
        | .substitute r replacement every print nth =>
          match substitute r replacement every (e.text.length + 2) nth true e.text with
          | some text =>
            { e with text, printed := if print then e.printed ++ [text] else e.printed }
          | none => e
    let (e, rest) := editLine number isLast cs (inside.drop 1) e
    (e, still :: rest)

/-- The lines that editing leaves. -/
def editLines (quiet : Bool) (commands : List EditCommand) :
    Nat → List Bool → List (List Char) → List (List Char)
  | _, _, [] => []
  | number, inside, l :: ls =>
    let (e, inside) := editLine number ls.isEmpty commands inside { text := l }
    let own := e.printed ++ (if e.deleted || quiet then [] else [e.text])
    if e.quit then own else own ++ editLines quiet commands (number + 1) inside ls

def sed (args : List String) : Run Nat := do
  let quiet := args.contains "-n"
  let extended := args.contains "-E" || args.contains "-r"
  let inPlace := args.contains "-i"
  let rest := args.filter (· ∉ ["-n", "-E", "-r", "-i"])
  let rec scripts : List String → List String × List String
    | "-e" :: script :: more =>
      let (ss, others) := scripts more
      (script :: ss, others)
    | a :: more =>
      let (ss, others) := scripts more
      (ss, a :: others)
    | [] => ([], [])
  let (ss, others) := scripts rest
  let (script, paths) := if ss.isEmpty then (others.headD "", others.drop 1)
    else ("\n".intercalate ss, others)
  match editCommands? extended (script.utf8ByteSize + 2) (argument script) with
  | none => fail "sed" s!"-e expression #1, char 1: unknown command"
  | some commands =>
    let edited (text : List Char) : List Char :=
      let ls := (editLines quiet commands 1 [] (lines text)).flatMap (· ++ ['\n'])
      if text.getLast? = some '\n' then ls else ls.dropLast
    if inPlace then
      forEach paths fun path => do
        match (← disk).read path with
        | .error fault => fail "sed" s!"can't read {path}: {fault.text}" 2
        | .ok content =>
          settle "sed" path ((← disk).write path (bytesOf (edited (charsOf content))))
    else
      let (text, code) ← contents "sed" paths
      write 1 (bytesOf (edited text))
      return code

/-- A text cut into lines that keep their ends. -/
def wholeLines (text : List Char) : List (List Char) :=
  let ls := (lines text).map (· ++ ['\n'])
  if text.getLast? = some '\n' then ls else ls.dropLast ++ (ls.getLast?.map (·.dropLast)).toList

/-- How much of a text is wanted. -/
structure Extent where
  bytes : Bool := false
  size : String := "10"

/-- The extent that options such as `-n 3`, `-c3` or `-3` ask for, and the other arguments. -/
def extent : List String → Extent × List String
  | "-n" :: n :: rest => ({ size := n }, rest)
  | "-c" :: n :: rest => ({ bytes := true, size := n }, rest)
  | a :: rest =>
    match a.toList with
    | '-' :: 'n' :: digits => ({ size := String.ofList digits }, rest)
    | '-' :: 'c' :: digits => ({ bytes := true, size := String.ofList digits }, rest)
    | '-' :: c :: digits =>
      if c.isDigit then ({ size := String.ofList (c :: digits) }, rest) else ({}, a :: rest)
    | _ => ({}, a :: rest)
  | [] => ({}, [])

/-- The pieces of a text that an extent counts. -/
def Extent.pieces (e : Extent) (text : List Char) : List (List Char) :=
  if e.bytes then text.map ([·]) else wholeLines text

/-- Writes the chosen part of each source, under its name where there are several. -/
def excerpt (program : String) (args : List String)
    (choose : String → List (List Char) → List (List Char)) : Run Nat := do
  let (e, paths) := extent args
  let (texts, code) ← sources program paths
  texts.zipIdx.forM fun ((path, text), i) => do
    if paths.length > 1 then
      say ((if i = 0 then "" else "\n") ++ s!"==> {path} <==\n")
    write 1 (bytesOf (choose e.size (e.pieces text)).flatten)
  return code

def head (args : List String) : Run Nat :=
  excerpt "head" args fun size pieces =>
    match size.toList with
    | '-' :: digits => pieces.take (pieces.length - (String.ofList digits).toNat?.getD 0)
    | _ => pieces.take (size.toNat?.getD 10)

def tail (args : List String) : Run Nat :=
  excerpt "tail" args fun size pieces =>
    match size.toList with
    | '+' :: digits => pieces.drop (((String.ofList digits).toNat?.getD 1) - 1)
    | _ => pieces.drop (pieces.length - size.toNat?.getD 10)

/-- The number of runs of characters that are no blanks. -/
def wordCount (text : List Char) : Nat :=
  (text.foldl (fun (n, inWord) c =>
    if c.isWhitespace then (n, false) else (if inWord then n else n + 1, true)) (0, false)).1

/-- A number, filled up with blanks on its left. -/
def padded (width n : Nat) : String :=
  let digits := toString n
  String.ofList (List.replicate (width - digits.length) ' ') ++ digits

/-- Counts lines, words and bytes. Columns are as wide as the number of all bytes; that number is
not known beforehand of what is still to be read. -/
def wc (args : List String) : Run Nat := do
  let (letters, paths) := options args
  let (texts, code) ← sources "wc" paths
  let counts (text : List Char) : List Nat :=
    [('l', text.count '\n'), ('w', wordCount text), ('c', text.length)].filterMap fun (l, n) =>
      if letters.isEmpty || letters.contains l || (l == 'c' && letters.contains 'm') then some n
      else none
  let total := counts (texts.flatMap (·.2))
  let width :=
    if total.length = 1 ∧ paths.length ≤ 1 then 1
    else max (if paths.isEmpty ∨ paths.contains "-" then 7 else 1)
      (toString (texts.flatMap (·.2)).length).length
  let row (name : String) (ns : List Nat) : String :=
    " ".intercalate (ns.map (padded width) ++ if name.isEmpty then [] else [name]) ++ "\n"
  texts.forM fun (path, text) => say (row (if paths.isEmpty then "" else path) (counts text))
  if paths.length > 1 then say (row "total" total)
  return code

def sort (args : List String) : Run Nat := do
  let (letters, paths) := options args
  let (text, code) ← contents "sort" paths
  let value (l : List Char) : Int := ((String.ofList ((l.dropWhile (· = ' ')).takeWhile
    fun c => c.isDigit || c == '-')).toInt?).getD 0
  let le (a b : List Char) : Bool :=
    if letters.contains 'n' ∧ value a ≠ value b then value a < value b
    else decide (¬ String.ofList b < String.ofList a)
  let sorted := (lines text).mergeSort fun a b => if letters.contains 'r' then le b a else le a b
  writeLines (if letters.contains 'u' then sorted.eraseDups else sorted)
  return code

def uniq (args : List String) : Run Nat := do
  let (letters, paths) := options args
  let (text, code) ← contents "uniq" paths
  let groups := (lines text).splitBy (· == ·)
  let shown := groups.filter fun g =>
    (!letters.contains 'd' || g.length > 1) && (!letters.contains 'u' || g.length = 1)
  writeLines (shown.filterMap fun g => g.head?.map fun l =>
    if letters.contains 'c' then (padded 7 g.length).toList ++ ' ' :: l else l)
  return code

/-- The expression that a literal text is. -/
def literalText (cs : List Char) : Regular := cs.foldr (fun c r => .chain (.char c) r) .empty

/-- The parts of a line that match and are not empty. Each round takes a character, so fuel above
their number is enough. -/
def matchesIn (r : Regular) : Nat → (atStart : Bool) → List Char → List (List Char)
  | 0, _, _ => []
  | fuel + 1, atStart, cs =>
    match r.find? atStart cs with
    | none => []
    | some (_, [], p) => matchesIn r fuel false (p.rest.drop 1)
    | some (_, found, p) => found :: matchesIn r fuel false p.rest

def grep (args : List String) : Run Nat := do
  let (letters, rest) := options args
  let paths := rest.drop 1
  let text := argument (rest.headD "")
  let fold (cs : List Char) : List Char := if letters.contains 'i' then cs.map Char.toLower else cs
  let expression := if letters.contains 'F' then some (literalText (fold text))
    else Regular.parse? (letters.contains 'E') (fold text)
  match expression with
  | none => fail "grep" "Invalid regular expression" 2
  | some r =>
    let r := if letters.contains 'x' then .chain .lineStart (.chain r .lineEnd) else r
    let (texts, code) ← sources "grep" paths
    let hits : List (String × List (List Char × Nat)) := texts.map fun (path, text) =>
      (path, ((lines text).zipIdx 1).filter fun (l, _) =>
        (r.find? true (fold l)).isSome != letters.contains 'v')
    let named := (paths.length > 1 || letters.contains 'H') && !letters.contains 'h'
    hits.forM fun (path, ls) => do
      let origin := if named then path ++ ":" else ""
      if letters.contains 'q' then return
      else if letters.contains 'l' then
        if ¬ ls.isEmpty then say s!"{path}\n"
      else if letters.contains 'c' then say s!"{origin}{ls.length}\n"
      else ls.forM fun (l, n) => do
        let place := argument (origin ++ if letters.contains 'n' then s!"{n}:" else "")
        let shown := if letters.contains 'o' then matchesIn r (l.length + 1) true l else [l]
        writeLines (shown.map (place ++ ·))
    return if code ≠ 0 then 2 else if hits.all (·.2.isEmpty) then 1 else 0

/-- The numbers of a list such as `1,3-5`, as ranges. -/
def ranges (s : String) : List (Nat × Option Nat) :=
  (s.splitOn ",").map fun part =>
    match part.splitOn "-" with
    | [a] => (a.toNat?.getD 1, some (a.toNat?.getD 1))
    | a :: b :: _ => (a.toNat?.getD 1, b.toNat?)
    | [] => (1, none)

/-- A line cut at each delimiter. -/
def fieldsAt (delimiter : Char) : List Char → List (List Char)
  | [] => [[]]
  | c :: rest =>
    if c = delimiter then [] :: fieldsAt delimiter rest
    else match fieldsAt delimiter rest with
      | [] => [[c]]
      | field :: fields => (c :: field) :: fields

def cut (args : List String) : Run Nat := do
  let rec read : List String → Char × String × Bool × List String
    | "-d" :: d :: rest =>
      let (_, fields, bytes, paths) := read rest
      (d.toList.headD '\t', fields, bytes, paths)
    | "-f" :: f :: rest =>
      let (d, _, _, paths) := read rest
      (d, f, false, paths)
    | a :: rest =>
      let (d, fields, bytes, paths) := read rest
      match a.toList with
      | '-' :: 'd' :: c :: _ => (c, fields, bytes, paths)
      | '-' :: 'f' :: f => (d, String.ofList f, false, paths)
      | '-' :: 'c' :: f | '-' :: 'b' :: f => (d, String.ofList f, true, paths)
      | _ => (d, fields, bytes, a :: paths)
    | [] => ('\t', "1", false, [])
  let (delimiter, fields, bytes, paths) := read args
  let rs := ranges fields
  let chosen (n : Nat) : Bool := rs.any fun (a, b) => a ≤ n && b.all (n ≤ ·)
  let pick {α : Type} (xs : List α) : List α :=
    (xs.zipIdx 1).filterMap fun (x, n) => if chosen n then some x else none
  let (text, code) ← contents "cut" paths
  writeLines ((lines text).map fun l =>
    if bytes then pick l
    else if ¬ l.contains delimiter then l
    else
      [delimiter].intercalate (pick (fieldsAt delimiter l)))
  return code

def seq (args : List String) : Run Nat := do
  let ns := args.filterMap (·.toInt?)
  let (first, step, last) : Int × Int × Int := match ns with
    | [a] => (1, 1, a)
    | [a, b] => (a, 1, b)
    | a :: s :: b :: _ => (a, s, b)
    | [] => (1, 1, 0)
  let size := if step = 0 then 0 else ((last - first).fdiv step + 1).toNat
  say (String.join ((List.range size).map fun (i : Nat) => s!"{first + step * i}\n"))
  return 0

def basename (args : List String) : Run Nat := do
  let path := args.headD ""
  let name := match (Pathname.names path).getLast? with
    | some name => name
    | none => if Pathname.isAbsolute path then "/" else path
  let name := match args[1]? with
    | some ending =>
      if ending.toList.isSuffixOf name.toList && ending != name then
        String.ofList (name.toList.take (name.length - ending.length))
      else name
    | none => name
  say s!"{name}\n"
  return 0

def dirname (args : List String) : Run Nat := do
  args.forM fun path => say s!"{Pathname.directoryOf path}\n"
  return 0

end Toolflow.Shell.TextTools
