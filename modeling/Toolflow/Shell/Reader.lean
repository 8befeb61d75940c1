import Toolflow.Shell.Script

/-! Reading shell scripts.

A script is read one command line at a time, so that the lines before a mistake still run. Every
function of the reader spends one unit of fuel for each call; no chain of calls is longer than a
fixed number for each character of the text. -/
namespace Toolflow.Shell

/-- What is left of a script, and the number of the line it starts on. -/
structure Cursor where
  rest : List Char
  line : Nat

abbrev Reader := StateT Cursor Option

namespace Reader

def peek : Reader (Option Char) := return (← get).rest.head?

def rest : Reader (List Char) := return (← get).rest

/-- Takes a number of characters. -/
def skip (n : Nat) : Reader Unit :=
  modify fun c => {
    rest := c.rest.drop n
    line := c.line + (c.rest.take n).count '\n' }

/-- Takes the characters of a text if they come next. -/
def take? (text : String) : Reader Bool := do
  if text.toList.isPrefixOf (← rest) then
    skip text.length
    return true
  return false

def expect (text : String) : Reader Unit := do
  if ¬ (← take? text) then failure

/-- The number of blanks, joined lines and characters of a comment in front of a text. -/
def blankLength (cs : List Char) : Nat :=
  match cs with
  | ' ' :: rest | '\t' :: rest => blankLength rest + 1
  | '\\' :: '\n' :: rest => blankLength rest + 2
  | '#' :: rest => (rest.takeWhile (· ≠ '\n')).length + 1
  | _ => 0

def skipBlanks : Reader Unit := do skip (blankLength (← rest))

def newlineLength : Nat → List Char → Nat
  | 0, _ => 0
  | fuel + 1, cs =>
    let n := blankLength cs
    match cs.drop n with
    | '\n' :: rest => n + 1 + newlineLength fuel rest
    | _ => n

/-- Takes blanks, comments and line ends. -/
def skipNewlines : Reader Unit := do
  let cs ← rest
  skip (newlineLength (cs.length + 1) cs)

/-- Characters that end a word outside quotes. -/
def endsWord (c : Char) : Bool := c ∈ [' ', '\t', '\n', ';', '&', '|', '<', '>', '(', ')']

def isNameStart (c : Char) : Bool := c.isAlpha || c == '_'

def isNameChar (c : Char) : Bool := c.isAlphanum || c == '_'

def isName (cs : List Char) : Bool :=
  match cs with
  | c :: rest => isNameStart c && rest.all isNameChar
  | [] => false

/-- The text up to the end of a word, where it could be a keyword. -/
def keyword : Reader String := do
  return String.ofList ((← rest).takeWhile (!endsWord ·))

/-- Keywords that end a list of commands. -/
def closers : List String := ["then", "else", "elif", "fi", "do", "done", "esac", "\x7d"]

/-- Whether a list of commands is over. -/
def atEnd : Reader Bool := do
  match ← rest with
  | [] | ')' :: _ | ';' :: ';' :: _ => return true
  | _ => return closers.contains (← keyword)

def expectKeyword (text : String) : Reader Unit := do
  skipNewlines
  if (← keyword) = text then skip text.length else failure

/-- Cuts the lines of a document up to its closing line out of a text that starts behind the
opening. -/
def cutDocument (stripTabs : Bool) (closing : List Char) (cs : List Char) :
    List Char × List Char :=
  let head := cs.takeWhile (· ≠ '\n')
  let lines := (String.ofList (cs.drop (head.length + 1))).splitOn "\n"
  let lines := lines.map fun l => if stripTabs then l.toList.dropWhile (· = '\t') else l.toList
  let body := lines.takeWhile (· ≠ closing)
  let after := lines.drop (body.length + 1)
  ((body.map (· ++ ['\n'])).flatten, head ++ '\n' :: ['\n'].intercalate after)

/-- The text of a word without its quotes. -/
def plainText : List Part → String
  | [] => ""
  | .plain s :: rest | .literal s :: rest => s ++ plainText rest
  | .quoted _ :: rest => plainText rest
  | _ :: rest => plainText rest

/-- The text between backquotes: where it ends, and its characters with the escapes of `\x60`, `$`
and `\` taken off. -/
def backquoted? : List Char → Option (List Char × List Char)
  | [] => none
  | '\x60' :: rest => some ([], rest)
  | '\\' :: c :: rest =>
    (backquoted? rest).map fun (text, after) =>
      (if c ∈ ['$', '\\', '\x60'] then c :: text else '\\' :: c :: text, after)
  | c :: rest => (backquoted? rest).map fun (text, after) => (c :: text, after)

/-- The parts of a text that is known to hold no quotes. -/
def singleQuoted : Reader Part := do
  let text := (← rest).takeWhile (· ≠ '\'')
  skip text.length
  expect "'"
  return .literal (String.ofList text)

/-- A file descriptor in front of a redirection. -/
def descriptor? : Reader (Option Nat) := do
  let cs ← rest
  let digits := cs.takeWhile Char.isDigit
  match cs.drop digits.length with
  | '<' :: _ => return some ((String.ofList digits).toNat?.getD 0)
  | '>' :: _ => return some ((String.ofList digits).toNat?.getD 1)
  | _ => return none

/-- The name of a parameter in front of a text. -/
def parameterName (cs : List Char) : List Char :=
  match cs with
  | [] => []
  | c :: rest =>
    if isNameStart c then c :: rest.takeWhile isNameChar
    else if c.isDigit then c :: rest.takeWhile Char.isDigit
    else if c ∈ ['@', '*', '#', '?', '-', '$', '!'] then [c]
    else []

mutual

/-- Commands separated by `;` and `&`; line ends also separate them when `nested`. -/
def list : Nat → Bool → Reader Script
  | 0, _ => failure
  | fuel + 1, nested => do
    if nested then skipNewlines else skipBlanks
    if ← atEnd then return .nothing
    if (← peek) = some '\n' then
      skip 1
      return .nothing
    let first ← andOr fuel
    skipBlanks
    match ← rest with
    | ';' :: ';' :: _ => return first
    | ';' :: _ =>
      skip 1
      return .sequence first (← list fuel nested)
    | '&' :: _ =>
      skip 1
      return .sequence (.background first) (← list fuel nested)
    | '\n' :: _ =>
      skip 1
      if nested then return .sequence first (← list fuel nested)
      return first
    | _ => if ← atEnd then return first else failure

def andOr : Nat → Reader Script
  | 0 => failure
  | fuel + 1 => do
    let first ← pipeline fuel
    andOrRest fuel first

def andOrRest : Nat → Script → Reader Script
  | 0, _ => failure
  | fuel + 1, first => do
    skipBlanks
    if ← take? "&&" then
      skipNewlines
      andOrRest fuel (.both first (← pipeline fuel))
    else if ← take? "||" then
      skipNewlines
      andOrRest fuel (.either first (← pipeline fuel))
    else return first

def pipeline : Nat → Reader Script
  | 0 => failure
  | fuel + 1 => do
    skipBlanks
    if (← keyword) = "!" then
      skip 1
      return .not (← pipeline fuel)
    let first ← command fuel
    pipelineRest fuel first

def pipelineRest : Nat → Script → Reader Script
  | 0, _ => failure
  | fuel + 1, first => do
    skipBlanks
    match ← rest with
    | '|' :: '|' :: _ => return first
    | '|' :: _ =>
      skip 1
      skipNewlines
      let second ← command fuel
      return .pipe first (← pipelineRest fuel second)
    | _ => return first

def command : Nat → Reader Script
  | 0 => failure
  | fuel + 1 => do
    skipBlanks
    let line := (← get).line
    let body? ← compound fuel
    match body? with
    | some body =>
      match ← redirections fuel with
      | [] => return body
      | rs => return .redirected line body rs
    | none => simple fuel line [] [] []

/-- A command that starts with a keyword or a bracket. -/
def compound : Nat → Reader (Option Script)
  | 0 => failure
  | fuel + 1 => do
    if (← peek) = some '(' then
      skip 1
      let body ← list fuel true
      skipNewlines
      expect ")"
      return some (.subshell body)
    match ← keyword with
    | "\x7b" =>
      skip 1
      let body ← list fuel true
      expectKeyword "\x7d"
      return some body
    | "if" =>
      skip 2
      return some (← conditional fuel)
    | "while" =>
      skip 5
      return some (.loop true (← list fuel true) (← doGroup fuel))
    | "until" =>
      skip 5
      return some (.loop false (← list fuel true) (← doGroup fuel))
    | "for" =>
      skip 3
      skipBlanks
      let name := (← rest).takeWhile isNameChar
      if ¬ isName name then failure
      skip name.length
      skipNewlines
      let words ← if (← keyword) = "in" then do
          skip 2
          pure (some (← wordList fuel))
        else pure none
      skipBlanks
      let _ ← take? ";"
      return some (.each (String.ofList name) words (← doGroup fuel))
    | "case" =>
      skip 4
      skipBlanks
      match ← word fuel with
      | none => failure
      | some subject =>
        expectKeyword "in"
        return some (.cases subject (← clauses fuel))
    | _ => return none

def doGroup : Nat → Reader Script
  | 0 => failure
  | fuel + 1 => do
    expectKeyword "do"
    let body ← list fuel true
    expectKeyword "done"
    return body

/-- What follows `if` or `elif`. -/
def conditional : Nat → Reader Script
  | 0 => failure
  | fuel + 1 => do
    let condition ← list fuel true
    expectKeyword "then"
    let consequence ← list fuel true
    skipNewlines
    match ← keyword with
    | "elif" =>
      skip 4
      return .conditional condition consequence (← conditional fuel)
    | "else" =>
      skip 4
      let alternative ← list fuel true
      expectKeyword "fi"
      return .conditional condition consequence alternative
    | _ =>
      expectKeyword "fi"
      return .conditional condition consequence .nothing

/-- The clauses of `case` up to `esac`. -/
def clauses : Nat → Reader (List (List (List Part) × Script))
  | 0 => failure
  | fuel + 1 => do
    skipNewlines
    if (← keyword) = "esac" then
      skip 4
      return []
    let _ ← take? "("
    let patterns ← patternList fuel
    let body ← list fuel true
    skipNewlines
    if ← take? ";;" then return (patterns, body) :: (← clauses fuel)
    expectKeyword "esac"
    return [(patterns, body)]

/-- The patterns of a clause up to `)`. -/
def patternList : Nat → Reader (List (List Part))
  | 0 => failure
  | fuel + 1 => do
    skipBlanks
    match ← word fuel with
    | none => failure
    | some pattern =>
      skipBlanks
      if ← take? "|" then return pattern :: (← patternList fuel)
      expect ")"
      return [pattern]

def wordList : Nat → Reader (List (List Part))
  | 0 => failure
  | fuel + 1 => do
    skipBlanks
    match ← word fuel with
    | some w => return w :: (← wordList fuel)
    | none => return []

def redirections : Nat → Reader (List Redirection)
  | 0 => failure
  | fuel + 1 => do
    skipBlanks
    match ← descriptor? with
    | some n => return (← redirection fuel n) :: (← redirections fuel)
    | none => return []

/-- A redirection of the descriptor `n`, which stands in front of the operator. -/
def redirection : Nat → Nat → Reader Redirection
  | 0, _ => failure
  | fuel + 1, n => do
    skip ((← rest).takeWhile Char.isDigit).length
    if ← take? "<<-" then return ← document fuel n true
    if ← take? "<<" then return ← document fuel n false
    let direction ←
      if ← take? "<&" then pure Direction.duplicate
      else if ← take? ">&" then pure Direction.duplicate
      else if ← take? "<>" then pure Direction.readWrite
      else if ← take? ">>" then pure Direction.append
      else if ← take? ">|" then pure Direction.write
      else if ← take? ">" then pure Direction.write
      else do
        expect "<"
        pure Direction.read
    skipBlanks
    match ← word fuel with
    | some target => return .connected n direction target
    | none => failure

/-- A document that follows the line it is opened on. -/
def document : Nat → Nat → Bool → Reader Redirection
  | 0, _, _ => failure
  | fuel + 1, n, stripTabs => do
    skipBlanks
    let opening ← rest
    match ← word fuel with
    | none => failure
    | some closing =>
      let raw := opening.take (opening.length - (← rest).length)
      let (body, after) := cutDocument stripTabs
        (if raw.any (· ∈ ['\'', '"', '\\']) then raw.filter (· ∉ ['\'', '"', '\\'])
          else (plainText closing).toList) (← rest)
      modify fun c => { c with rest := after }
      if raw.any (· ∈ ['\'', '"', '\\']) then
        return .document n [.literal (String.ofList body)]
      match (between fuel none).run { rest := body, line := (← get).line } with
      | some (parts, _) => return .document n parts
      | none => failure

/-- Assignments, words and redirections of a simple command, gathered in reverse. -/
def simple : Nat → Nat → List (String × List Part) → List (List Part) → List Redirection →
    Reader Script
  | 0, _, _, _, _ => failure
  | fuel + 1, line, assignments, words, rs => do
    skipBlanks
    match ← descriptor? with
    | some n => simple fuel line assignments words ((← redirection fuel n) :: rs)
    | none =>
      let cs ← rest
      let name := cs.takeWhile isNameChar
      if words.isEmpty ∧ isName name ∧ (cs.drop name.length).head? = some '=' then
        skip (name.length + 1)
        let value := (← word fuel).getD []
        simple fuel line ((String.ofList name, value) :: assignments) words rs
      else match ← word fuel with
        | some w =>
          skipBlanks
          if words.isEmpty ∧ assignments.isEmpty ∧ (← peek) = some '(' then
            skip 1
            skipBlanks
            expect ")"
            skipNewlines
            return .define (plainText w) (← command fuel)
          simple fuel line assignments (w :: words) rs
        | none =>
          if words.isEmpty ∧ assignments.isEmpty ∧ rs.isEmpty then failure
          return .simple line assignments.reverse words.reverse rs.reverse

/-- A word, if one starts here. -/
def word : Nat → Reader (Option (List Part))
  | 0 => failure
  | fuel + 1 => do
    match ← wordParts fuel with
    | [] => return none
    | parts => return some parts

/-- The parts up to the end of a word. -/
def wordParts : Nat → Reader (List Part)
  | 0 => failure
  | fuel + 1 => do
    match ← rest with
    | [] => return []
    | '\\' :: '\n' :: _ =>
      skip 2
      wordParts fuel
    | '\\' :: c :: _ =>
      skip 2
      return .literal (String.singleton c) :: (← wordParts fuel)
    | '\'' :: _ =>
      skip 1
      return (← singleQuoted) :: (← wordParts fuel)
    | '"' :: _ =>
      skip 1
      let inner ← between fuel (some '"')
      return .quoted inner :: (← wordParts fuel)
    | '$' :: _ => return (← dollar fuel false) :: (← wordParts fuel)
    | '\x60' :: _ => return (← backquote fuel) :: (← wordParts fuel)
    | c :: _ =>
      if endsWord c then return []
      skip 1
      return .plain (String.singleton c) :: (← wordParts fuel)

/-- Parts that are not split, up to a closing character or the end of the text. -/
def between : Nat → Option Char → Reader (List Part)
  | 0, _ => failure
  | fuel + 1, closing => do
    match ← rest with
    | [] => if closing.isNone then return [] else failure
    | '\\' :: '\n' :: _ =>
      skip 2
      between fuel closing
    | '\\' :: c :: _ =>
      skip 2
      if c ∈ ['$', '\\', '\x60'] ∨ closing = some c then
        return .literal (String.singleton c) :: (← between fuel closing)
      return .literal (String.ofList ['\\', c]) :: (← between fuel closing)
    | '$' :: _ => return (← dollar fuel true) :: (← between fuel closing)
    | '\x60' :: _ => return (← backquote fuel) :: (← between fuel closing)
    | c :: _ =>
      skip 1
      if closing = some c then return []
      return .literal (String.singleton c) :: (← between fuel closing)

def backquote : Nat → Reader Part
  | 0 => failure
  | fuel + 1 => do
    match backquoted? ((← rest).drop 1) with
    | none => failure
    | some (text, after) =>
      let line := (← get).line
      skip ((← rest).length - after.length)
      match (list fuel true).run { rest := text, line } with
      | some (script, end_) => if end_.rest.isEmpty then return .output script else failure
      | none => failure

/-- What follows a dollar sign, itself included. -/
def dollar : Nat → Bool → Reader Part
  | 0, _ => failure
  | fuel + 1, quoted => do
    skip 1
    match ← rest with
    | '(' :: '(' :: _ =>
      skip 2
      return .arithmetic (← arithmetic fuel 0)
    | '(' :: _ =>
      skip 1
      let script ← list fuel true
      skipNewlines
      expect ")"
      return .output script
    | '\x7b' :: _ =>
      skip 1
      braces fuel quoted
    | cs =>
      match parameterName cs with
      | [] => return .literal "$"
      | c :: name =>
        if c.isDigit then
          skip 1
          return .parameter (String.singleton c)
        skip (name.length + 1)
        return .parameter (String.ofList (c :: name))

/-- The parts of an arithmetic expression up to `))`; `depth` counts its open brackets. -/
def arithmetic : Nat → Nat → Reader (List Part)
  | 0, _ => failure
  | fuel + 1, depth => do
    match ← rest with
    | [] => failure
    | ')' :: ')' :: _ =>
      if depth = 0 then
        skip 2
        return []
      skip 1
      return .literal ")" :: (← arithmetic fuel (depth - 1))
    | '$' :: _ => return (← dollar fuel true) :: (← arithmetic fuel depth)
    | '\x60' :: _ => return (← backquote fuel) :: (← arithmetic fuel depth)
    | c :: _ =>
      skip 1
      let depth := if c = '(' then depth + 1 else if c = ')' then depth - 1 else depth
      return .literal (String.singleton c) :: (← arithmetic fuel depth)

/-- A parameter between braces, behind the opening one. -/
def braces : Nat → Bool → Reader Part
  | 0, _ => failure
  | fuel + 1, quoted => do
    let cs ← rest
    match cs with
    | '#' :: more =>
      let name := parameterName more
      if ¬ name.isEmpty ∧ (more.drop name.length).head? = some '\x7d' then
        skip (name.length + 2)
        return .length (String.ofList name)
    | _ => pure ()
    let name := parameterName cs
    if name.isEmpty then failure
    skip name.length
    let name := String.ofList name
    let colon ← take? ":"
    match ← peek with
    | some '-' => return .fallback name .replace colon (← operand fuel quoted)
    | some '=' => return .fallback name .assign colon (← operand fuel quoted)
    | some '?' => return .fallback name .complain colon (← operand fuel quoted)
    | some '+' => return .fallback name .alternative colon (← operand fuel quoted)
    | some '%' =>
      if colon then failure
      let longest := (← rest).take 2 = ['%', '%']
      if longest then skip 1
      return .cut name true longest (← operand fuel false)
    | some '#' =>
      if colon then failure
      let longest := (← rest).take 2 = ['#', '#']
      if longest then skip 1
      return .cut name false longest (← operand fuel false)
    | some '\x7d' =>
      if colon then failure
      skip 1
      return .parameter name
    | _ => failure

/-- The word behind an operator, which is skipped, up to the closing brace. -/
def operand : Nat → Bool → Reader (List Part)
  | 0, _ => failure
  | fuel + 1, quoted => do
    skip 1
    if quoted then between fuel (some '\x7d') else braceParts fuel

/-- Parts up to a closing brace. -/
def braceParts : Nat → Reader (List Part)
  | 0 => failure
  | fuel + 1 => do
    match ← rest with
    | [] => failure
    | '\x7d' :: _ =>
      skip 1
      return []
    | '\\' :: '\n' :: _ =>
      skip 2
      braceParts fuel
    | '\\' :: c :: _ =>
      skip 2
      return .literal (String.singleton c) :: (← braceParts fuel)
    | '\'' :: _ =>
      skip 1
      return (← singleQuoted) :: (← braceParts fuel)
    | '"' :: _ =>
      skip 1
      let inner ← between fuel (some '"')
      return .quoted inner :: (← braceParts fuel)
    | '$' :: _ => return (← dollar fuel false) :: (← braceParts fuel)
    | '\x60' :: _ => return (← backquote fuel) :: (← braceParts fuel)
    | c :: _ =>
      skip 1
      return .plain (String.singleton c) :: (← braceParts fuel)

end

/-- The most calls a text can need: no more than twenty are under way for each character. -/
def fuelFor (cs : List Char) : Nat := 20 * (cs.length + 2)

end Reader

namespace Script

/-- Reads the next command line of a script. At the end of the script there is none. A line that
stops before its end stops at a closer without an opener. -/
def next? (c : Cursor) : Option (Option Script × Cursor) :=
  (do
    Reader.skipNewlines
    let cs ← Reader.rest
    if cs.isEmpty then return none
    let script ← Reader.list (Reader.fuelFor cs) false
    let taken := cs.take (cs.length - (← Reader.rest).length)
    if (← Reader.rest).isEmpty ∨ taken.getLast? = some '\n' then return some script
    failure : Reader _).run c

end Script
end Toolflow.Shell
