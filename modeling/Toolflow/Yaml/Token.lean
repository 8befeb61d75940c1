/-! Tokens of YAML, and the scanner that finds them.

The scanner goes through the text once. It keeps the column of every open block collection, and
for each flow level the place where a simple key may have begun: when a `:` turns up the key token
is put in front of it. Columns decide where block collections end. Nothing is said about faults
but that there is one. -/
namespace Toolflow.Yaml

inductive Token where
  | versionDirective
  | tagDirective (handle start : String)
  | documentStart
  | documentEnd
  | blockSequenceStart
  | blockMappingStart
  | blockEnd
  | flowSequenceStart
  | flowSequenceEnd
  | flowMappingStart
  | flowMappingEnd
  | blockEntry
  | flowEntry
  | key
  | value
  | alias (name : String)
  | anchor (name : String)
  | tag (handle suffix : String)
  | scalar (text : String) (isPlain : Bool)
  | streamEnd
deriving Repr, DecidableEq

/-- A place where a simple key may have begun: how many tokens came before, and where it is. -/
structure SimpleKey where
  required : Bool
  tokens : Nat
  index : Nat
  line : Nat
  column : Nat
deriving Repr

structure Scanner where
  rest : List Char
  index : Nat := 0
  line : Nat := 0
  column : Nat := 0
  tokens : Array Token := #[]
  /-- The open block collections' columns, innermost first; -1 is outside of all. -/
  indents : List Int := []
  indent : Int := -1
  /-- The possible simple keys, one entry per flow level, innermost first. -/
  keys : List (Option SimpleKey) := [none]
  keyAllowed : Bool := true

abbrev Scan := StateT Scanner Option

def isBreak (c : Char) : Bool :=
  c == '\n' || c == '\r' || c.toNat == 0x85 || c.toNat == 0x2028 || c.toNat == 0x2029

def isSpaceOrTab (c : Char) : Bool := c == ' ' || c == '\t'

/-- A blank, a line break, or the end of the text. -/
def isGap : Option Char → Bool
  | none => true
  | some c => isSpaceOrTab c || isBreak c

def isBreakOrEnd : Option Char → Bool
  | none => true
  | some c => isBreak c

/-- The characters of names of anchors, handles and directives. -/
def isWordChar (c : Char) : Bool := c.isAlphanum || c == '_' || c == '-'

/-- The characters a text may hold. -/
def isAllowed (c : Char) : Bool :=
  let n := c.toNat
  n == 9 || n == 10 || n == 13 || (0x20 ≤ n && n ≤ 0x7E) || n == 0x85 || (0xA0 ≤ n && n ≤ 0xD7FF)
    || (0xE000 ≤ n && n ≤ 0xFFFD) || 0x10000 ≤ n

namespace Scanner

def peek (s : Scanner) (n : Nat) : Option Char := (s.rest.drop n).head?

def inFlow (s : Scanner) : Bool := s.keys.length > 1

end Scanner

namespace Scan

def fail {α : Type} : Scan α := fun _ => none

def check (p : Bool) : Scan Unit := if p then pure () else fail

def peek (n : Nat) : Scan (Option Char) := return (← get).peek n

def inFlow : Scan Bool := return (← get).inFlow

/-- Passes `n` characters of a line. -/
def skip (n : Nat) : Scan Unit :=
  modify fun s => { s with
    rest := s.rest.drop n, index := s.index + n, column := s.column + n }

/-- Passes the characters of a line that `p` holds of, and gives them. -/
def takeWhile (p : Char → Bool) : Scan (List Char) := do
  let taken := (← get).rest.takeWhile p
  skip taken.length
  return taken

/-- Passes a line break and gives what stands for it: a line feed, or the separator itself. -/
def takeBreak : Scan (List Char) := do
  let s ← get
  let (n, cs) : Nat × List Char := match s.rest with
    | '\r' :: '\n' :: _ => (2, ['\n'])
    | c :: _ => (1, if c.toNat == 0x2028 || c.toNat == 0x2029 then [c] else ['\n'])
    | [] => (0, [])
  set { s with rest := s.rest.drop n, index := s.index + n, line := s.line + 1, column := 0 }
  return cs

def push (t : Token) : Scan Unit := modify fun s => { s with tokens := s.tokens.push t }

/-- Puts a token in front of those from the `n`-th on. -/
def insertAt (n : Nat) (t : Token) : Scan Unit :=
  modify fun s => { s with
    tokens := (s.tokens.toList.take n ++ t :: s.tokens.toList.drop n).toArray }

/-- Opens a block collection at a column deeper than the present one. -/
def rollIndent (column : Int) (at? : Option Nat) (t : Token) : Scan Unit := do
  let s ← get
  if ¬ s.inFlow ∧ s.indent < column then
    set { s with indents := s.indent :: s.indents, indent := column }
    match at? with
    | some n => insertAt n t
    | none => push t

/-- Closes the block collections deeper than a column. -/
def unrollIndent (column : Int) : Scan Unit := do
  let s ← get
  if ¬ s.inFlow then
    let rec close : List Int → Int → Array Token → List Int × Int × Array Token
      | outer :: outers, indent, tokens =>
        if column < indent then close outers outer (tokens.push .blockEnd)
        else (outer :: outers, indent, tokens)
      | [], indent, tokens => ([], indent, tokens)
    let (indents, indent, tokens) := close s.indents s.indent s.tokens
    set { s with indents, indent, tokens }

/-- Gives up the simple key of the present level; one that is required must not be lost. -/
def removeKey : Scan Unit := do
  let s ← get
  match s.keys with
  | some key :: keys =>
    check (!key.required)
    set { s with keys := none :: keys }
  | _ => pure ()

/-- Notes that a simple key may begin here. -/
def saveKey : Scan Unit := do
  let s ← get
  if s.keyAllowed then
    removeKey
    let s ← get
    let key : SimpleKey := {
      required := !s.inFlow && s.indent == s.column
      tokens := s.tokens.size, index := s.index, line := s.line, column := s.column }
    set { s with keys := some key :: s.keys.drop 1 }

/-- Gives up simple keys that lie on another line or too far back. -/
def dropStaleKeys : Scan Unit := do
  let s ← get
  let stale (key : SimpleKey) : Bool := key.line < s.line || key.index + 1024 < s.index
  let keys ← s.keys.mapM fun key? => (do
    match key? with
    | some key =>
      if stale key then
        check (!key.required)
        return none
      else return some key
    | none => return none : Scan (Option SimpleKey))
  set { s with keys }

/-- Passes blanks, comments and line breaks up to the next token. Each line break is one round, so
fuel above the length of the text is enough. -/
def toNextToken : Nat → Scan Unit
  | 0 => pure ()
  | fuel + 1 => do
    let s ← get
    if s.column = 0 ∧ (s.peek 0).any (·.toNat == 0xFEFF) then skip 1
    let tabs := s.inFlow || !s.keyAllowed
    discard <| takeWhile fun c => c == ' ' || (tabs && c == '\t')
    if (← peek 0) = some '#' then discard <| takeWhile (!isBreak ·)
    if (← peek 0).any isBreak then
      discard takeBreak
      if ¬ (← inFlow) then modify fun s => { s with keyAllowed := true }
      toNextToken fuel

/-- Whether a document indicator of the given character stands here. -/
def atDocumentMark (c : Char) : Scan Bool := do
  let s ← get
  return s.column == 0 && s.rest.take 3 == [c, c, c] && isGap (s.peek 3)

def atAnyDocumentMark : Scan Bool := return (← atDocumentMark '-') || (← atDocumentMark '.')

/-- The rest of a directive's line. -/
def endLine : Scan Unit := do
  discard <| takeWhile isSpaceOrTab
  if (← peek 0) = some '#' then discard <| takeWhile (!isBreak ·)
  check (isBreakOrEnd (← peek 0))
  if (← peek 0).any isBreak then discard takeBreak

def scanVersion : Scan Unit := do
  discard <| takeWhile isSpaceOrTab
  let major ← takeWhile Char.isDigit
  check ((← peek 0) == some '.')
  skip 1
  let minor ← takeWhile Char.isDigit
  check (major == ['1'] && (minor == ['1'] || minor == ['2']))

/-- A tag handle: `!`, `!!` or `!word!`. -/
def scanHandle (isDirective : Bool) : Scan (List Char) := do
  check ((← peek 0) == some '!')
  skip 1
  let word ← takeWhile isWordChar
  if (← peek 0) = some '!' then
    skip 1
    return '!' :: word ++ ['!']
  check (!isDirective || word.isEmpty)
  return '!' :: word

def isUriChar (c : Char) : Bool :=
  isWordChar c || ";/?:@&=+$.!~*'()%".toList.contains c

/-- The characters of a tag in URI form; in `<…>` and in directives also brackets and commas. -/
def scanUri (isFull : Bool) : Scan (List Char) :=
  takeWhile fun c => isUriChar c || (isFull && (c == ',' || c == '[' || c == ']'))

def scanDirective : Scan Unit := do
  skip 1
  let name ← takeWhile isWordChar
  check (!name.isEmpty && isGap (← peek 0))
  if name = "YAML".toList then
    scanVersion
    push .versionDirective
  else if name = "TAG".toList then
    discard <| takeWhile isSpaceOrTab
    let handle ← scanHandle true
    check ((← peek 0).any isSpaceOrTab)
    discard <| takeWhile isSpaceOrTab
    let start ← scanUri true
    check (!start.isEmpty && isGap (← peek 0))
    push (.tagDirective (String.ofList handle) (String.ofList start))
  else fail
  endLine

def scanAnchor : Scan String := do
  skip 1
  let name ← takeWhile isWordChar
  let next ← peek 0
  check (!name.isEmpty && (isGap next || next.any fun c => "?:,]\x7d%@`".toList.contains c))
  return String.ofList name

def scanTag : Scan Token := do
  let t ← if (← peek 1) = some '<' then
      skip 2
      let uri ← scanUri true
      check (!uri.isEmpty && (← peek 0) == some '>')
      skip 1
      pure (Token.tag "" (String.ofList uri))
    else
      let handle ← scanHandle false
      if handle.length > 1 ∧ handle.getLast? = some '!' then
        let suffix ← scanUri false
        check (!suffix.isEmpty)
        pure (Token.tag (String.ofList handle) (String.ofList suffix))
      else
        let suffix := handle.drop 1 ++ (← scanUri false)
        pure (if suffix.isEmpty then Token.tag "" "!" else Token.tag "!" (String.ofList suffix))
  let next ← peek 0
  check (isGap next || ((← inFlow) && next == some ','))
  return t

/-- The line breaks in front of a block scalar's line. An unknown column, 0, is found here. -/
def blockBreaks : Nat → Nat → Nat → List Char → Scan (Nat × List Char)
  | 0, column, _, breaks => return (column, breaks)
  | fuel + 1, column, widest, breaks => do
    let s ← get
    let spaces := (s.rest.takeWhile (· == ' ')).length
    skip (if column = 0 then spaces else min spaces (column - s.column))
    let s ← get
    let widest := max widest s.column
    check (!((column = 0 ∨ s.column < column) ∧ s.peek 0 = some '\t'))
    if (s.peek 0).any isBreak then
      let cs ← takeBreak
      blockBreaks fuel column widest (breaks ++ cs)
    else if column = 0 then
      return (max (max widest (s.indent + 1).toNat) 1, breaks)
    else return (column, breaks)

/-- The lines of a block scalar: its text so far, the break after its last line, and the empty
lines since. -/
def blockLines (isLiteral : Bool) (column : Nat) :
    Nat → List Char → List Char → List Char → Bool → Scan (List Char × List Char × List Char)
  | 0, text, lastBreak, breaks, _ => return (text, lastBreak, breaks)
  | fuel + 1, text, lastBreak, breaks, wasBlank => do
    let s ← get
    if s.column = column ∧ ¬ s.rest.isEmpty then
      let isBlank := (s.peek 0).any isSpaceOrTab
      let joint :=
        if ¬ isLiteral ∧ lastBreak.head? = some '\n' ∧ ¬ wasBlank ∧ ¬ isBlank then
          if breaks.isEmpty then [' '] else breaks
        else lastBreak ++ breaks
      let line ← takeWhile (!isBreak ·)
      let lastBreak ← takeBreak
      let (_, breaks) ← blockBreaks (fuel + 1) column 0 []
      blockLines isLiteral column fuel (text ++ joint ++ line) lastBreak breaks isBlank
    else return (text, lastBreak, breaks)

/-- The marks behind `|` and `>`: which line breaks are kept at the end, and the column. -/
def blockHeader : Scan (Option Bool × Nat) := do
  let chomping? : Scan (Option (Option Bool)) := do
    match ← peek 0 with
    | some '+' => skip 1; return some (some true)
    | some '-' => skip 1; return some (some false)
    | _ => return none
  let increment : Scan Nat := do
    match ← peek 0 with
    | some c =>
      if c.isDigit then
        check (c != '0')
        skip 1
        return c.toNat - '0'.toNat
      else return 0
    | none => return 0
  match ← chomping? with
  | some chomping => return (chomping, ← increment)
  | none =>
    let n ← increment
    if n = 0 then return (none, 0)
    return ((← chomping?).getD none, n)

def scanBlockScalar (isLiteral : Bool) : Scan Token := do
  skip 1
  let (chomping, increment) ← blockHeader
  let fuel := (← get).rest.length + 1
  discard <| takeWhile isSpaceOrTab
  if (← peek 0) = some '#' then discard <| takeWhile (!isBreak ·)
  check (isBreakOrEnd (← peek 0))
  if (← peek 0).any isBreak then discard takeBreak
  let indent := (← get).indent
  let column := if increment = 0 then 0 else (max indent 0).toNat + increment
  let (column, breaks) ← blockBreaks fuel column 0 []
  let (text, lastBreak, breaks) ← blockLines isLiteral column fuel [] [] breaks false
  let text := match chomping with
    | some false => text
    | some true => text ++ lastBreak ++ breaks
    | none => text ++ lastBreak
  return .scalar (String.ofList text) false

def hexValue? (cs : List Char) : Option Nat :=
  cs.foldlM (fun n c =>
    if c.isDigit then some (n * 16 + (c.toNat - '0'.toNat))
    else if 'a' ≤ c ∧ c ≤ 'f' then some (n * 16 + (c.toNat - 'a'.toNat + 10))
    else if 'A' ≤ c ∧ c ≤ 'F' then some (n * 16 + (c.toNat - 'A'.toNat + 10))
    else none) 0

/-- An escape of `width` hexadecimal digits behind its letter. -/
def scanCode (width : Nat) : Scan Char := do
  let digits := ((← get).rest.drop 2).take width
  check (digits.length == width)
  match hexValue? digits with
  | some n =>
    check (n < 0xD800 || (0xDFFF < n && n ≤ 0x10FFFF))
    skip (2 + width)
    return Char.ofNat n
  | none => fail

/-- An escape in double quotes, with the `\` at the front. -/
def scanEscape : Scan Char := do
  let simple (n : Nat) : Scan Char := do
    skip 2
    return Char.ofNat n
  match ← peek 1 with
  | some '0' => simple 0
  | some 'a' => simple 7
  | some 'b' => simple 8
  | some 't' | some '\t' => simple 9
  | some 'n' => simple 10
  | some 'v' => simple 11
  | some 'f' => simple 12
  | some 'r' => simple 13
  | some 'e' => simple 27
  | some ' ' => simple 32
  | some '"' => simple 34
  | some '\'' => simple 39
  | some '/' => simple 47
  | some '\\' => simple 92
  | some 'N' => simple 0x85
  | some '_' => simple 0xA0
  | some 'L' => simple 0x2028
  | some 'P' => simple 0x2029
  | some 'x' => scanCode 2
  | some 'u' => scanCode 4
  | some 'U' => scanCode 8
  | _ => fail

/-- The characters of a quoted scalar up to a gap or the closing quote, and whether the line broke
behind a `\`. -/
def quotedWord (isSingle : Bool) : Nat → List Char → Scan (List Char × Bool)
  | 0, text => return (text, false)
  | fuel + 1, text => do
    match ← peek 0 with
    | none => return (text, false)
    | some c =>
      if isSpaceOrTab c ∨ isBreak c then return (text, false)
      else if isSingle then
        if c = '\'' then
          if (← peek 1) = some '\'' then
            skip 2
            quotedWord isSingle fuel ('\'' :: text)
          else return (text, false)
        else
          skip 1
          quotedWord isSingle fuel (c :: text)
      else if c = '"' then return (text, false)
      else if c = '\\' then
        if (← peek 1).any isBreak then
          skip 1
          discard takeBreak
          return (text, true)
        else
          let e ← scanEscape
          quotedWord isSingle fuel (e :: text)
      else
        skip 1
        quotedWord isSingle fuel (c :: text)

/-- The blanks and line breaks between two words of a flow scalar. -/
structure Spacing where
  /-- Whether a line break was passed. -/
  broken : Bool := false
  blanks : List Char := []
  first : List Char := []
  more : List Char := []

/-- What stands for the spacing: a single line break is folded into a blank. -/
def Spacing.text (s : Spacing) : List Char :=
  if ¬ s.broken then s.blanks
  else if s.first.head? = some '\n' then (if s.more.isEmpty then [' '] else s.more)
  else s.first ++ s.more

/-- Passes blanks and line breaks. In a plain scalar no tab may stand left of `column`. -/
def takeSpacing (column : Int) : Nat → Spacing → Scan Spacing
  | 0, sp => return sp
  | fuel + 1, sp => do
    match ← peek 0 with
    | none => return sp
    | some c =>
      if isSpaceOrTab c then
        check (!(sp.broken ∧ ((← get).column : Int) < column ∧ c = '\t'))
        skip 1
        takeSpacing column fuel (if sp.broken then sp else { sp with blanks := sp.blanks ++ [c] })
      else if isBreak c then
        let cs ← takeBreak
        takeSpacing column fuel
          (if sp.broken then { sp with more := sp.more ++ cs }
          else { sp with broken := true, blanks := [], first := cs })
      else return sp

/-- A quoted scalar behind its opening quote; `text` holds its characters, last first. -/
def scanQuoted (isSingle : Bool) : Nat → List Char → Scan Token
  | 0, _ => fail
  | fuel + 1, text => do
    check (!(← atAnyDocumentMark))
    check (!(← get).rest.isEmpty)
    let (text, continued) ← quotedWord isSingle (fuel + 1) text
    if ¬ continued ∧ (← peek 0) = some (if isSingle then '\'' else '"') then
      skip 1
      return .scalar (String.ofList text.reverse) false
    let spacing ← takeSpacing (-1) (fuel + 1) { broken := continued }
    scanQuoted isSingle fuel (spacing.text.reverse ++ text)

def isFlowMark (c : Char) : Bool :=
  c == ',' || c == '[' || c == ']' || c == '{' || c == '}'

/-- The characters of a plain scalar up to a gap or an indicator that ends it. -/
def plainWord (flow : Bool) : Nat → List Char → Scan (List Char)
  | 0, text => return text
  | fuel + 1, text => do
    match ← peek 0 with
    | none => return text
    | some c =>
      if isSpaceOrTab c ∨ isBreak c then return text
      let next ← peek 1
      check (!(flow ∧ c = ':' ∧ next.any fun d => isFlowMark d || d == '?'))
      if (c = ':' ∧ isGap next) ∨ (flow ∧ isFlowMark c) then return text
      skip 1
      plainWord flow fuel (c :: text)

/-- A plain scalar. `spacing` is what lies behind the characters in `text`, which come last
first. -/
def scanPlain (flow : Bool) (column : Int) : Nat → List Char → Spacing → Scan Token
  | 0, text, _ => return .scalar (String.ofList text.reverse) true
  | fuel + 1, text, spacing => do
    let done : Scan Token := do
      if spacing.broken then modify fun s => { s with keyAllowed := true }
      return .scalar (String.ofList text.reverse) true
    if (← atAnyDocumentMark) ∨ (← peek 0) = some '#' then done
    else
      let word ← plainWord flow (fuel + 1) []
      if word.isEmpty then done
      else
        let text := word ++ spacing.text.reverse ++ text
        let closed : Scan Token := return .scalar (String.ofList text.reverse) true
        if ¬ (← peek 0).any (fun c => isSpaceOrTab c || isBreak c) then closed
        else
          let spacing ← takeSpacing column (fuel + 1) {}
          if ¬ flow ∧ ((← get).column : Int) < column then
            if spacing.broken then modify fun s => { s with keyAllowed := true }
            closed
          else scanPlain flow column fuel text spacing

def allowKey (b : Bool) : Scan Unit := modify fun s => { s with keyAllowed := b }

/-- A single indicator as a token. -/
def indicator (t : Token) : Scan Unit := do
  skip 1
  push t

def openFlow (t : Token) : Scan Unit := do
  saveKey
  modify fun s => { s with keys := none :: s.keys, keyAllowed := true }
  indicator t

def closeFlow (t : Token) : Scan Unit := do
  removeKey
  modify fun s => { s with
    keys := if s.keys.length > 1 then s.keys.drop 1 else s.keys, keyAllowed := false }
  indicator t

/-- A `-` or `?` that begins an entry or a key. -/
def openEntry (collection t : Token) (allowAfter : Bool) : Scan Unit := do
  let s ← get
  if ¬ s.inFlow then
    check s.keyAllowed
    rollIndent s.column none collection
  removeKey
  allowKey allowAfter
  indicator t

/-- A `:`. The key in front of it, if there is one, gets its token now. -/
def openValue : Scan Unit := do
  let s ← get
  match s.keys with
  | some key :: keys =>
    insertAt key.tokens .key
    rollIndent key.column (some key.tokens) .blockMappingStart
    modify fun s => { s with keys := none :: keys, keyAllowed := false }
  | _ =>
    if ¬ s.inFlow then
      check s.keyAllowed
      rollIndent s.column none .blockMappingStart
    allowKey (!s.inFlow)
  indicator .value

/-- A token in front of which a simple key may begin. -/
def keyed (t : Scan Token) : Scan Unit := do
  saveKey
  allowKey false
  push (← t)

def documentMark (t : Token) : Scan Unit := do
  unrollIndent (-1)
  removeKey
  allowKey false
  skip 3
  push t

/-- Whether a plain scalar may begin with this character, given the one after it. -/
def startsPlain (flow : Bool) (c : Char) (next : Option Char) : Bool :=
  if c = '-' then !(next.any isSpaceOrTab)
  else if c = '?' ∨ c = ':' then !flow && !isGap next
  else !isGap (some c) && !",[]\x7b\x7d#&*!|>'\"%@`".toList.contains c

/-- Scans the next token and says whether there may be more. -/
def nextToken : Scan Bool := do
  let fuel := (← get).rest.length + 2
  toNextToken fuel
  dropStaleKeys
  unrollIndent (← get).column
  let s ← get
  let flow := s.inFlow
  match s.rest with
  | [] => do
    unrollIndent (-1)
    removeKey
    allowKey false
    push .streamEnd
    return false
  | c :: _ =>
    let next := s.peek 1
    if s.column = 0 ∧ c = '%' then
      unrollIndent (-1)
      removeKey
      allowKey false
      scanDirective
    else if ← atDocumentMark '-' then documentMark .documentStart
    else if ← atDocumentMark '.' then documentMark .documentEnd
    else if c = '[' then openFlow .flowSequenceStart
    else if c = '{' then openFlow .flowMappingStart
    else if c = ']' then closeFlow .flowSequenceEnd
    else if c = '}' then closeFlow .flowMappingEnd
    else if c = ',' then
      removeKey
      allowKey true
      indicator .flowEntry
    else if c = '-' ∧ isGap next then openEntry .blockSequenceStart .blockEntry true
    else if c = '?' ∧ (flow ∨ isGap next) then openEntry .blockMappingStart .key (!flow)
    else if c = ':' ∧ (flow ∨ isGap next) then openValue
    else if c = '*' then keyed (.alias <$> scanAnchor)
    else if c = '&' then keyed (.anchor <$> scanAnchor)
    else if c = '!' then keyed scanTag
    else if (c = '|' ∨ c = '>') ∧ ¬ flow then
      removeKey
      allowKey true
      push (← scanBlockScalar (c == '|'))
    else if c = '\'' ∨ c = '"' then
      keyed do
        skip 1
        scanQuoted (c == '\'') fuel []
    else if startsPlain flow c next then keyed (scanPlain flow (s.indent + 1) fuel [] {})
    else fail
    return true

/-- Scans tokens to the end of the text. -/
def allTokens : Nat → Scan Unit
  | 0 => fail
  | fuel + 1 => do if ← nextToken then allTokens fuel

end Scan

/-- The tokens of a text. -/
def tokens? (text : String) : Option (List Token) := do
  let cs := match text.toList with
    | c :: rest => if c.toNat = 0xFEFF then rest else c :: rest
    | [] => []
  if cs.all isAllowed then
    let ((), s) ← (Scan.allTokens (cs.length + 2)).run { rest := cs }
    return s.tokens.toList
  else none

end Toolflow.Yaml
