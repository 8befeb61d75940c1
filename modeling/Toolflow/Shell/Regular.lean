import Toolflow.Shell.Pattern

/-! Regular expressions as line editors use them: the basic and the extended notation.

Matching tries the longest repetition first and goes back where the rest does not match. -/
namespace Toolflow.Shell

inductive Regular where
  | empty
  | char (c : Char)
  | any
  /-- A set, as the pattern behind its opening bracket. -/
  | set (p : List Marked)
  | lineStart
  | lineEnd
  | group (n : Nat) (r : Regular)
  | backReference (n : Nat)
  | chain (first second : Regular)
  | either (first second : Regular)
  /-- From `least` to `most` times, the most that match. -/
  | repeated (r : Regular) (least : Nat) (most : Option Nat)

namespace Regular

/-- What is left of an expression, and the number of groups opened so far. -/
structure Cursor where
  rest : List Char
  groups : Nat

abbrev Reader := StateT Cursor Option

def skip (n : Nat) : Reader Unit := modify fun c => { c with rest := c.rest.drop n }

/-- The length of a set behind its opening bracket. -/
def setLength (cs : List Char) : Option Nat :=
  let negation := if cs.head? = some '^' then 1 else 0
  let cs := cs.drop negation
  let first := if cs.head? = some ']' then 1 else 0
  let inner := (cs.drop first).takeWhile (· ≠ ']')
  if negation + first + inner.length < negation + cs.length then
    some (negation + first + inner.length + 1)
  else none

/-- Reads `m,n` up to the closing text. -/
def bounds (closing : String) : Reader (Nat × Option Nat) := do
  let cs := (← get).rest
  let least := cs.takeWhile Char.isDigit
  skip least.length
  let low := (String.ofList least).toNat?.getD 0
  let most ← match (← get).rest with
    | ',' :: more =>
      let digits := more.takeWhile Char.isDigit
      skip (digits.length + 1)
      pure (String.ofList digits).toNat?
    | _ => pure (some low)
  if closing.toList.isPrefixOf (← get).rest then
    skip closing.length
    return (low, most)
  failure

mutual

/-- Alternatives up to the end or the end of a group. -/
def alternatives : Nat → Bool → Reader Regular
  | 0, _ => failure
  | fuel + 1, extended => do
    let first ← chainFrom fuel extended true
    let bar := if extended then "|" else "\\|"
    if bar.toList.isPrefixOf (← get).rest then
      skip bar.length
      return .either first (← alternatives fuel extended)
    return first

def chainFrom : Nat → (extended isFirst : Bool) → Reader Regular
  | 0, _, _ => failure
  | fuel + 1, extended, isFirst => do
    let cs := (← get).rest
    let stops := if extended then ["|", ")"] else ["\\|", "\\)"]
    if cs.isEmpty ∨ stops.any (·.toList.isPrefixOf cs) then return .empty
    let r ← atom fuel extended isFirst
    let r ← repetitions fuel extended r
    return .chain r (← chainFrom fuel extended false)

def atom : Nat → (extended isFirst : Bool) → Reader Regular
  | 0, _, _ => failure
  | fuel + 1, extended, isFirst => do
    match (← get).rest with
    | '.' :: _ =>
      skip 1
      return .any
    | '[' :: more =>
      match setLength more with
      | none => failure
      | some n =>
        skip (n + 1)
        return .set ((more.take n).map (·, false))
    | '^' :: _ =>
      skip 1
      return if extended || isFirst then .lineStart else .char '^'
    | '$' :: more =>
      skip 1
      let closes := more.isEmpty || "\\)".toList.isPrefixOf more || "\\|".toList.isPrefixOf more
      return if extended || closes then .lineEnd else .char '$'
    | '(' :: _ =>
      skip 1
      if extended then closedGroup fuel extended ")" else return .char '('
    | '\\' :: '(' :: _ =>
      skip 2
      if extended then return .char '(' else closedGroup fuel extended "\\)"
    | '\\' :: 'n' :: _ =>
      skip 2
      return .char '\n'
    | '\\' :: 't' :: _ =>
      skip 2
      return .char '\t'
    | '\\' :: c :: _ =>
      skip 2
      if '1' ≤ c ∧ c ≤ '9' then return .backReference (c.toNat - '0'.toNat)
      return .char c
    | c :: _ =>
      skip 1
      return .char c
    | [] => failure

def closedGroup : Nat → Bool → String → Reader Regular
  | 0, _, _ => failure
  | fuel + 1, extended, closing => do
    let n := (← get).groups + 1
    modify fun c => { c with groups := n }
    let r ← alternatives fuel extended
    if closing.toList.isPrefixOf (← get).rest then
      skip closing.length
      return .group n r
    failure

def repetitions : Nat → Bool → Regular → Reader Regular
  | 0, _, _ => failure
  | fuel + 1, extended, r => do
    match (← get).rest with
    | '*' :: _ =>
      skip 1
      repetitions fuel extended (.repeated r 0 none)
    | '+' :: _ =>
      if ¬ extended then return r
      skip 1
      repetitions fuel extended (.repeated r 1 none)
    | '?' :: _ =>
      if ¬ extended then return r
      skip 1
      repetitions fuel extended (.repeated r 0 (some 1))
    | '\\' :: '+' :: _ =>
      if extended then return r
      skip 2
      repetitions fuel extended (.repeated r 1 none)
    | '\\' :: '?' :: _ =>
      if extended then return r
      skip 2
      repetitions fuel extended (.repeated r 0 (some 1))
    | '\x7b' :: _ =>
      if ¬ extended then return r
      skip 1
      let (least, most) ← bounds "\x7d"
      repetitions fuel extended (.repeated r least most)
    | '\\' :: '\x7b' :: _ =>
      if extended then return r
      skip 2
      let (least, most) ← bounds "\\\x7d"
      repetitions fuel extended (.repeated r least most)
    | _ => return r

end

/-- Reads an expression; a star at its start means itself. -/
def parse? (extended : Bool) (text : List Char) : Option Regular := do
  let fuel := 8 * (text.length + 2)
  let (r, c) ← match text with
    | '*' :: rest =>
      (do return Regular.chain (.char '*') (← alternatives fuel extended)).run
        { rest, groups := 0 }
    | _ => (alternatives fuel extended).run { rest := text, groups := 0 }
  if c.rest.isEmpty then some r else none

/-- Where matching stands: what is left of the line, whether nothing has been passed yet, and the
texts of the groups. -/
structure Position where
  rest : List Char
  atStart : Bool
  groups : List (Nat × List Char) := []

def step (p : Position) (n : Nat) : Position :=
  { p with rest := p.rest.drop n, atStart := p.atStart && n == 0 }

/-- Matches an expression and then what `k` asks for. -/
def matchThen : Nat → Regular → Position → (Position → Option Position) → Option Position
  | 0, _, _, _ => none
  | fuel + 1, r, p, k =>
    match r with
    | .empty => k p
    | .char c => if p.rest.head? = some c then k (step p 1) else none
    | .any => if p.rest.isEmpty then none else k (step p 1)
    | .set s =>
      match p.rest with
      | [] => none
      | c :: _ =>
        match Pattern.matchSet? c s with
        | some (true, _) => k (step p 1)
        | _ => none
    | .lineStart => if p.atStart then k p else none
    | .lineEnd => if p.rest.isEmpty then k p else none
    | .group n r =>
      matchThen fuel r p fun q =>
        let text := p.rest.take (p.rest.length - q.rest.length)
        k { q with groups := (n, text) :: q.groups }
    | .backReference n =>
      match p.groups.lookup n with
      | some text => if text.isPrefixOf p.rest then k (step p text.length) else none
      | none => none
    | .chain a b => matchThen fuel a p fun q => matchThen fuel b q k
    | .either a b => (matchThen fuel a p k).or (matchThen fuel b p k)
    | .repeated r least most =>
      let again :=
        if most = some 0 then none
        else matchThen fuel r p fun q =>
          -- a repetition that matches nothing would go on for ever
          if q.rest.length = p.rest.length ∧ least = 0 then none
          else matchThen fuel (.repeated r (least - 1) (most.map (· - 1))) q k
      again.or (if least = 0 then k p else none)

/-- The size of an expression. -/
def size : Regular → Nat
  | .group _ r => r.size + 1
  | .repeated r least _ => r.size + least + 1
  | .chain a b | .either a b => a.size + b.size + 1
  | _ => 1

/-- Matches at the start of a text. -/
def matchAt? (r : Regular) (p : Position) : Option Position :=
  matchThen ((r.size + 2) * (p.rest.length + 2)) r p some

/-- The first place where an expression matches: the text before it, the match, and the position
behind it. -/
def find? (r : Regular) : Bool → List Char → Option (List Char × List Char × Position)
  | atStart, [] => (matchAt? r { rest := [], atStart }).map fun p => ([], [], p)
  | atStart, c :: rest =>
    match matchAt? r { rest := c :: rest, atStart } with
    | some p => some ([], (c :: rest).take (rest.length + 1 - p.rest.length), p)
    | none => (find? r false rest).map fun (before, found) => (c :: before, found)

end Regular
end Toolflow.Shell
