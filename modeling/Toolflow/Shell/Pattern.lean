/-! Shell patterns: `*` matches any text, `?` one character, and `[…]` one character of a set.

A pattern is a list of characters, each with a mark for whether it was quoted and so means
itself. -/
namespace Toolflow.Shell

/-- A character and whether it was quoted. -/
abbrev Marked := Char × Bool

namespace Pattern

/-- Whether a list of characters can match anything but itself. -/
def isSpecial (p : List Marked) : Bool :=
  p.any fun (c, quoted) => !quoted && (c == '*' || c == '?' || c == '[')

/-- The classes of characters that a set can name. -/
def inClass (name : String) (c : Char) : Bool :=
  match name with
  | "alpha" => c.isAlpha
  | "digit" => c.isDigit
  | "alnum" => c.isAlphanum
  | "upper" => c.isUpper
  | "lower" => c.isLower
  | "blank" => c == ' ' || c == '\t'
  | "space" => c.isWhitespace || c == '\x0b' || c == '\x0c'
  | "xdigit" => c.isDigit || ('a' ≤ c && c ≤ 'f') || ('A' ≤ c && c ≤ 'F')
  | "cntrl" => c < ' ' || c == '\x7f'
  | "graph" => '!' ≤ c && c ≤ '~'
  | "print" => ' ' ≤ c && c ≤ '~'
  | "punct" => '!' ≤ c && c ≤ '~' && !c.isAlphanum
  | _ => false

/-- The rest after a named class such as `[:alpha:]`, and its name. -/
def className? : List Marked → Option (String × List Marked)
  | ('[', _) :: (':', _) :: rest =>
    let name := rest.takeWhile (·.1.isAlpha)
    match rest.drop name.length with
    | (':', _) :: (']', _) :: rest => some (String.ofList (name.map (·.1)), rest)
    | _ => none
  | _ => none

/-- Looks a character up in a set that is open. Answers whether it is a member and what follows
the set, or nothing when the set is not closed. Each round takes characters of the pattern, so fuel
above their number is enough. -/
def inSet (c : Char) : Nat → (first found : Bool) → List Marked → Option (Bool × List Marked)
  | 0, _, _, _ => none
  | _ + 1, _, _, [] => none
  | fuel + 1, first, found, (p, quoted) :: rest =>
    if p = ']' ∧ ¬ quoted ∧ ¬ first then some (found, rest)
    else match className? ((p, quoted) :: rest) with
      | some (name, rest) => inSet c fuel false (found || inClass name c) rest
      | none =>
        match rest with
        | ('-', false) :: (last, lastQuoted) :: after =>
          if last = ']' ∧ ¬ lastQuoted then inSet c fuel false (found || c == p) rest
          else inSet c fuel false (found || (p ≤ c && c ≤ last)) after
        | _ => inSet c fuel false (found || c == p) rest

/-- Whether one character matches an open set, and what follows the set. -/
def matchSet? (c : Char) (p : List Marked) : Option (Bool × List Marked) :=
  match p with
  | ('!', false) :: rest | ('^', false) :: rest =>
    (inSet c (rest.length + 1) true false rest).map fun (found, rest) => (!found, rest)
  | _ => inSet c (p.length + 1) true false p

/-- Matches a whole text. A round takes a character of the pattern or of the text, so fuel above
their number is enough. -/
def matchFrom : Nat → List Marked → List Char → Bool
  | 0, _, _ => false
  | _ + 1, [], text => text.isEmpty
  | fuel + 1, ('*', false) :: rest, text =>
    matchFrom fuel rest text ||
      match text with
      | [] => false
      | _ :: more => matchFrom fuel (('*', false) :: rest) more
  | fuel + 1, (p, quoted) :: rest, text =>
    match text with
    | [] => false
    | c :: more =>
      if p = '?' ∧ ¬ quoted then matchFrom fuel rest more
      else if p = '[' ∧ ¬ quoted then
        match matchSet? c rest with
        | some (found, rest) => found && matchFrom fuel rest more
        | none => c == p && matchFrom fuel rest more
      else c == p && matchFrom fuel rest more

/-- Whether a pattern matches a whole text. -/
def matchesText (p : List Marked) (text : List Char) : Bool :=
  matchFrom (p.length + text.length + 1) p text

/-- What is left of a text when the shortest or the longest start that matches is cut off. -/
def cutStart (longest : Bool) (p : List Marked) (text : List Char) : List Char :=
  let lengths := List.range (text.length + 1)
  let lengths := if longest then lengths.reverse else lengths
  match lengths.find? fun n => matchesText p (text.take n) with
  | some n => text.drop n
  | none => text

/-- What is left of a text when the shortest or the longest end that matches is cut off. -/
def cutEnd (longest : Bool) (p : List Marked) (text : List Char) : List Char :=
  let lengths := List.range (text.length + 1)
  let lengths := if longest then lengths else lengths.reverse
  match lengths.find? fun n => matchesText p (text.drop n) with
  | some n => text.take n
  | none => text

end Pattern
end Toolflow.Shell
