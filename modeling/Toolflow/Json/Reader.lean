import Toolflow.Json.Basic

/-! Reading JSON texts.

The grammar is that of RFC 8259, without a byte order mark, with at most 127 levels of nesting and
without lone surrogates in strings. A number with a fraction or an exponent, or one beyond 64
bits, is read as a significand of at most 64 bits that is scaled by a power of ten in binary
arithmetic, digits beyond the significand being dropped. -/
namespace Toolflow.Json

def isSpace (c : Char) : Bool := c == ' ' || c == '\n' || c == '\t' || c == '\r'

def skipSpace (cs : List Char) : List Char := cs.dropWhile isSpace

/-- The rest of a text after a word in front of it. -/
def after? : List Char → List Char → Option (List Char)
  | [], cs => some cs
  | w :: word, c :: cs => if w = c then after? word cs else none
  | _ :: _, [] => none

def hexDigit? (c : Char) : Option Nat :=
  if '0' ≤ c ∧ c ≤ '9' then some (c.toNat - '0'.toNat)
  else if 'a' ≤ c ∧ c ≤ 'f' then some (c.toNat - 'a'.toNat + 10)
  else if 'A' ≤ c ∧ c ≤ 'F' then some (c.toNat - 'A'.toNat + 10)
  else none

/-- Four hexadecimal digits. -/
def hexUnit? : List Char → Option (Nat × List Char)
  | a :: b :: c :: d :: rest => do
    return ((((← hexDigit? a) * 16 + (← hexDigit? b)) * 16 + (← hexDigit? c)) * 16
      + (← hexDigit? d), rest)
  | _ => none

def simpleEscape? (c : Char) : Option Char :=
  match c with
  | '"' => some '"'
  | '\\' => some '\\'
  | '/' => some '/'
  | 'b' => some '\x08'
  | 'f' => some '\x0c'
  | 'n' => some '\n'
  | 'r' => some '\r'
  | 't' => some '\t'
  | _ => none

/-- The character after a `\u`: one unit, or a pair of surrogates. -/
def unicodeEscape? (cs : List Char) : Option (Char × List Char) := do
  let (unit, rest) ← hexUnit? cs
  if 0xD800 ≤ unit ∧ unit ≤ 0xDBFF then
    match rest with
    | '\\' :: 'u' :: rest =>
      let (low, rest) ← hexUnit? rest
      if 0xDC00 ≤ low ∧ low ≤ 0xDFFF then
        some (Char.ofNat (0x10000 + (unit - 0xD800) * 0x400 + (low - 0xDC00)), rest)
      else none
    | _ => none
  else if 0xDC00 ≤ unit ∧ unit ≤ 0xDFFF then none
  else some (Char.ofNat unit, rest)

/-- The rest of a string after its opening quote; `done` holds its characters, last first. -/
def readString : Nat → List Char → List Char → Option (String × List Char)
  | 0, _, _ => none
  | fuel + 1, done, cs =>
    match cs with
    | [] => none
    | '"' :: rest => some (String.ofList done.reverse, rest)
    | '\\' :: 'u' :: rest => do
      let (c, rest) ← unicodeEscape? rest
      readString fuel (c :: done) rest
    | '\\' :: e :: rest => do readString fuel ((← simpleEscape? e) :: done) rest
    | c :: rest => if c.toNat < 0x20 ∨ c = '\\' then none else readString fuel (c :: done) rest

/-- Takes digits while the number stays within 64 bits: the number, how many digits it took, and
what follows. -/
def takeDigits : Nat → Nat → List Char → Nat × Nat × List Char
  | n, taken, [] => (n, taken, [])
  | n, taken, c :: rest =>
    if c.isDigit then
      let next := n * 10 + Double.digitValue c
      if 18446744073709551615 < next then (n, taken, c :: rest)
      else takeDigits next (taken + 1) rest
    else (n, taken, c :: rest)

/-- `significand · 10^exponent` in binary arithmetic: one product or quotient with a power of ten
up to the 308th, after as many quotients by the 308th as it takes. -/
def scale : Nat → Double → Int → Double
  | 0, x, _ => x
  | fuel + 1, x, exponent =>
    if exponent.natAbs ≤ 308 then
      if 0 ≤ exponent then x.mul (Double.powTen exponent.natAbs)
      else x.div (Double.powTen exponent.natAbs)
    else if x.isZero then x
    else if 0 ≤ exponent then .infinite false
    else scale fuel (x.div (Double.powTen 308)) (exponent + 308)

/-- A float, unless it is out of range. -/
def floatOf? (negative : Bool) (significand : Nat) (exponent : Int) : Option Json :=
  let x := scale 8 (Double.ofNat significand) exponent
  if x.isFinite then some (.float (if negative then x.neg else x)) else none

/-- The exponent part of a number, if one follows. -/
def readExponent (negative : Bool) (significand : Nat) (start : Int) :
    List Char → Option (Json × List Char)
  | c :: rest =>
    if c = 'e' ∨ c = 'E' then
      let (below, rest) := Double.splitSign rest
      let digits := rest.takeWhile Char.isDigit
      if digits.isEmpty then none
      else
        let n : Int := Double.natOfDigits digits
        let x := floatOf? negative significand (if below then start - n else start + n)
        x.map (·, rest.dropWhile Char.isDigit)
    else (floatOf? negative significand start).map (·, c :: rest)
  | [] => (floatOf? negative significand start).map (·, [])

/-- The fraction of a number after its point. -/
def readFraction (negative : Bool) (significand : Nat) (start : Int) (cs : List Char) :
    Option (Json × List Char) :=
  if ¬ (cs.head?.any Char.isDigit) then none
  else
    let (significand, taken, rest) := takeDigits significand 0 cs
    readExponent negative significand (start - taken) (rest.dropWhile Char.isDigit)

/-- A number after its sign. -/
def readMagnitude (negative : Bool) (cs : List Char) : Option (Json × List Char) :=
  if ¬ (cs.head?.any Char.isDigit) then none
  else if cs.head? = some '0' ∧ (cs.drop 1).head?.any Char.isDigit then none
  else
    let (significand, _, rest) := takeDigits 0 0 cs
    let dropped := (rest.takeWhile Char.isDigit).length
    let rest := rest.dropWhile Char.isDigit
    match rest with
    | '.' :: fraction => readFraction negative significand dropped fraction
    | c :: _ =>
      if c = 'e' ∨ c = 'E' ∨ 0 < dropped then readExponent negative significand dropped rest
      else some (whole significand, rest)
    | [] =>
      if 0 < dropped then readExponent negative significand dropped []
      else some (whole significand, [])
where
  whole (n : Nat) : Json :=
    if ¬ negative then .int n
    else if n = 0 ∨ 9223372036854775808 < n then .float (Double.ofNat n).neg
    else .int (-n)

def readNumber : List Char → Option (Json × List Char)
  | '-' :: rest => readMagnitude true rest
  | cs => readMagnitude false cs

mutual
/-- Reads a value. `depth` is the number of levels it may still open. -/
def readValue : Nat → Nat → List Char → Option (Json × List Char)
  | 0, _, _ => none
  | fuel + 1, depth, cs =>
    match skipSpace cs with
    | '"' :: rest => do
      let (s, rest) ← readString (rest.length + 1) [] rest
      return (.str s, rest)
    | '[' :: rest =>
      if depth = 0 then none
      else match skipSpace rest with
        | ']' :: rest => some (.arr [], rest)
        | rest => do
          let (items, rest) ← readItems fuel (depth - 1) rest
          return (.arr items, rest)
    | '{' :: rest =>
      if depth = 0 then none
      else match skipSpace rest with
        | '}' :: rest => some (.obj [], rest)
        | rest => do
          let (fields, rest) ← readFields fuel (depth - 1) rest
          return (.obj fields, rest)
    | 'n' :: rest => do return (.null, ← after? ['u', 'l', 'l'] rest)
    | 't' :: rest => do return (.bool true, ← after? ['r', 'u', 'e'] rest)
    | 'f' :: rest => do return (.bool false, ← after? ['a', 'l', 's', 'e'] rest)
    | cs => readNumber cs

/-- Reads items up to the closing bracket. -/
def readItems : Nat → Nat → List Char → Option (List Json × List Char)
  | 0, _, _ => none
  | fuel + 1, depth, cs => do
    let (item, rest) ← readValue fuel depth cs
    match skipSpace rest with
    | ',' :: rest =>
      let (items, rest) ← readItems fuel depth rest
      return (item :: items, rest)
    | ']' :: rest => return ([item], rest)
    | _ => none

/-- Reads fields up to the closing brace. -/
def readFields : Nat → Nat → List Char → Option (List (String × Json) × List Char)
  | 0, _, _ => none
  | fuel + 1, depth, cs => do
    match skipSpace cs with
    | '"' :: rest =>
      let (key, rest) ← readString (rest.length + 1) [] rest
      match skipSpace rest with
      | ':' :: rest =>
        let (item, rest) ← readValue fuel depth rest
        match skipSpace rest with
        | ',' :: rest =>
          let (fields, rest) ← readFields fuel depth rest
          return ((key, item) :: fields, rest)
        | '}' :: rest => return ([(key, item)], rest)
        | _ => none
      | _ => none
    | _ => none
end

/-- Reads a whole text. -/
def parse? (text : String) : Option Json := do
  let cs := text.toList
  let (j, rest) ← readValue (2 * cs.length + 2) 127 cs
  if (skipSpace rest).isEmpty then some j else none

/-- Reads a whole text in UTF-8. -/
def parseBytes? (bytes : ByteArray) : Option Json := String.fromUTF8? bytes >>= parse?

end Toolflow.Json
