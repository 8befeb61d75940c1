/-! Binary floating-point numbers of 64 bits, in exact arithmetic.

A finite number is `m · 2^q`. `ofRatio` rounds a quotient to the nearest such number, an exact
half to the even significand. `digits?` gives the shortest decimal that lies in the interval of
reals rounding to the number; of two shortest ones the nearer, and of two equally near ones the
larger. `text` writes it in positional notation, without exponent and without a trailing `.0`. -/
namespace Toolflow

inductive Double where
  | nan
  | infinite (negative : Bool)
  /-- The number `significand · 2^exponent`, with the sign apart so that zero has one. -/
  | finite (negative : Bool) (significand : Nat) (exponent : Int)
deriving Repr, DecidableEq

namespace Double

def minExponent : Int := -1074

def maxExponent : Int := 971

/-- The nearest natural number to `num / den`; a half goes to the even neighbour. -/
def roundQuotient (num den : Nat) : Nat :=
  let whole := num / den
  let twice := 2 * (num % den)
  if twice < den then whole
  else if den < twice then whole + 1
  else if whole % 2 = 0 then whole else whole + 1

/-- `num / den · 2^shift` as a fraction. -/
def shiftRatio (num den : Nat) (shift : Int) : Nat × Nat :=
  if 0 ≤ shift then (num * Nat.pow 2 shift.toNat, den)
  else (num, den * Nat.pow 2 (-shift).toNat)

/-- The number nearest to `num / den`. -/
def ofRatio (negative : Bool) (num den : Nat) : Double :=
  if num = 0 ∨ den = 0 then .finite negative 0 minExponent
  else
    let estimate : Int := (Nat.log2 num : Int) - (Nat.log2 den : Int) - 53
    let q := max estimate minExponent
    let (n, d) := shiftRatio num den (-q)
    let q := if n / d < Nat.pow 2 53 then q else q + 1
    let (n, d) := shiftRatio num den (-q)
    let m := roundQuotient n d
    let (m, q) := if m = Nat.pow 2 53 then (Nat.pow 2 52, q + 1) else (m, q)
    if maxExponent < q then .infinite negative else .finite negative m q

/-- The number nearest to `num / den · 2^shift`. -/
def ofBinary (negative : Bool) (num den : Nat) (shift : Int) : Double :=
  let (n, d) := shiftRatio num den shift
  ofRatio negative n d

def ofNat (n : Nat) : Double := ofRatio false n 1

def zero : Double := .finite false 0 minExponent

def neg : Double → Double
  | .nan => .nan
  | .infinite s => .infinite (!s)
  | .finite s m q => .finite (!s) m q

def isFinite : Double → Bool
  | .finite .. => true
  | _ => false

def isZero : Double → Bool
  | .finite _ m _ => m == 0
  | _ => false

/-- The product of two finite numbers, rounded; anything else is `nan`. -/
def mul : Double → Double → Double
  | .finite s m q, .finite t n r => ofBinary (s != t) (m * n) 1 (q + r)
  | _, _ => .nan

/-- The quotient of two finite numbers, rounded; the divisor is not zero. -/
def div : Double → Double → Double
  | .finite s m q, .finite t n r => ofBinary (s != t) m n (q - r)
  | _, _ => .nan

/-- The number nearest to `digits · 10^exponent`. Exponents far outside the range of the format
are settled without computing the power. -/
def ofDecimal (negative : Bool) (digits : Nat) (exponent : Int) : Double :=
  let magnitude : Int := exponent + (Nat.log2 digits : Int) / 4
  if digits = 0 ∨ exponent + (Nat.log2 digits : Int) < -1200 then .finite negative 0 minExponent
  else if 400 < magnitude then .infinite negative
  else if 0 ≤ exponent then ofRatio negative (digits * Nat.pow 10 exponent.toNat) 1
  else ofRatio negative digits (Nat.pow 10 (-exponent).toNat)

/-- `10^k`, rounded. -/
def powTen (k : Nat) : Double := ofNat (Nat.pow 10 k)

/-- `num / den < 10^k`, for any sign of `k`. -/
def belowPowTen (num den : Nat) (k : Int) : Bool :=
  if 0 ≤ k then num < den * Nat.pow 10 k.toNat
  else num * Nat.pow 10 (-k).toNat < den

/-- The `p` with `10^p ≤ num / den < 10^(p+1)`, from an estimate that is at most one off. -/
def leadingPlace (num den : Nat) (estimate : Int) : Int :=
  if belowPowTen num den estimate then estimate - 1
  else if belowPowTen num den (estimate + 1) then estimate
  else estimate + 1

/-- Tries the decimal grids `10^k`, coarsest first. `low`, `value`, `high` and `den` give the
interval and the number as fractions; `closed` says whether the ends belong to it. -/
def shortestOnGrid (low value high den : Nat) (closed : Bool) : Nat → Int → Option (Nat × Int)
  | 0, _ => none
  | tries + 1, k =>
    let (num, unit) : Nat × Nat :=
      if 0 ≤ k then (1, den * Nat.pow 10 k.toNat) else (Nat.pow 10 (-k).toNat, den)
    let below := value * num / unit
    let inside (a : Nat) : Bool :=
      let x := a * unit
      if closed then low * num ≤ x && x ≤ high * num else low * num < x && x < high * num
    let lower := value * num - below * unit
    let upper := (below + 1) * unit - value * num
    match inside below, inside (below + 1) with
    | true, true => some (if lower < upper then below else below + 1, k)
    | true, false => some (below, k)
    | false, true => some (below + 1, k)
    | false, false => shortestOnGrid low value high den closed tries (k - 1)

/-- Digits and place of the shortest decimal that reads back as `significand · 2^exponent`. The
first grid is one coarser than the leading digit, since the number may round up to a power. -/
def digits? (significand : Nat) (exponent : Int) : Option (Nat × Int) :=
  let narrow := significand = Nat.pow 2 52 ∧ minExponent < exponent
  let (scale, den) := shiftRatio 1 1 (exponent - 2)
  let value := 4 * significand * scale
  let low := (4 * significand - if narrow then 1 else 2) * scale
  let high := (4 * significand + 2) * scale
  let estimate := ((Nat.log2 significand : Int) + exponent) * 30103 / 100000
  let place := leadingPlace value den estimate
  shortestOnGrid low value high den (significand % 2 = 0) 19 (place + 1)

/-- The digits of `n · 10^place` in positional notation. -/
def positional (n : Nat) (place : Int) : List Char :=
  let ds := Nat.toDigits 10 n
  if 0 ≤ place then ds ++ List.replicate place.toNat '0'
  else
    let fraction := (-place).toNat
    if fraction < ds.length then
      ds.take (ds.length - fraction) ++ '.' :: ds.drop (ds.length - fraction)
    else '0' :: '.' :: (List.replicate (fraction - ds.length) '0' ++ ds)

def text : Double → String
  | .nan => "NaN"
  | .infinite negative => if negative then "-inf" else "inf"
  | .finite negative m q =>
    let body := if m = 0 then ['0'] else
      match digits? m q with
      | some (n, place) => positional n place
      | none => ['0']
    String.ofList (if negative then '-' :: body else body)

def digitValue (c : Char) : Nat := c.toNat - '0'.toNat

def natOfDigits (ds : List Char) : Nat := ds.foldl (fun n c => n * 10 + digitValue c) 0

/-- An optional sign in front of a text. -/
def splitSign : List Char → Bool × List Char
  | '-' :: rest => (true, rest)
  | '+' :: rest => (false, rest)
  | cs => (false, cs)

/-- The exponent part `e12`, `E+3`; nothing stands for exponent 0. -/
def exponent? : List Char → Option Int
  | [] => some 0
  | c :: rest =>
    if c = 'e' ∨ c = 'E' then
      let (negative, ds) := splitSign rest
      if ds.isEmpty ∨ ¬ ds.all Char.isDigit then none
      else
        let n : Int := natOfDigits ds
        some (if negative then -n else n)
    else none

/-- Reads `12`, `12.5`, `.5`, `5.`, `1e3` and the names of infinity and not-a-number, in any
case and with an optional sign. -/
def ofText? (cs : List Char) : Option Double :=
  let (negative, body) := splitSign cs
  let lower := body.map Char.toLower
  if lower = ['n', 'a', 'n'] then some .nan
  else if lower = ['i', 'n', 'f'] ∨ lower = ['i', 'n', 'f', 'i', 'n', 'i', 't', 'y'] then
    some (.infinite negative)
  else
    let whole := body.takeWhile Char.isDigit
    let rest := body.dropWhile Char.isDigit
    let (fraction, rest) := match rest with
      | '.' :: r => (r.takeWhile Char.isDigit, r.dropWhile Char.isDigit)
      | r => ([], r)
    if whole.isEmpty ∧ fraction.isEmpty then none
    else (exponent? rest).map fun e =>
      ofDecimal negative (natOfDigits (whole ++ fraction)) (e - fraction.length)

end Double
end Toolflow
