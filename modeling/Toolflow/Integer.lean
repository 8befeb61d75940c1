/-! Decimal integers of 64 bits, read digit by digit.

The first fault on the way from left to right wins: a character that is no digit, or a digit that
takes the number out of range. -/
namespace Toolflow

inductive IntegerFault where
  | noDigits
  | invalidDigit
  | tooLarge
  | tooSmall
deriving Repr, DecidableEq

def IntegerFault.message : IntegerFault → String
  | .noDigits => "cannot parse integer from empty string"
  | .invalidDigit => "invalid digit found in string"
  | .tooLarge => "number too large to fit in target type"
  | .tooSmall => "number too small to fit in target type"

namespace Integer

def minInt64 : Int := -9223372036854775808

def maxInt64 : Int := 9223372036854775807

def maxUInt64 : Nat := 18446744073709551615

def fitsInt64 (n : Int) : Bool := minInt64 ≤ n && n ≤ maxInt64

/-- Reads digits onto `n`, away from zero if `negative`. -/
def readDigits (negative : Bool) : Int → List Char → Except IntegerFault Int
  | n, [] => .ok n
  | n, c :: rest =>
    if c.isDigit then
      let d : Int := c.toNat - '0'.toNat
      let next := if negative then n * 10 - d else n * 10 + d
      if next < minInt64 then .error .tooSmall
      else if maxInt64 < next then .error .tooLarge
      else readDigits negative next rest
    else .error .invalidDigit

/-- Reads an integer with an optional sign. -/
def readInt64 : List Char → Except IntegerFault Int
  | [] => .error .noDigits
  | ['+'] | ['-'] => .error .invalidDigit
  | '+' :: ds => readDigits false 0 ds
  | '-' :: ds => readDigits true 0 ds
  | ds => readDigits false 0 ds

end Integer
end Toolflow
