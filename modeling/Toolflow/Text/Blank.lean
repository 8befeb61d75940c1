/-! Blank characters: the characters with Unicode's `White_Space` property. -/
namespace Toolflow.Text

def isBlank (c : Char) : Bool :=
  let n := c.toNat
  (9 ≤ n && n ≤ 13) || n == 0x20 || n == 0x85 || n == 0xA0 || n == 0x1680
    || (0x2000 ≤ n && n ≤ 0x200A) || n == 0x2028 || n == 0x2029 || n == 0x202F || n == 0x205F
    || n == 0x3000

def trimRightChars (cs : List Char) : List Char := (cs.reverse.dropWhile isBlank).reverse

/-- The text without blanks at its end. -/
def trimRight (s : String) : String := String.ofList (trimRightChars s.toList)

/-- The text without blanks at both ends. -/
def trim (s : String) : String := String.ofList (trimRightChars (s.toList.dropWhile isBlank))

end Toolflow.Text
