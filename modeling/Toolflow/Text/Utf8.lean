/-! Bytes read as UTF-8, with faults replaced.

Each longest run of bytes that begins a character but does not complete it, and each byte that
begins none, becomes one U+FFFD. -/
namespace Toolflow.Text

def replacement : Char := Char.ofNat 0xFFFD

/-- How many bytes follow a first byte, its own bits, and the range of the byte after it. -/
def leadByte? (b : Nat) : Option (Nat × Nat × Nat × Nat) :=
  if b < 0xC2 then none
  else if b < 0xE0 then some (1, b - 0xC0, 0x80, 0xBF)
  else if b < 0xF0 then
    some (2, b - 0xE0, if b = 0xE0 then 0xA0 else 0x80, if b = 0xED then 0x9F else 0xBF)
  else if b < 0xF5 then
    some (3, b - 0xF0, if b = 0xF0 then 0x90 else 0x80, if b = 0xF4 then 0x8F else 0xBF)
  else none

/-- Decodes bytes; `pending` counts the bytes still missing from the character begun with the bits
`bits`, the next of which lies between `low` and `high`. -/
def decodeFrom : (pending bits low high : Nat) → List UInt8 → List Char
  | 0, _, _, _, [] => []
  | _ + 1, _, _, _, [] => [replacement]
  | 0, _, _, _, b :: rest =>
    let n := b.toNat
    if n < 0x80 then Char.ofNat n :: decodeFrom 0 0 0 0 rest
    else match leadByte? n with
      | some (pending, bits, low, high) => decodeFrom pending bits low high rest
      | none => replacement :: decodeFrom 0 0 0 0 rest
  | pending + 1, bits, low, high, b :: rest =>
    let n := b.toNat
    if low ≤ n ∧ n ≤ high then
      let bits := bits * 64 + (n - 0x80)
      if pending = 0 then Char.ofNat bits :: decodeFrom 0 0 0 0 rest
      else decodeFrom pending bits 0x80 0xBF rest
    else if n < 0x80 then replacement :: Char.ofNat n :: decodeFrom 0 0 0 0 rest
    else match leadByte? n with
      | some (pending, bits, low, high) => replacement :: decodeFrom pending bits low high rest
      | none => replacement :: replacement :: decodeFrom 0 0 0 0 rest

/-- The text of any bytes. -/
def ofUtf8 (bytes : ByteArray) : String := String.ofList (decodeFrom 0 0 0 0 bytes.toList)

end Toolflow.Text
