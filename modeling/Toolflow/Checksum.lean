/-! The Adler-32 checksum. -/
namespace Toolflow.Checksum

/-- The largest prime below 2^16. -/
def modulus : Nat := 65521

/-- The sum of the bytes, starting from one, and the sum of those sums. -/
def step (sums : Nat × Nat) (b : UInt8) : Nat × Nat :=
  let low := (sums.1 + b.toNat) % modulus
  (low, (sums.2 + low) % modulus)

def adler32 (bytes : ByteArray) : Nat :=
  let (low, high) := bytes.foldl step (1, 0)
  high * 65536 + low

end Toolflow.Checksum
