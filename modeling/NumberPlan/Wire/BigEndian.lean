/-!
# Big-endian words

    ofBigEndian (bigEndian n k) = n     for n < 256 ^ k
-/

namespace NumberPlan

/-- The lowest `count` bytes of a number, highest first. -/
def bigEndian (n : Nat) : (count : Nat) → List UInt8
  | 0 => []
  | count + 1 => bigEndian (n / 256) count ++ [UInt8.ofNat n]

/-- The number whose bytes, highest first, are given. -/
def ofBigEndian (bytes : List UInt8) : Nat := bytes.foldl (fun n b => 256 * n + b.toNat) 0

end NumberPlan
