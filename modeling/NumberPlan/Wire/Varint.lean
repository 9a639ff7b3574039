/-!
# Variable-length integers

Seven bits to a byte, lowest first, the high bit set on all bytes but the last.

    readVarint (writeVarint n ++ rest) = some (n, rest)     for n < 2 ^ 64

A number of 64 bits takes at most ten bytes, of which the tenth is at most 1; one of
32 bits at most five, of which the fifth is at most 15.
-/

namespace NumberPlan

/-- The bytes of a number. -/
def writeVarint (n : Nat) : List UInt8 :=
  if n < 128 then [UInt8.ofNat n] else UInt8.ofNat (n % 128 + 128) :: writeVarint (n / 128)
termination_by n
decreasing_by omega

/-- Reads a number of at most `room` bytes, the last possible one being at most `top`. -/
def readVarintIn (top : Nat) : (room : Nat) → List UInt8 → Option (Nat × List UInt8)
  | 0, _ => none
  | _ + 1, [] => none
  | room + 1, b :: rest =>
    if b.toNat < 128 then
      if room = 0 ∧ top < b.toNat then none else some (b.toNat, rest)
    else (readVarintIn top room rest).map fun r => (b.toNat - 128 + 128 * r.1, r.2)

/-- The number of 64 bits at the start of some bytes, and the bytes after it. -/
def readVarint (bytes : List UInt8) : Option (Nat × List UInt8) := readVarintIn 1 10 bytes

/-- The number of 32 bits at the start of some bytes, and the bytes after it. -/
def readVarint32 (bytes : List UInt8) : Option (Nat × List UInt8) := readVarintIn 15 5 bytes

/-- All numbers that some bytes hold. `fuel` bounds their number. -/
def readVarints : (fuel : Nat) → List UInt8 → Option (List Nat)
  | fuel + 1, b :: bytes =>
    match readVarint (b :: bytes) with
    | none => none
    | some (n, rest) => (readVarints fuel rest).map (n :: ·)
  | _, _ => some []

/-! ## 32-bit integers -/

/-- A signed 32-bit integer as it is written, in 64 bits. -/
def varintOfInt (i : Int) : Nat := (i % 0x10000000000000000).toNat

/-- The signed 32-bit integer that 64 bits stand for. -/
def intOfVarint? (n : Nat) : Option Int :=
  let i : Int := if n < 0x8000000000000000 then n else n - 0x10000000000000000
  if -0x80000000 ≤ i ∧ i < 0x80000000 then some i else none

end NumberPlan
