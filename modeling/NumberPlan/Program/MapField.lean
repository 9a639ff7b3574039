import NumberPlan.Digit

/-!
# Packed jump indices

A map instruction holds one index per digit, in 29 bits: 0 stands for no
transition, `k + 1` for entry `k` of its jump table.  Entries are numbered in the
order of the lowest digit that uses them, so digit `d` needs an index of at most
`d + 1`; its share holds the values below the next power of two.

    packIndices is = some f → unpackIndices f = is
-/

namespace NumberPlan

/-- The number of values that each digit's share holds. -/
def shareSizes : List Nat := [2, 4, 4, 8, 8, 8, 8, 16, 16, 16]

/-- The number of values of the whole field. -/
def fieldLimit : Nat := 0x20000000

/-- The number of values that the share of digit `d` holds. -/
def shareSize (d : Digit) : Nat := shareSizes.getD d.val 1

/-- What a share counts for in the field: the product of the sizes of those below it. -/
def shareWeight (d : Digit) : Nat := (shareSizes.take d.val).foldl (· * ·) 1

/-- The index of digit `d` in a field. -/
def indexOf (field : Nat) (d : Digit) : Nat := field / shareWeight d % shareSize d

/-- All ten indices of a field. -/
def unpackIndices (field : Nat) : List Nat := Digit.all.map (indexOf field)

/-- Packs indices into shares of the given sizes, the first lowest. -/
def packShares : List Nat → List Nat → Option Nat
  | n :: ns, i :: is => if i < n then (packShares ns is).map (i + n * ·) else none
  | _, _ => some 0

/-- The field with the given ten indices, if each fits its share. -/
def packIndices (indices : List Nat) : Option Nat := packShares shareSizes indices

/-- The number of table entries that a field refers to. -/
def tableLength (field : Nat) : Nat := (unpackIndices field).foldl max 0

end NumberPlan
