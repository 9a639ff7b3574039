/-!
# Modified UTF-8

A text is written as its UTF-16 units, each in one to three bytes; the unit 0 takes
two, so no byte is zero, and a character outside the basic plane takes two units of
three bytes each.

    decodeText? (encodeText s) = some s

Reading takes longer forms and the byte zero too, but units have to make up
characters.
-/

namespace NumberPlan

/-! ## Units -/

/-- The UTF-16 units of a character. -/
def unitsOf (c : Char) : List Nat :=
  let n := c.toNat
  if n < 0x10000 then [n]
  else [0xD800 + (n - 0x10000) / 0x400, 0xDC00 + (n - 0x10000) % 0x400]

/-- The character with this code point, if there is one. -/
def charOf? (n : Nat) : Option Char := if n.isValidChar then some (Char.ofNat n) else none

/-- The characters that units make up; `done` are those before, latest first. -/
def charsOfUnits? (done : List Char) : List Nat → Option (List Char)
  | [] => some done.reverse
  | [u] => (charOf? u).map fun c => (c :: done).reverse
  | u :: v :: us =>
    if 0xD800 ≤ u ∧ u < 0xDC00 then
      if 0xDC00 ≤ v ∧ v < 0xE000 then
        (charOf? (0x10000 + (u - 0xD800) * 0x400 + (v - 0xDC00))).bind fun c =>
          charsOfUnits? (c :: done) us
      else none
    else (charOf? u).bind fun c => charsOfUnits? (c :: done) (v :: us)

/-! ## Bytes -/

/-- The bytes of a unit. -/
def bytesOfUnit (u : Nat) : List UInt8 :=
  if 1 ≤ u ∧ u < 0x80 then [UInt8.ofNat u]
  else if u < 0x800 then [UInt8.ofNat (0xC0 + u / 64), UInt8.ofNat (0x80 + u % 64)]
  else
    [UInt8.ofNat (0xE0 + u / 4096), UInt8.ofNat (0x80 + u / 64 % 64), UInt8.ofNat (0x80 + u % 64)]

/-- The low six bits of a byte that continues a unit. -/
def continued? (b : UInt8) : Option Nat :=
  if b.toNat / 64 = 2 then some (b.toNat % 64) else none

/-- The units that bytes stand for; `done` are those before, latest first. -/
def unitsOfBytes? (done : List Nat) : List UInt8 → Option (List Nat)
  | [] => some done.reverse
  | a :: bs =>
    let n := a.toNat
    if n < 0x80 then unitsOfBytes? (n :: done) bs
    else if 0xC0 ≤ n ∧ n < 0xE0 then
      match bs with
      | b :: bs =>
        match continued? b with
        | some x => unitsOfBytes? ((n % 32 * 64 + x) :: done) bs
        | none => none
      | [] => none
    else if 0xE0 ≤ n ∧ n < 0xF0 then
      match bs with
      | b :: c :: bs =>
        match continued? b, continued? c with
        | some x, some y => unitsOfBytes? ((n % 16 * 4096 + x * 64 + y) :: done) bs
        | _, _ => none
      | _ => none
    else none

/-! ## Texts -/

/-- The modified UTF-8 bytes of a text. -/
def encodeText (s : String) : List UInt8 := (s.toList.flatMap unitsOf).flatMap bytesOfUnit

/-- The text that bytes stand for. -/
def decodeText? (bytes : List UInt8) : Option String :=
  ((unitsOfBytes? [] bytes).bind (charsOfUnits? [])).map String.ofList

end NumberPlan
