/-!
# Steps that can fault

A program must not reach outside an array, cut a character in two, count beyond a machine word or
run on for ever.  A checked computation stops at the first of these:

    Checked.element a i = .ok a[i]      for i < a.size, and a fault for any other i
-/

namespace NumberPlan

/-- What a program must not do. -/
inductive AccessFault where
  | outside (place size : Nat)
  /-- the text ends before this byte, or the byte is inside a character -/
  | cutAt (byte : Nat)
  | belowZero
  | overflow
  /-- a loop has not ended after the steps it was given -/
  | endless
  deriving DecidableEq, Repr

/-- A value, unless there was a fault on the way to it. -/
abbrev Checked (α : Type) := Except AccessFault α

namespace Checked

/-- The greatest place that 32 bits can count; wider machines count further. -/
def maxPlace : Nat := 0xFFFFFFFF

/-- The element at a place of an array. -/
def element {α : Type} (a : Array α) (i : Nat) : Checked α :=
  match a[i]? with
  | some x => .ok x
  | none => .error (.outside i a.size)

def plus (a b : Nat) : Checked Nat := if a + b ≤ maxPlace then .ok (a + b) else .error .overflow

def minus (a b : Nat) : Checked Nat := if b ≤ a then .ok (a - b) else .error .belowZero

/-- A word of `width` bits, shifted up. -/
def shiftLeft (width n distance : Nat) : Checked Nat :=
  if distance < width then .ok ((n <<< distance) % (1 <<< width)) else .error .overflow

/-- A word of `width` bits, shifted down. -/
def shiftRight (width n distance : Nat) : Checked Nat :=
  if distance < width then .ok (n >>> distance) else .error .overflow

end Checked

end NumberPlan
