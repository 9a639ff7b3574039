/-!
# Decimal digits of any script

    Digit.ofChar? c = some d      c is the decimal digit d of some script
    readDigits s    = .ok w       every character of s is a decimal digit, and w are their values

A number is written in the digits of any script that has a run of ten decimal
digits (category Nd of Unicode 16.0).  `Cursor` walks a digit string front to back
and keeps what it has passed.
-/

namespace NumberPlan

/-- A decimal digit. -/
abbrev Digit := Fin 10

/-! ## Digits as characters -/

namespace Digit

/-- All ten digits, ascending. -/
def all : List Digit := [0, 1, 2, 3, 4, 5, 6, 7, 8, 9]

/-- The code point of the digit zero of each script; the other nine follow it.  These are the 76
runs of category Nd in Unicode 16.0, and stand for the digits that `dec_from_char` normalises;
later versions may have more. -/
def zeros : List Nat :=
  [0x30, 0x660, 0x6F0, 0x7C0, 0x966, 0x9E6, 0xA66, 0xAE6, 0xB66, 0xBE6, 0xC66, 0xCE6, 0xD66,
   0xDE6, 0xE50, 0xED0, 0xF20, 0x1040, 0x1090, 0x17E0, 0x1810, 0x1946, 0x19D0, 0x1A80, 0x1A90,
   0x1B50, 0x1BB0, 0x1C40, 0x1C50, 0xA620, 0xA8D0, 0xA900, 0xA9D0, 0xA9F0, 0xAA50, 0xABF0,
   0xFF10, 0x104A0, 0x10D30, 0x10D40, 0x11066, 0x110F0, 0x11136, 0x111D0, 0x112F0, 0x11450,
   0x114D0, 0x11650, 0x116C0, 0x116D0, 0x116DA, 0x11730, 0x118E0, 0x11950, 0x11BF0, 0x11C50,
   0x11D50, 0x11DA0, 0x11F50, 0x16130, 0x16A60, 0x16AC0, 0x16B50, 0x16D70, 0x1CCF0, 0x1D7CE,
   0x1D7D8, 0x1D7E2, 0x1D7EC, 0x1D7F6, 0x1E140, 0x1E2F0, 0x1E4F0, 0x1E5F1, 0x1E950, 0x1FBF0]

/-- The value of `c` in the run of ten digits that starts at code point `base`. -/
def inRun? (c : Char) (base : Nat) : Option Digit :=
  if h : base ≤ c.toNat ∧ c.toNat < base + 10 then some ⟨c.toNat - base, by omega⟩ else none

/-- The value of a decimal digit of any script. -/
def ofChar? (c : Char) : Option Digit := zeros.findSome? (inRun? c)

/-- The value of an ASCII digit. -/
def ofAscii? (c : Char) : Option Digit := inRun? c 0x30

/-- The ASCII form of a digit. -/
def toChar (d : Digit) : Char := Char.ofNat (0x30 + d.val)

end Digit

/-! ## Digit strings -/

/-- The first place of a text that is not a decimal digit; places count characters. -/
structure InvalidDigit where
  position : Nat
  deriving DecidableEq, Repr

def InvalidDigit.message (e : InvalidDigit) : String :=
  "Character at position " ++ toString e.position ++ " is not a decimal digit"

/-- Reads characters as digits, the first of them standing at `position`. -/
def readDigitsFrom (position : Nat) : List Char → Except InvalidDigit (List Digit)
  | [] => .ok []
  | c :: cs =>
    match Digit.ofChar? c with
    | none => .error ⟨position⟩
    | some d => (readDigitsFrom (position + 1) cs).map (d :: ·)

/-- The digits a text is made of. -/
def readDigits (s : String) : Except InvalidDigit (List Digit) := readDigitsFrom 0 s.toList

/-- Reads values as digits, the first of them standing at `position`. -/
def digitsOfValuesFrom (position : Nat) : List Nat → Except InvalidDigit (List Digit)
  | [] => .ok []
  | n :: ns =>
    if h : n < 10 then (digitsOfValuesFrom (position + 1) ns).map (⟨n, h⟩ :: ·)
    else .error ⟨position⟩

/-- The digits with the given values. -/
def digitsOfValues (ns : List Nat) : Except InvalidDigit (List Digit) := digitsOfValuesFrom 0 ns

/-- A digit string in ASCII. -/
def asciiOfDigits (w : List Digit) : String := String.ofList (w.map Digit.toChar)

/-! ## Cursors -/

/-- A place inside a digit string: the digits already passed, latest first, and those ahead. -/
structure Cursor where
  past : List Digit
  ahead : List Digit
  deriving DecidableEq, Repr

namespace Cursor

/-- Before the first digit. -/
def ofDigits (w : List Digit) : Cursor := ⟨[], w⟩

/-- All digits, passed or not. -/
def digits (c : Cursor) : List Digit := c.past.reverse ++ c.ahead

def remaining (c : Cursor) : Nat := c.ahead.length

def length (c : Cursor) : Nat := c.past.length + c.ahead.length

def isEmpty (c : Cursor) : Bool := c.past.isEmpty && c.ahead.isEmpty

def hasNext (c : Cursor) : Bool := !c.ahead.isEmpty

/-- The same digits from the start. -/
def rewound (c : Cursor) : Cursor := ofDigits c.digits

/-- The next digit, if any, and the place after it. -/
def next (c : Cursor) : Option Digit × Cursor :=
  match c.ahead with
  | [] => (none, c)
  | d :: rest => (some d, ⟨d :: c.past, rest⟩)

/-- Passes `n` digits, or all that are left. -/
def skip (n : Nat) (c : Cursor) : Cursor :=
  ⟨(c.ahead.take n).reverse ++ c.past, c.ahead.drop n⟩

/-- Moves to where only `rest`, an end of what was ahead, is left. -/
def leave (rest : List Digit) (c : Cursor) : Cursor := c.skip (c.ahead.length - rest.length)

/-- The digit after the next `n` ones, if any. -/
def nth (n : Nat) (c : Cursor) : Option Digit × Cursor := (c.skip n).next

theorem digits_ofDigits (w : List Digit) : (ofDigits w).digits = w := rfl

theorem digits_skip (n : Nat) (c : Cursor) : (c.skip n).digits = c.digits := by
  simp [digits, skip, List.append_assoc]

theorem digits_next (c : Cursor) : c.next.2.digits = c.digits := by
  unfold next
  split
  · rfl
  · next h => simp [digits, h]

end Cursor

end NumberPlan
