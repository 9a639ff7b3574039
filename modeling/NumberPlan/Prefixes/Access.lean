import NumberPlan.Checked
import NumberPlan.Prefixes.Map
import NumberPlan.Prefixes.Text

/-!
# Lookups that check every access

A lookup reaches into arrays, cuts texts at bytes and counts in unsigned machine words, on data
that may come from any file.  Here each of these steps can fault: an array has nothing outside its
bounds, a text is cut between characters only, a difference is not below zero, a sum fits a word.

    m.lookupDigitsChecked digits = .ok (m.lookupDigits digits)      for a map that was read
-/

namespace NumberPlan

namespace Checked

/-- The characters in the first `n` bytes. -/
def leadingBytes (n : Nat) : List Char → Checked (List Char)
  | [] => if n = 0 then .ok [] else .error (.cutAt n)
  | c :: cs =>
    if n = 0 then .ok []
    else if c.utf8Size ≤ n then (leadingBytes (n - c.utf8Size) cs).map (c :: ·)
    else .error (.cutAt n)

end Checked

/-! ## Columns -/

namespace PlainStorage

def prefixes (s : PlainStorage) : Array Nat := s.entries.map (·.1)

def descriptions (s : PlainStorage) : Array String := s.entries.map (·.2)

end PlainStorage

namespace PooledStorage

def prefixes (s : PooledStorage) : Array Nat := s.entries.map (·.1)

def indices (s : PooledStorage) : Array Nat := s.entries.map (·.2)

end PooledStorage

namespace Storage

def prefixChecked (i : Nat) : Storage → Checked Nat
  | plain s => Checked.element s.prefixes i
  | pooled s => Checked.element s.prefixes i

def descriptionChecked (i : Nat) : Storage → Checked String
  | plain s => Checked.element s.descriptions i
  | pooled s => do
    let index ← Checked.element s.indices i
    Checked.element s.pool index

end Storage

/-! ## Lookups -/

namespace PrefixMap

/-- The first of the places from `low` to `high` whose prefix is above `value`, or `high`. -/
def upperBoundChecked (s : Storage) (value : Nat) : (steps low high : Nat) → Checked Nat
  | 0, _, _ => .error .endless
  | steps + 1, low, high =>
    if low < high then do
      let gap ← Checked.minus high low
      let mid ← Checked.plus low (gap / 2)
      let k ← s.prefixChecked mid
      if k ≤ value then
        let next ← Checked.plus mid 1
        upperBoundChecked s value steps next high
      else upperBoundChecked s value steps low mid
    else .ok low

/-- The last place up to `last` whose prefix is not above `value`. -/
def lastAtMostChecked (s : Storage) (last value : Nat) : Checked (Option Nat) := do
  let high ← Checked.plus last 1
  let i ← upperBoundChecked s value (last + 2) 0 high
  return match i with
    | 0 => none
    | i + 1 => some i

/-- Tries the lengths in order, on the entries up to `last`. -/
def searchChecked (s : Storage) (digits : String) :
    (lengths : List Nat) → (last : Nat) → Checked (Option String)
  | [], _ => .ok none
  | l :: ls, last => do
    let candidate ← Checked.leadingBytes (min digits.utf8ByteSize l) digits.toList
    match readNumber32 candidate with
    | .error _ => searchChecked s digits ls last
    | .ok n =>
      match ← lastAtMostChecked s last n with
      | none => return none
      | some i =>
        let k ← s.prefixChecked i
        if k = n then
          let description ← s.descriptionChecked i
          return some description
        else searchChecked s digits ls i

/-- The description of the longest prefix of some digits. -/
def lookupDigitsChecked (m : PrefixMap) (digits : String) : Checked (Option String) :=
  match plainDigits? digits with
  | none => .ok none
  | some _ =>
    match m.size with
    | 0 => .ok none
    | n + 1 => searchChecked m.storage digits m.storage.lengths.reverse n

/-- The description of the longest prefix of a calling code followed by a national number. -/
def lookupChecked (m : PrefixMap) (code : Int) (number : String) : Checked (Option String) :=
  m.lookupDigitsChecked (toString code ++ number)

/-- One line for each entry. -/
def dumpChecked (m : PrefixMap) : Checked String := do
  let lines ← (List.range m.size).mapM fun i => do
    let k ← m.storage.prefixChecked i
    let description ← m.storage.descriptionChecked i
    return toString k ++ "|" ++ description ++ "\n"
  return String.join lines

end PrefixMap

end NumberPlan
