import NumberPlan.Digit
import NumberPlan.Prefixes.Storage
import NumberPlan.Text.Space
import NumberPlan.Text.Utf8

/-!
# The text form of prefix maps

One `prefix|description` a line.  Blanks around a line are dropped; empty lines,
lines that start with `#`, and lines without a bar or without a prefix say nothing.
A later line replaces an earlier one with the same prefix.

    parsePrefixes (utf8 m.dump) = .ok t     for the map m of a table t with short, trim lines
-/

namespace NumberPlan

/-! ## Lines -/

/-- The characters between the blanks at either end. -/
def trimSpace (cs : List Char) : List Char :=
  (((cs.dropWhile isSpace).reverse).dropWhile isSpace).reverse

/-- The lines of some bytes, each with its newline; `line` is the one being read, backwards. -/
def linesFrom (line : List UInt8) : List UInt8 → List (List UInt8)
  | [] => if line.isEmpty then [] else [line.reverse]
  | b :: bs => if b = 10 then (b :: line).reverse :: linesFrom [] bs else linesFrom (b :: line) bs

/-- The longest line, in bytes and with its newline. -/
def maxLine : Nat := 2048

/-! ## Entries -/

/-- Reads digits of a 32-bit number after `n`. -/
def readNumberFrom (n : Nat) : List Char → Except NumberFault Nat
  | [] => .ok n
  | c :: cs =>
    match Digit.ofAscii? c with
    | none => .error .invalidDigit
    | some d =>
      if 10 * n + d.val < 0x100000000 then readNumberFrom (10 * n + d.val) cs else .error .tooLarge

/-- A 32-bit number in decimal digits, which a plus sign may precede. -/
def readNumber32 (cs : List Char) : Except NumberFault Nat :=
  let digits := match cs with
    | '+' :: ds => ds
    | ds => ds
  if digits.isEmpty then .error .invalidDigit else readNumberFrom 0 digits

/-- What is before the first bar and what is after it. -/
def splitBar (cs : List Char) : Option (List Char × List Char) :=
  match cs.span (· != '|') with
  | (a, _ :: b) => some (a, b)
  | (_, []) => none

/-- The entry that a line holds, if any. -/
def entryOf (line : String) : Except PrefixError (Option (Nat × String)) :=
  let cs := trimSpace line.toList
  match cs with
  | '#' :: _ => .ok none
  | cs =>
    match splitBar cs with
    | none => .ok none
    | some ([], _) => .ok none
    | some (key, description) =>
      match readNumber32 key with
      | .error fault => .error (.invalidKey (String.ofList key) fault)
      | .ok n => .ok (some (n, String.ofList description))

/-- The entry of line `number`, as it was read. -/
def entryOfLine (number : Nat) (line : List UInt8) : Except PrefixError (Option (Nat × String)) :=
  match ofUtf8? line with
  | none => .error (.input .notUtf8)
  | some s => if maxLine < line.length then .error (.lineTooLong number maxLine) else entryOf s

/-- Takes in the entries of lines, the first of them being line `number`. -/
def gatherLines (number : Nat) (t : PrefixTable) : List (List UInt8) → Except PrefixError PrefixTable
  | [] => .ok t
  | line :: lines =>
    match entryOfLine number line with
    | .error e => .error e
    | .ok none => gatherLines (number + 1) t lines
    | .ok (some (n, s)) => gatherLines (number + 1) (t.insert n s) lines

/-- The table that a text holds. -/
def parsePrefixes (bytes : List UInt8) : Except PrefixError PrefixTable :=
  gatherLines 1 SortedTable.empty (linesFrom [] bytes)

end NumberPlan
