import NumberPlan.Checked
import NumberPlan.Program.Execution

/-!
# Runs that check every access

Any bytes may be taken as a program.  A run goes from place to place in them, reaches into tables,
shifts words by distances it has looked up, counts back from the end of an instruction, and moves
a cursor over its digits.  Here each of these steps can fault, and so does a run that has not ended
after the attempts it was given.

    runChecked p (p.length + 1) 0 c = .ok (s, c')      for a cursor c inside its digits, where
    run p c.ahead = (s, c'.ahead)
-/

namespace NumberPlan

/-! ## Digits in an array -/

/-- A place in an array of digits. -/
structure DigitCursor where
  digits : Array Digit
  position : Nat
  deriving DecidableEq, Repr

namespace DigitCursor

/-- The digits that are left. -/
def ahead (c : DigitCursor) : List Digit := c.digits.toList.drop c.position

/-- The next digit, if any, and the place after it. -/
def next (c : DigitCursor) : Option Digit × DigitCursor :=
  match c.digits[c.position]? with
  | none => (none, c)
  | some d => (some d, { c with position := c.position + 1 })

/-- Passes digits one by one, and tells whether they were all there. -/
def pass : (count : Nat) → DigitCursor → Bool × DigitCursor
  | 0, c => (true, c)
  | count + 1, c =>
    match c.next with
    | (none, c) => (false, c)
    | (some _, c) => pass count c

end DigitCursor

/-! ## Packed indices -/

/-- The lowest bit of each digit's share of a field. -/
def shareShifts : Array Nat := #[0, 1, 3, 5, 8, 11, 14, 17, 21, 25]

/-- The number of bits in each digit's share. -/
def shareWidths : Array Nat := #[1, 2, 2, 3, 3, 3, 3, 4, 4, 4]

/-- The index of digit `d` in a field. -/
def indexChecked (field : Nat) (d : Digit) : Checked Nat := do
  let shift ← Checked.element shareShifts d.val
  let shifted ← Checked.shiftRight 32 field shift
  let width ← Checked.element shareWidths d.val
  let size ← Checked.shiftLeft 32 1 width
  let mask ← Checked.minus size 1
  return shifted &&& mask

/-- The number of table entries that a field refers to. -/
def tableLengthChecked (field : Nat) : Checked Nat := do
  let indices ← Digit.all.mapM (indexChecked field)
  return indices.foldl max 0

/-! ## Reading instructions -/

/-- The kinds that the three high bits of a first byte can name. -/
def OpCode.kinds : Array (Option OpCode) :=
  #[some branch, some single, some run, some set, some map, some terminalMap, none, none]

namespace Instruction

/-- The map instruction whose word starts with byte `b`. -/
def decodeMapChecked (b : UInt8) (terminal : Bool) : List UInt8 → Checked (Option Instruction)
  | c :: d :: e :: rest => do
    let indices := ofBigEndian [b, c, d, e] % fieldLimit
    let length ← tableLengthChecked indices
    let table := rest.take length
    return if table.length = length then some (map indices terminal table) else none
  | _ => return none

/-- The instruction at the start of some bytes; only those of a map are counted in a table. -/
def decodeChecked : List UInt8 → Checked (Option Instruction)
  | [] => return none
  | b :: rest => do
    let kind ← Checked.element OpCode.kinds (b.toNat / 32)
    match kind with
    | none => return none
    | some .map => decodeMapChecked b false rest
    | some .terminalMap => decodeMapChecked b true rest
    | some _ => return decode (b :: rest)

/-! ## Running one instruction -/

/-- The outcome of one instruction on a cursor. -/
structure CheckedStep where
  status : Status
  next : Nat
  cursor : DigitCursor
  deriving DecidableEq, Repr

/-- The place that an entry of the jump table of an instruction leads to; the table is at the end of
the instruction, and entries count from the byte after themselves. -/
def jumpChecked (stop : Nat) (table : Array UInt8) (entry : Nat) : Checked Nat := do
  let start ← Checked.minus stop table.size
  let jump ← Checked.element table entry
  return start + (entry + 1) + jump.toNat

/-- Runs an instruction that ends at place `stop`. -/
def stepChecked (stop : Nat) (c : DigitCursor) : Instruction → Checked CheckedStep
  | branch offset _ =>
    return if offset = 0 then ⟨.terminal, stop, c⟩ else ⟨.running, stop + offset, c⟩
  | single digit terminal =>
    match c.next with
    | (none, c) => return ⟨exhausted terminal, stop, c⟩
    | (some d, c) => return ⟨if d.val = digit then .running else .invalid, stop, c⟩
  | run count terminal =>
    match c.pass count with
    | (false, c) => return ⟨exhausted terminal, stop, c⟩
    | (true, c) => return ⟨.running, stop, c⟩
  | set mask terminal table =>
    match c.next with
    | (none, c) => return ⟨exhausted terminal, stop, c⟩
    | (some d, c) => do
      let bit ← Checked.shiftLeft 16 1 d.val
      let member := mask &&& bit != 0
      match table with
      | none => return ⟨if member then .running else .invalid, stop, c⟩
      | some (a, b) =>
        let place ← jumpChecked stop #[a, b] (if member then 0 else 1)
        return ⟨.running, place, c⟩
  | map indices terminal table =>
    match c.next with
    | (none, c) => return ⟨exhausted terminal, stop, c⟩
    | (some d, c) => do
      let index ← indexChecked indices d
      if index = 0 then return ⟨.invalid, stop, c⟩
      else
        let entry ← Checked.minus index 1
        let place ← jumpChecked stop table.toArray entry
        return ⟨.running, place, c⟩

end Instruction

/-! ## Running a program -/

/-- Runs a program from a place on; each attempt reads one instruction. -/
def runChecked (program : List UInt8) :
    (attempts place : Nat) → DigitCursor → Checked (Status × DigitCursor)
  | 0, _, _ => .error .endless
  | attempts + 1, place, c => do
    let read ← Instruction.decodeChecked (program.drop place)
    match read with
    | none => return (.invalid, c)
    | some i =>
      let s ← i.stepChecked (place + i.size) c
      match s.status with
      | .running => runChecked program attempts s.next s.cursor
      | status => return (status, s.cursor)

end NumberPlan
