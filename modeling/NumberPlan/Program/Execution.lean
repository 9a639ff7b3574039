import NumberPlan.Program.Instruction

/-!
# Running programs

A program runs over a digit string from its first byte.  Jumps lead forward
only, so what is left of a program is an end of its bytes, and every instruction
that goes on leaves a shorter one.

    run p w        how the run ends, and the digits it did not take
    taken p w      how many digits it took
    verdict p w    whether w matches, could still be completed, or cannot match

A place where no instruction can be read makes the input invalid.
-/

namespace NumberPlan

/-- Runs a program for at most `attempts` instructions. -/
def runFor : (attempts : Nat) → List UInt8 → List Digit → Status × List Digit
  | 0, _, digits => (.invalid, digits)
  | attempts + 1, program, digits =>
    match Instruction.decode program with
    | none => (.invalid, digits)
    | some i =>
      let s := i.step i.size digits
      match s.status with
      | .running => runFor attempts (program.drop s.next) s.rest
      | status => (status, s.rest)

/-- Runs a program; one attempt per byte and one more are enough. -/
def run (program : List UInt8) (digits : List Digit) : Status × List Digit :=
  runFor (program.length + 1) program digits

/-- The number of digits that a run takes. -/
def taken (program : List UInt8) (digits : List Digit) : Nat :=
  digits.length - (run program digits).2.length

/-- How a whole digit string fares against a program. -/
inductive Verdict where
  /-- all digits were taken and a terminal place was reached -/
  | matched
  /-- the digits ended before a terminal place -/
  | tooShort
  /-- the digits cannot match -/
  | invalid
  /-- a terminal place was reached with digits left over -/
  | tooLong
  deriving DecidableEq, Repr

/-- Matches a whole digit string. -/
def verdict (program : List UInt8) (digits : List Digit) : Verdict :=
  match run program digits with
  | (.terminal, []) => .matched
  | (.terminal, _ :: _) => .tooLong
  | (.truncated, _) => .tooShort
  | (.invalid, _) => .invalid
  | (.running, _) => .invalid

end NumberPlan
