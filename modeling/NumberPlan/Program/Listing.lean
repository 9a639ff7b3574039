import NumberPlan.Program.Instruction

/-!
# Listings

    disassemble p   the instructions of p in byte order, with their places, up to the first
                    byte that starts none
    listing p       one line each: the place in four digits or more, and the instruction
-/

namespace NumberPlan

/-- The instructions from place `at` on, and the place where reading stopped.  `fuel` bounds
their number. -/
def disassembleFrom : (fuel : Nat) → (place : Nat) → List UInt8 →
    List (Nat × Instruction) × Nat
  | 0, place, _ => ([], place)
  | fuel + 1, place, bytes =>
    match Instruction.decode bytes with
    | none => ([], place)
    | some i =>
      let r := disassembleFrom fuel (place + i.size) (bytes.drop i.size)
      ((place, i) :: r.1, r.2)

/-- The instructions of a program with their places, and the place where reading stopped. -/
def disassemble (program : List UInt8) : List (Nat × Instruction) × Nat :=
  disassembleFrom program.length 0 program

/-! ## Text -/

/-- A list of numbers in square brackets. -/
def bracketed (ns : List UInt8) : String :=
  "[" ++ String.intercalate ", " (ns.map fun n => toString n.toNat) ++ "]"

/-- A kind of instruction and its fields. -/
def withFields (kind : String) (fields : List (String × String)) : String :=
  kind ++ " \x7b " ++ String.intercalate ", " (fields.map fun f => f.1 ++ ": " ++ f.2) ++ " \x7d"

/-- An instruction with its fields by name. -/
def Instruction.describe : Instruction → String
  | branch offset long => withFields "Branch" [("offset", toString offset), ("long", toString long)]
  | single digit terminal =>
    withFields "Single" [("digit", toString digit), ("terminal", toString terminal)]
  | run count terminal =>
    withFields "Run" [("count", toString count), ("terminal", toString terminal)]
  | set mask terminal table =>
    let shown := match table with
      | none => "None"
      | some (a, b) => "Some(" ++ bracketed [a, b] ++ ")"
    withFields "Set"
      [("mask", toString mask), ("terminal", toString terminal), ("jump_table", shown)]
  | map indices terminal table =>
    withFields (if terminal then "TerminalMap" else "Map")
      [("indices", toString indices), ("jump_table", bracketed table)]

/-- A number in at least four digits. -/
def fourDigits (n : Nat) : String :=
  let s := toString n
  String.ofList (List.replicate (4 - s.length) '0') ++ s

/-- A program as text, one instruction a line. -/
def listing (program : List UInt8) : String :=
  String.join ((disassemble program).1.map fun e =>
    fourDigits e.1 ++ ": " ++ e.2.describe ++ "\n")

end NumberPlan
