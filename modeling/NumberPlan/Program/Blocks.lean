import NumberPlan.Automaton.Numbering
import NumberPlan.Program.Instruction

/-!
# Blocks of code

Every state becomes a block: an instruction and one jump for each of its exits.
Blocks stand in the automaton's layout order, so jumps lead forward.

A state that takes any digit, with one exit, becomes a run.  A run that may not
end early also takes in the states after it, as long as they take any digit, do
not accept and are reached from nowhere else; these get no block of their own.

    blocks m   the code items of all blocks, before jumps have sizes
-/

namespace NumberPlan

/-! ## Code items -/

/-- An instruction whose jump table depends on where the jumps after it stand. -/
inductive Dispatch where
  | set (mask : Nat) (terminal : Bool)
  | map (indices : Nat) (terminal : Bool)
  deriving DecidableEq, Repr

/-- A piece of code. -/
inductive CodeItem where
  /-- the place where a state's block begins -/
  | label (state : Nat)
  /-- an instruction without a jump table -/
  | plain (i : Instruction)
  /-- an instruction with a table entry for each of the next `entries` jumps -/
  | dispatch (head : Dispatch) (entries : Nat)
  /-- a branch of `size` bytes to a state's block; no bytes where the block follows -/
  | jump (target size : Nat)
  deriving DecidableEq, Repr

namespace Dispatch

/-- The bytes before the table. -/
def headSize : Dispatch → Nat
  | set .. => 2
  | map .. => 4

/-- The instruction with a given table. -/
def withTable (table : List UInt8) : Dispatch → Instruction
  | set mask terminal => .set mask terminal (some (table.getD 0 0, table.getD 1 0))
  | map indices terminal => .map indices terminal table

end Dispatch

/-! ## Blocks -/

/-- The longest run. -/
def maxRun : Nat := 16

/-- The states that a run entered at `s` takes in, at most `room` of them, and its exit. -/
def absorb (m : Automaton) (inDegrees : Array Nat) : (room s : Nat) → List Nat × Nat
  | 0, s => ([], s)
  | room + 1, s =>
    if s ≠ Automaton.terminal ∧ inDegrees.getD s 0 = 1 ∧ (m.state s).accepting = false then
      match (m.state s).groups with
      | [(digits, t)] =>
        if digits = DigitSet.full then
          let r := absorb m inDegrees room t
          (s :: r.1, r.2)
        else ([], s)
      | _ => ([], s)
    else ([], s)

/-- The table index of each digit: one more than the place of its group. -/
def groupIndices (groups : List (DigitSet × Nat)) : List Nat :=
  Digit.all.map fun d =>
    let i := groups.findIdx fun g => g.1.mem d
    if i < groups.length then i + 1 else 0

/-- A jump to each target. -/
def jumpsTo (targets : List Nat) : List CodeItem := targets.map fun t => .jump t 0

/-- A map instruction and its jumps. -/
def mapBlock (accepting : Bool) (groups : List (DigitSet × Nat)) : List CodeItem :=
  .dispatch (.map ((packIndices (groupIndices groups)).getD 0) accepting) groups.length
    :: jumpsTo (groups.map (·.2))

/-- The block of a state, without its label, and the states it takes in. -/
def blockOf (m : Automaton) (inDegrees : Array Nat) (s : Nat) : List CodeItem × List Nat :=
  let st := m.state s
  match st.groups with
  | [] => ([.plain (.branch 0 false)], [])
  | [(digits, t)] =>
    match digits.toList with
    | [d] => ([.plain (.single d.val st.accepting), .jump t 0], [])
    | _ =>
      if digits = DigitSet.full then
        let r := if st.accepting then ([], t) else absorb m inDegrees (maxRun - 1) t
        ([.plain (.run (r.1.length + 1) st.accepting), .jump r.2 0], r.1)
      else ([.plain (.set digits.toNat st.accepting none), .jump t 0], [])
  | [(digits, t), (others, u)] =>
    if digits ||| others = DigitSet.full then
      (.dispatch (.set digits.toNat st.accepting) 2 :: jumpsTo [t, u], [])
    else (mapBlock st.accepting [(digits, t), (others, u)], [])
  | groups => (mapBlock st.accepting groups, [])

/-- The blocks of the states in `order` that no run has taken in. -/
def blocksIn (m : Automaton) (inDegrees : Array Nat) :
    (order absorbed : List Nat) → List CodeItem
  | [], _ => []
  | s :: order, absorbed =>
    if absorbed.contains s then blocksIn m inDegrees order absorbed
    else
      let b := blockOf m inDegrees s
      .label s :: b.1 ++ blocksIn m inDegrees order (b.2 ++ absorbed)

/-- The code items of an automaton. -/
def blocks (m : Automaton) : List CodeItem := blocksIn m m.inDegrees m.layoutOrder []

end NumberPlan
