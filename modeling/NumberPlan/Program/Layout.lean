import NumberPlan.Program.Blocks
import NumberPlan.Pattern.Reading

/-!
# Sizing jumps

A jump of distance 0 takes no bytes, one of up to 15 takes one, one of up to
4095 takes two.  Sizes decide distances and distances sizes: all jumps start at
size 0 and grow to what their distance needs until none grows.  Sizes never
shrink, so this ends, with the least sizes that suffice.

    settle items   the items with their jumps sized
    emit items     their bytes
-/

namespace NumberPlan

/-! ## Errors -/

/-- Why a pattern has no program. -/
inductive CompileError where
  | invalidPattern (cause : PatternError)
  /-- a jump is longer than a branch can say -/
  | programTooLarge (distance : Nat)
  /-- a jump leads back -/
  | backwardJump (source target : Nat)
  deriving DecidableEq, Repr

/-- The longest distance of a one-byte branch. -/
def maxShortBranch : Nat := 15

/-- The longest distance of a two-byte branch. -/
def maxLongBranch : Nat := 4095

def CompileError.message : CompileError → String
  | .invalidPattern e => "Invalid pattern: " ++ e.message
  | .programTooLarge d =>
    "Program too large: jump of " ++ toString d ++ " bytes exceeds the "
      ++ toString maxLongBranch ++ " byte branch limit"
  | .backwardJump a b =>
    "Jump from offset " ++ toString a ++ " back to " ++ toString b ++ " cannot be encoded"

/-! ## Places -/

/-- The bytes that an item takes. -/
def CodeItem.size : CodeItem → Nat
  | label _ => 0
  | plain i => i.size
  | dispatch head entries => head.headSize + entries
  | jump _ size => size

/-- Where the labels stand, if the first item is at `place`. -/
def labelPlaces (place : Nat) : List CodeItem → List (Nat × Nat)
  | [] => []
  | .label s :: items => (s, place) :: labelPlaces place items
  | i :: items => labelPlaces (place + i.size) items

/-- The distance from `stop` to the label of `target`. -/
def distanceTo (labels : List (Nat × Nat)) (target stop : Nat) : Except CompileError Nat :=
  let place := (labels.lookup target).getD 0
  if place < stop then .error (.backwardJump stop place) else .ok (place - stop)

/-- The bytes that a jump of this distance needs. -/
def neededSize (distance : Nat) : Except CompileError Nat :=
  if distance = 0 then .ok 0
  else if distance ≤ maxShortBranch then .ok 1
  else if distance ≤ maxLongBranch then .ok 2
  else .error (.programTooLarge distance)

/-! ## Growing -/

/-- The item at `place`, grown if it is a jump that its distance makes too small. -/
def growItem (labels : List (Nat × Nat)) (place : Nat) : CodeItem → Except CompileError CodeItem
  | .jump target size =>
    match distanceTo labels target (place + size) with
    | .error e => .error e
    | .ok distance =>
      match neededSize distance with
      | .error e => .error e
      | .ok needed => .ok (.jump target (max size needed))
  | i => .ok i

/-- One round of growing, by distances under the old sizes; `done` are the items before `place`,
latest first. -/
def growFrom (labels : List (Nat × Nat)) (place : Nat) (done : List CodeItem) :
    List CodeItem → Except CompileError (List CodeItem)
  | [] => .ok done.reverse
  | i :: items =>
    match growItem labels place i with
    | .error e => .error e
    | .ok j => growFrom labels (place + i.size) (j :: done) items

def grow (items : List CodeItem) : Except CompileError (List CodeItem) :=
  growFrom (labelPlaces 0 items) 0 [] items

/-- Grows until nothing changes.  `rounds` bounds the rounds; every round but the last adds a
byte, and a jump has at most two. -/
def growUntil : (rounds : Nat) → List CodeItem → Except CompileError (List CodeItem)
  | 0, items => .ok items
  | rounds + 1, items =>
    match grow items with
    | .error e => .error e
    | .ok grown => if grown = items then .ok items else growUntil rounds grown

/-- The items with their jumps sized. -/
def settle (items : List CodeItem) : Except CompileError (List CodeItem) :=
  growUntil (2 * items.length + 1) items

/-! ## Emitting -/

/-- The jump table of a dispatch before jumps of these sizes, the first of them `passed` bytes after
the table: each entry counts the bytes from the one after it to its jump. -/
def jumpTable (passed : Nat) : List Nat → List UInt8
  | [] => []
  | size :: sizes => UInt8.ofNat (sizes.length + passed) :: jumpTable (passed + size) sizes

/-- The bytes of the first item at `place`, the others following. -/
def emitItem (labels : List (Nat × Nat)) (place : Nat) (following : List CodeItem) :
    CodeItem → List UInt8
  | .label _ => []
  | .plain i => i.encode
  | .dispatch head entries =>
    (head.withTable (jumpTable 0 ((following.take entries).map CodeItem.size))).encode
  | .jump _ 0 => []
  | .jump target size =>
    let place' := (labels.lookup target).getD 0
    (Instruction.branch (place' - (place + size)) (size == 2)).encode

/-- The bytes of the items from `place` on. -/
def emitFrom (labels : List (Nat × Nat)) (place : Nat) : List CodeItem → List UInt8
  | [] => []
  | i :: items => emitItem labels place items i ++ emitFrom labels (place + i.size) items

def emit (items : List CodeItem) : List UInt8 := emitFrom (labelPlaces 0 items) 0 items

end NumberPlan
