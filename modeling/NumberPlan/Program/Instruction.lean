import NumberPlan.Program.MapField
import NumberPlan.Wire.BigEndian

/-!
# Instructions

A program is a string of bytes.  The three high bits of an instruction's first
byte name its kind; words are big-endian; an entry of a jump table counts bytes
from the byte after the entry.

    branch      000 E oooo [oooooooo]      E: the offset has 12 bits
    single      001 T vvvv                 T: input may end here
    run         010 T nnnn                 takes n + 1 digits
    set         011 T L 0 m9..m0 [jj jj]   L: a table follows, for members and for others
    map         100 and 29 bits of indices, then the jump table
    terminal    101 and 29 bits of indices, then the jump table; input may end here
    map

    decode (encode i ++ rest) = some i     for an instruction whose fields fit
-/

namespace NumberPlan

/-! ## Instructions and their bytes -/

/-- An instruction of a matching program. -/
inductive Instruction where
  /-- skips `offset` bytes after the instruction; 0 ends the program -/
  | branch (offset : Nat) (long : Bool)
  /-- takes this digit -/
  | single (digit : Nat) (terminal : Bool)
  /-- takes `count` digits of any value -/
  | run (count : Nat) (terminal : Bool)
  /-- takes a member of the set, or jumps by membership -/
  | set (mask : Nat) (terminal : Bool) (table : Option (UInt8 × UInt8))
  /-- jumps by the digit's index -/
  | map (indices : Nat) (terminal : Bool) (table : List UInt8)
  deriving DecidableEq, Repr

/-- The kinds of instruction, by the three high bits of their first byte. -/
inductive OpCode where
  | branch
  | single
  | run
  | set
  | map
  | terminalMap
  deriving DecidableEq, Repr

namespace OpCode

def tag : OpCode → Nat
  | branch => 0
  | single => 1
  | run => 2
  | set => 3
  | map => 4
  | terminalMap => 5

/-- The kind that a first byte names. -/
def ofByte? (b : UInt8) : Option OpCode :=
  match b.toNat / 32 with
  | 0 => some branch
  | 1 => some single
  | 2 => some run
  | 3 => some set
  | 4 => some map
  | 5 => some terminalMap
  | _ => none

end OpCode

namespace Instruction

def opcode : Instruction → OpCode
  | branch .. => .branch
  | single .. => .single
  | run .. => .run
  | set .. => .set
  | map _ false _ => .map
  | map _ true _ => .terminalMap

/-- The number of bytes an instruction takes. -/
def size : Instruction → Nat
  | branch _ false => 1
  | branch _ true => 2
  | single .. => 1
  | run .. => 1
  | set _ _ none => 2
  | set _ _ (some _) => 4
  | map _ _ table => 4 + table.length

/-! ### Writing -/

/-- The bit that stands for `b` in a word where it has this weight. -/
def flagBit (b : Bool) (weight : Nat) : Nat := if b then weight else 0

/-- A first byte: the kind, one flag and four low bits. -/
def leadByte (op : OpCode) (flag : Bool) (low : Nat) : UInt8 :=
  UInt8.ofNat (op.tag * 32 + flagBit flag 16 + low % 16)

/-- The word of a set instruction. -/
def setWord (mask : Nat) (terminal long : Bool) : Nat :=
  OpCode.tag .set * 0x2000 + flagBit terminal 0x1000 + flagBit long 0x800 + mask % 1024

/-- The word of a map instruction. -/
def mapWord (indices : Nat) (terminal : Bool) : Nat :=
  (if terminal then OpCode.tag .terminalMap else OpCode.tag .map) * fieldLimit
    + indices % fieldLimit

/-- The bytes of an instruction. -/
def encode : Instruction → List UInt8
  | branch offset false => [leadByte .branch false offset]
  | branch offset true => [leadByte .branch true (offset / 256), UInt8.ofNat offset]
  | single digit terminal => [leadByte .single terminal digit]
  | run count terminal => [leadByte .run terminal (count + 15)]
  | set mask terminal none => bigEndian (setWord mask terminal false) 2
  | set mask terminal (some (a, b)) => bigEndian (setWord mask terminal true) 2 ++ [a, b]
  | map indices terminal table => bigEndian (mapWord indices terminal) 4 ++ table

/-! ### Reading -/

/-- The set instruction whose word starts with byte `b`. -/
def decodeSet (b : UInt8) (terminal : Bool) : List UInt8 → Option Instruction
  | [] => none
  | c :: rest =>
    let mask := b.toNat % 4 * 256 + c.toNat
    if b.toNat / 8 % 2 = 1 then
      match rest with
      | x :: y :: _ => some (set mask terminal (some (x, y)))
      | _ => none
    else some (set mask terminal none)

/-- The map instruction whose word starts with byte `b`. -/
def decodeMap (b : UInt8) (terminal : Bool) : List UInt8 → Option Instruction
  | c :: d :: e :: rest =>
    let indices := ofBigEndian [b, c, d, e] % fieldLimit
    let table := rest.take (tableLength indices)
    if table.length = tableLength indices then some (map indices terminal table) else none
  | _ => none

/-- The instruction at the start of some bytes. -/
def decode : List UInt8 → Option Instruction
  | [] => none
  | b :: rest =>
    let low := b.toNat % 16
    let flag := b.toNat / 16 % 2 == 1
    match b.toNat / 32 with
    | 0 =>
      if flag then
        match rest with
        | [] => none
        | c :: _ => some (branch (low * 256 + c.toNat) true)
      else some (branch low false)
    | 1 => if low ≤ 9 then some (single low flag) else none
    | 2 => some (run (low + 1) flag)
    | 3 => decodeSet b flag rest
    | 4 => decodeMap b false rest
    | 5 => decodeMap b true rest
    | _ => none

/-- The number of bytes of an instruction, by the first word of the bytes that it is read from. -/
def extent : List UInt8 → Nat
  | [] => 0
  | b :: rest =>
    match b.toNat / 32 with
    | 0 => if b.toNat / 16 % 2 = 1 then 2 else 1
    | 3 => if b.toNat / 8 % 2 = 1 then 4 else 2
    | 4 | 5 => 4 + tableLength (ofBigEndian (b :: rest.take 3) % fieldLimit)
    | _ => 1

/-- The instruction at the start of some bytes, and how many of them are its own. -/
def decodeSized (bytes : List UInt8) : Option (Instruction × Nat) :=
  (decode bytes).map fun i => (i, extent bytes)

/-- The fields fit their places in the encoding. -/
def Valid : Instruction → Prop
  | branch offset false => offset ≤ 15
  | branch offset true => offset ≤ 4095
  | single digit _ => digit ≤ 9
  | run count _ => 1 ≤ count ∧ count ≤ 16
  | set mask _ _ => mask < 1024
  | map indices _ table => indices < fieldLimit ∧ table.length = tableLength indices

/-! ## Running one instruction -/

end Instruction

/-- What an instruction leaves behind. -/
inductive Status where
  /-- valid so far, the program goes on -/
  | running
  /-- a terminal place was reached -/
  | terminal
  /-- no transition takes the digit -/
  | invalid
  /-- the input ended before a terminal place -/
  | truncated
  deriving DecidableEq, Repr

/-- The outcome of one instruction: how it went, the place where the program goes on, and the
digits left. -/
structure Step where
  status : Status
  next : Nat
  rest : List Digit
  deriving DecidableEq, Repr

namespace Instruction

/-- How it goes where the input has ended. -/
def exhausted (terminal : Bool) : Status := if terminal then .terminal else .truncated

/-- Runs an instruction that ends at place `stop`.  Where the program does not go on, the place is
`stop`. -/
def step (stop : Nat) (digits : List Digit) : Instruction → Step
  | branch offset _ =>
    if offset = 0 then ⟨.terminal, stop, digits⟩ else ⟨.running, stop + offset, digits⟩
  | single digit terminal =>
    match digits with
    | [] => ⟨exhausted terminal, stop, []⟩
    | d :: rest => ⟨if d.val = digit then .running else .invalid, stop, rest⟩
  | run count terminal =>
    if count ≤ digits.length then ⟨.running, stop, digits.drop count⟩
    else ⟨exhausted terminal, stop, []⟩
  | set mask terminal table =>
    match digits with
    | [] => ⟨exhausted terminal, stop, []⟩
    | d :: rest =>
      match table with
      | none => ⟨if mask.testBit d.val then .running else .invalid, stop, rest⟩
      | some (a, b) =>
        if mask.testBit d.val then ⟨.running, stop - 2 + 1 + a.toNat, rest⟩
        else ⟨.running, stop - 2 + 2 + b.toNat, rest⟩
  | map indices terminal table =>
    match digits with
    | [] => ⟨exhausted terminal, stop, []⟩
    | d :: rest =>
      match indexOf indices d with
      | 0 => ⟨.invalid, stop, rest⟩
      | k + 1 =>
        match table[k]? with
        | none => ⟨.invalid, stop, rest⟩
        | some jump => ⟨.running, stop - table.length + (k + 1) + jump.toNat, rest⟩

end Instruction

end NumberPlan
