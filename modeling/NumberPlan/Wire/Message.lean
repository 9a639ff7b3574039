import NumberPlan.Wire.Varint

/-!
# Messages as fields

A message is a string of fields, each a tag and a payload; the low three bits of
the tag tell the kind of payload, the rest is the number of the field.  A group
is a stretch between an opening and a closing tag, and is passed over.

    readFields shape missing (writeFields fs) = some fs     for numbers and payloads in range

Tags and lengths have 32 bits.  Only parts, which are messages and packed lists, have
lengths of 64 bits and may outlast the input, which may end between two fields of any
message.  `missing` is the number of bytes that the message should still have after
its last one.
-/

namespace NumberPlan

/-- What a field carries. -/
inductive Payload where
  | varint (n : Nat)
  | fixed64 (n : Nat)
  /-- bytes after their number -/
  | bytes (bs : List UInt8)
  /-- the bytes of a part after their number; `missing` is how many the input lacks at its end -/
  | part (bs : List UInt8) (missing : Nat)
  | fixed32 (n : Nat)
  deriving DecidableEq, Repr

/-- A field's number and payload. -/
abbrev Field := Nat × Payload

/-! ## Writing -/

/-- The lowest `count` bytes of a number, lowest first. -/
def littleEndian (n : Nat) : (count : Nat) → List UInt8
  | 0 => []
  | count + 1 => UInt8.ofNat n :: littleEndian (n / 256) count

def writeTag (number kind : Nat) : List UInt8 := writeVarint (8 * number + kind)

def writeField : Field → List UInt8
  | (k, .varint n) => writeTag k 0 ++ writeVarint n
  | (k, .fixed64 n) => writeTag k 1 ++ littleEndian n 8
  | (k, .bytes bs) => writeTag k 2 ++ writeVarint bs.length ++ bs
  | (k, .part bs missing) => writeTag k 2 ++ writeVarint (bs.length + missing) ++ bs
  | (k, .fixed32 n) => writeTag k 5 ++ littleEndian n 4

def writeFields (fs : List Field) : List UInt8 := fs.flatMap writeField

/-! ## Reading -/

/-- What the reading of a message depends on. -/
structure Shape where
  /-- whether bytes in the field of this number are a part -/
  isPart : Nat → Bool
  /-- how many groups may be open at once -/
  groups : Nat

/-- A piece of a message. -/
inductive Piece where
  | field (f : Field)
  | openGroup
  | closeGroup
  deriving DecidableEq, Repr

/-- The first `n` bytes and the rest, if there are that many. -/
def splitBytes? (n : Nat) (bytes : List UInt8) : Option (List UInt8 × List UInt8) :=
  let (a, b) := bytes.splitAt n
  if a.length = n then some (a, b) else none

/-- The number whose bytes, lowest first, are given. -/
def ofLittleEndian : List UInt8 → Nat
  | [] => 0
  | b :: bs => b.toNat + 256 * ofLittleEndian bs

/-- The bytes of a part, of which the input may lack as many as the whole message does. -/
def readPart (missing : Nat) (bytes : List UInt8) : Option (Payload × List UInt8) :=
  match readVarint bytes with
  | none => none
  | some (n, rest) =>
    let (a, rest) := rest.splitAt n
    let lacking := n - a.length
    if lacking ≤ missing then some (.part a lacking, rest) else none

/-- Bytes after their number. -/
def readBytes (bytes : List UInt8) : Option (Payload × List UInt8) :=
  match readVarint32 bytes with
  | none => none
  | some (n, rest) => (splitBytes? n rest).map fun r => (.bytes r.1, r.2)

/-- The payload of a given kind. -/
def readPayload (isPart : Bool) (kind missing : Nat) (bytes : List UInt8) :
    Option (Payload × List UInt8) :=
  match kind with
  | 0 => (readVarint bytes).map fun r => (.varint r.1, r.2)
  | 1 => (splitBytes? 8 bytes).map fun r => (.fixed64 (ofLittleEndian r.1), r.2)
  | 2 => if isPart then readPart missing bytes else readBytes bytes
  | 5 => (splitBytes? 4 bytes).map fun r => (.fixed32 (ofLittleEndian r.1), r.2)
  | _ => none

/-- The piece whose tag has been read, and the bytes after it. -/
def readTagged (isPart : Nat → Bool) (number kind missing : Nat) (bytes : List UInt8) :
    Option (Piece × List UInt8) :=
  match kind with
  | 3 => some (.openGroup, bytes)
  | 4 => some (.closeGroup, bytes)
  | kind => (readPayload (isPart number) kind missing bytes).map fun r =>
      (.field (number, r.1), r.2)

/-- The piece at the start of some bytes, and the bytes after it.  No field has number 0. -/
def readPiece (isPart : Nat → Bool) (missing : Nat) (bytes : List UInt8) :
    Option (Piece × List UInt8) :=
  match readVarint32 bytes with
  | none => none
  | some (tag, rest) =>
    if 8 ≤ tag then readTagged isPart (tag / 8) (tag % 8) missing rest else none

/-- The fields of a message, inside `depth` open groups; fields inside a group are dropped, and no
bytes among them are a part.  `fuel` bounds the number of pieces. -/
def readFieldsFrom (shape : Shape) (missing : Nat) :
    (fuel depth : Nat) → List UInt8 → Option (List Field)
  | fuel + 1, depth, b :: bytes =>
    match readPiece (fun k => depth == 0 && shape.isPart k) missing (b :: bytes) with
    | none => none
    | some (.openGroup, rest) =>
      if depth < shape.groups then readFieldsFrom shape missing fuel (depth + 1) rest else none
    | some (.closeGroup, rest) =>
      if depth = 0 then none else readFieldsFrom shape missing fuel (depth - 1) rest
    | some (.field f, rest) =>
      if depth = 0 then (readFieldsFrom shape missing fuel 0 rest).map (f :: ·)
      else readFieldsFrom shape missing fuel depth rest
  | _, depth, _ => if depth = 0 then some [] else none

/-- The fields of a message that lacks its last `missing` bytes. -/
def readFields (shape : Shape) (missing : Nat) (bytes : List UInt8) : Option (List Field) :=
  readFieldsFrom shape missing bytes.length 0 bytes

/-- The greatest length of an input. -/
def maxInput : Nat := 0xFFFFFFFFFFFFFFFF

/-- The fields of a message that is a whole input, and so has no length of its own. -/
def readInput (shape : Shape) (bytes : List UInt8) : Option (List Field) :=
  readFields shape (maxInput - bytes.length) bytes

end NumberPlan
