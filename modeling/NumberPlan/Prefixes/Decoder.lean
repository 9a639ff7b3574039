import NumberPlan.Prefixes.Error
import NumberPlan.Prefixes.ModifiedUtf8
import NumberPlan.Wire.BigEndian

/-!
# Values in prefix files

A decoder takes a value from the front of some bytes and leaves the rest; an
encoder is a list of bytes, or an error.

    int32 (writeInt32 i ++ rest) = .ok (i, rest)       for i in range
    text (bytes of writeText s ++ rest) = .ok (s, rest)
-/

namespace NumberPlan

/-- Takes a value from the front of some bytes. -/
abbrev Decoder (α : Type) := List UInt8 → Except PrefixError (α × List UInt8)

/-! ## Decoders -/

namespace Decoder

/-- The next `n` bytes. -/
def bytes (n : Nat) : Decoder (List UInt8) := fun input =>
  let (a, rest) := input.splitAt n
  if a.length = n then .ok (a, rest) else .error (.input .endsEarly)

/-- A value, then another that depends on it. -/
def andThen {α β : Type} (d : Decoder α) (f : α → Decoder β) : Decoder β := fun input =>
  match d input with
  | .error e => .error e
  | .ok (a, rest) => f a rest

/-- Nothing taken. -/
def give {α : Type} (a : α) : Decoder α := fun input => .ok (a, input)

def fail {α : Type} (e : PrefixError) : Decoder α := fun _ => .error e

/-- A byte that is true unless it is zero. -/
def bool : Decoder Bool := (bytes 1).andThen fun bs => give (ofBigEndian bs != 0)

def word16 : Decoder Nat := (bytes 2).andThen fun bs => give (ofBigEndian bs)

def word32 : Decoder Nat := (bytes 4).andThen fun bs => give (ofBigEndian bs)

/-- A signed word of four bytes. -/
def int32 : Decoder Int := word32.andThen fun n =>
  give (if n < 0x80000000 then (n : Int) else (n : Int) - 0x100000000)

/-- A count of something, not negative. -/
def count (what : Counted) : Decoder Nat := int32.andThen fun i =>
  if i < 0 then fail (.negativeCount what i) else give i.toNat

/-- A text after its length in bytes. -/
def text : Decoder String := word16.andThen fun n => (bytes n).andThen fun bs =>
  match decodeText? bs with
  | none => fail .malformedText
  | some s => give s

/-- `n` values one after the other, each told its number and the values before it, latest
first. -/
def manyFrom {α : Type} (d : Nat → List α → Decoder α) (i : Nat) (done : List α) :
    (n : Nat) → Decoder (List α)
  | 0 => give done.reverse
  | n + 1 => (d i done).andThen fun a => manyFrom d (i + 1) (a :: done) n

/-- `n` values one after the other. -/
def many {α : Type} (d : Decoder α) (n : Nat) : Decoder (List α) := manyFrom (fun _ _ => d) 0 [] n

end Decoder

/-! ## Encoders -/

def writeBool (b : Bool) : List UInt8 := [if b then 1 else 0]

def writeWord16 (n : Nat) : List UInt8 := bigEndian n 2

def writeInt32 (i : Int) : List UInt8 := bigEndian (i % 0x100000000).toNat 4

def writeCount (n : Nat) : List UInt8 := writeInt32 n

/-- A text after its length, which has 16 bits. -/
def writeText (s : String) : Except PrefixError (List UInt8) :=
  let bs := encodeText s
  if bs.length < 0x10000 then .ok (writeWord16 bs.length ++ bs) else .error (.textTooLong bs.length)

/-- What is written for each element, in order. -/
def writeEach {α : Type} (f : α → Except PrefixError (List UInt8)) :
    List α → Except PrefixError (List UInt8)
  | [] => .ok []
  | a :: as =>
    match f a with
    | .error e => .error e
    | .ok bs =>
      match writeEach f as with
      | .error e => .error e
      | .ok rest => .ok (bs ++ rest)

end NumberPlan
