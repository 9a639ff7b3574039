import NumberPlan.Digit
import NumberPlan.Prefixes.Storage

/-!
# Prefix maps

A prefix map tells what the longest known prefix of a number stands for.

    m.lookupDigits d = some t     t belongs to the longest prefix of d that is in the map
    PrefixMap.read (bytes written of m ++ rest) = .ok (m, rest)

The search goes through the recorded lengths from the greatest down.  What an
earlier, longer candidate was not above, a shorter one is not above either, so the
end of the range that is searched only moves down.
-/

namespace NumberPlan

/-- A map from prefixes to descriptions. -/
structure PrefixMap where
  storage : Storage
  deriving DecidableEq, Repr

namespace PrefixMap

/-! ## Building -/

/-- The map of a table, pooled only if that is shorter when written. -/
def build (t : PrefixTable) : Except PrefixError PrefixMap :=
  match PlainStorage.ofTable t with
  | .error e => .error e
  | .ok plain =>
    if t.entries.isEmpty then .ok ⟨.plain plain⟩
    else
      match PooledStorage.ofTable t with
      | .error e => .error e
      | .ok pooled =>
        match plain.write, pooled.write with
        | .error e, _ => .error e
        | .ok _, .error e => .error e
        | .ok a, .ok b => .ok ⟨if b.length < a.length then .pooled pooled else .plain plain⟩

/-! ## Looking up -/

def size (m : PrefixMap) : Nat := m.storage.size

/-- The first of the places from `low` to `high` whose prefix is above `value`, or `high`;
`steps` bounds the halvings. -/
def upperBound (s : Storage) (value : Nat) : (steps low high : Nat) → Nat
  | 0, low, _ => low
  | steps + 1, low, high =>
    if low < high then
      let mid := low + (high - low) / 2
      if s.prefixAt mid ≤ value then upperBound s value steps (mid + 1) high
      else upperBound s value steps low mid
    else low

/-- The last place up to `last` whose prefix is not above `value`. -/
def lastAtMost? (s : Storage) (last value : Nat) : Option Nat :=
  match upperBound s value (last + 2) 0 (last + 1) with
  | 0 => none
  | i + 1 => some i

/-- The number that digits stand for. -/
def valueOf (w : List Digit) : Nat := w.foldl (fun n d => 10 * n + d.val) 0

/-- The value of a candidate, if there is one and it has 32 bits. -/
def candidate? (w : List Digit) (length : Nat) : Option Nat :=
  let c := w.take length
  if c.isEmpty then none
  else
    let n := valueOf c
    if n < 0x100000000 then some n else none

/-- Tries the lengths in order, on the entries up to `last`. -/
def search (s : Storage) (w : List Digit) : (lengths : List Nat) → (last : Nat) → Option String
  | [], _ => none
  | l :: ls, last =>
    match candidate? w l with
    | none => search s w ls last
    | some n =>
      match lastAtMost? s last n with
      | none => none
      | some i => if s.prefixAt i = n then some (s.descriptionAt i) else search s w ls i

/-- The digits of a text of ASCII digits, at least one. -/
def plainDigits? (s : String) : Option (List Digit) :=
  if s.isEmpty then none else s.toList.mapM Digit.ofAscii?

/-- The description of the longest prefix of some digits. -/
def lookupDigits (m : PrefixMap) (digits : String) : Option String :=
  match plainDigits? digits with
  | none => none
  | some w =>
    match m.size with
    | 0 => none
    | n + 1 => search m.storage w m.storage.lengths.reverse n

/-- The description of the longest prefix of a calling code followed by a national number. -/
def lookup (m : PrefixMap) (code : Int) (number : String) : Option String :=
  m.lookupDigits (toString code ++ number)

/-! ### The same by trying every entry -/

/-- The description of the entry with this prefix. -/
def entryWith? (s : Storage) (n : Nat) : Option String := s.entries.lookup n

/-- Tries the lengths in order, on all entries. -/
def scan (s : Storage) (w : List Digit) (lengths : List Nat) : Option String :=
  lengths.findSome? fun l => (candidate? w l).bind (entryWith? s)

/-! ## Files -/

def write (m : PrefixMap) : Except PrefixError (List UInt8) :=
  m.storage.write.map (writeBool m.storage.isPooled ++ ·)

def read : Decoder PrefixMap := Decoder.bool.andThen fun pooled =>
  if pooled then PooledStorage.read.andThen fun s => Decoder.give ⟨.pooled s⟩
  else PlainStorage.read.andThen fun s => Decoder.give ⟨.plain s⟩

/-- One line for each entry. -/
def dump (m : PrefixMap) : String :=
  String.join (m.storage.entries.map fun e => toString e.1 ++ "|" ++ e.2 ++ "\n")

end PrefixMap

end NumberPlan
