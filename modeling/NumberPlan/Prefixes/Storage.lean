import NumberPlan.Prefixes.Decoder
import NumberPlan.Text.SortedTable

/-!
# Two layouts of a prefix map

The plain layout keeps a description with every prefix.  The pooled one keeps each
distinct description once and has the entries refer to it by index; its prefixes and
its indices are words of two bytes where all values fit a positive word, else of
four.

    Storage.read plain (bytes ++ rest) = .ok (s, rest)     for the bytes written of s

Both also keep the lengths that prefixes may have, in decimal digits.
-/

namespace NumberPlan

/-- Descriptions by prefix. -/
abbrev PrefixTable := SortedTable Nat String

/-- The number of decimal digits of a prefix. -/
def prefixLength (n : Nat) : Nat := (Nat.toDigits 10 n).length

/-- The lengths of the prefixes of a table, ascending. -/
def prefixLengths (t : PrefixTable) : List Nat := (SortedSet.ofList (t.keys.map prefixLength)).keys

/-- The greatest prefix that can be written. -/
def maxPrefix : Nat := 0x7FFFFFFF

/-- Refuses a prefix that cannot be written. -/
def checkPrefix (n : Nat) : Except PrefixError Nat :=
  if n ≤ maxPrefix then .ok n else .error (.outOfRange n)

/-- The first prefix of a list that cannot be written is an error. -/
def checkPrefixes (ns : List Nat) : Except PrefixError Unit :=
  match ns.find? (maxPrefix < ·) with
  | none => .ok ()
  | some n => .error (.outOfRange n)

/-! ## Lengths -/

def writeLengths (lengths : List Nat) : List UInt8 :=
  writeCount lengths.length ++ lengths.flatMap fun (n : Nat) => writeInt32 n

/-- One length. -/
def readLength : Decoder Nat := Decoder.int32.andThen fun i =>
  if i < 0 then Decoder.fail (.negativeCount .prefixLength i) else Decoder.give i.toNat

/-- Lengths in any order, ascending and each once. -/
def readLengths : Decoder (List Nat) := (Decoder.count .possibleLength).andThen fun n =>
  (Decoder.many readLength n).andThen fun ls => Decoder.give (SortedSet.ofList ls).keys

/-! ## The plain layout -/

/-- A description with every prefix.  Prefixes and descriptions are two arrays that are filled in
one step and read at one index; they are kept as one array of pairs, and are its two sides
(`PlainStorage.prefixes`, `PlainStorage.descriptions`), of one length by construction. -/
structure PlainStorage where
  entries : Array (Nat × String)
  lengths : List Nat
  deriving DecidableEq, Repr

namespace PlainStorage

def ofTable (t : PrefixTable) : Except PrefixError PlainStorage :=
  (checkPrefixes t.keys).map fun _ => ⟨t.entries.toArray, prefixLengths t⟩

/-- Entry `i`, its prefix above those of the entries before it. -/
def readEntry (i : Nat) (done : List (Nat × String)) : Decoder (Nat × String) :=
  Decoder.int32.andThen fun k =>
    if k < 0 ∨ (done.head?.any fun e => k.toNat ≤ e.1) then Decoder.fail (.unsorted i)
    else Decoder.text.andThen fun s => Decoder.give (k.toNat, s)

def read : Decoder PlainStorage := (Decoder.count .entry).andThen fun n =>
  (Decoder.manyFrom readEntry 0 [] n).andThen fun es => readLengths.andThen fun ls =>
    Decoder.give ⟨es.toArray, ls⟩

def writeEntry (e : Nat × String) : Except PrefixError (List UInt8) :=
  match checkPrefix e.1 with
  | .error err => .error err
  | .ok n => (writeText e.2).map (writeInt32 n ++ ·)

def write (s : PlainStorage) : Except PrefixError (List UInt8) :=
  (writeEach writeEntry s.entries.toList).map fun es =>
    writeCount s.entries.size ++ es ++ writeLengths s.lengths

end PlainStorage

/-! ## The pooled layout -/

/-- The number of bytes of a word. -/
inductive WordSize where
  | two
  | four
  deriving DecidableEq, Repr

namespace WordSize

def bytes : WordSize → Nat
  | two => 2
  | four => 4

/-- The greatest value for which two bytes are chosen. -/
def maxShort : Nat := 0x7FFF

/-- The size for some values. -/
def forValues (ns : List Nat) : WordSize := if ns.all (· ≤ maxShort) then two else four

def ofInt? (i : Int) : Option WordSize := if i = 2 then some two else if i = 4 then some four else none

/-- A word of this size, unsigned. -/
def read : WordSize → Decoder Nat
  | two => Decoder.word16
  | four => Decoder.word32

def write (w : WordSize) (n : Nat) : List UInt8 := bigEndian n w.bytes

/-- What a word of this size holds of a value. -/
def hold : WordSize → Nat → Nat
  | two, n => n % 0x10000
  | four, n => n % 0x100000000

end WordSize

/-- Entries that refer to a pool of descriptions.  As in the plain layout, prefixes and indices are
two arrays kept as one (`PooledStorage.prefixes`, `PooledStorage.indices`). -/
structure PooledStorage where
  prefixSize : WordSize
  indexSize : WordSize
  /-- prefixes and indices into the pool -/
  entries : Array (Nat × Nat)
  pool : Array String
  lengths : List Nat
  deriving DecidableEq, Repr

namespace PooledStorage

/-- The index of a description in a sorted pool; one that is not there counts as the first. -/
def indexIn (pool : Array String) (description : String) : Nat :=
  WordSize.four.hold ((place? pool description).getD 0)

def ofTable (t : PrefixTable) : Except PrefixError PooledStorage :=
  (checkPrefixes t.keys).map fun _ =>
    let pool := (SortedSet.ofList t.values).keys.toArray
    let indices := t.values.map (indexIn pool)
    let prefixSize := WordSize.forValues t.keys
    let indexSize := WordSize.forValues indices
    ⟨prefixSize, indexSize,
      ((t.keys.map prefixSize.hold).zip (indices.map indexSize.hold)).toArray, pool,
      prefixLengths t⟩

/-- Two word sizes. -/
def readSizes : Decoder (WordSize × WordSize) :=
  Decoder.int32.andThen fun a => Decoder.int32.andThen fun b =>
    match WordSize.ofInt? a, WordSize.ofInt? b with
    | some v, some w => Decoder.give (v, w)
    | some _, none => Decoder.fail (.invalidWordSize b)
    | none, _ => Decoder.fail (.invalidWordSize a)

/-- Entry `i`, its prefix above those of the entries before it and its index inside the pool. -/
def readEntry (prefixSize indexSize : WordSize) (pool : Nat) (i : Nat) (done : List (Nat × Nat)) :
    Decoder (Nat × Nat) :=
  prefixSize.read.andThen fun k =>
    if done.head?.any fun e => k ≤ e.1 then Decoder.fail (.unsorted i)
    else indexSize.read.andThen fun j =>
      if pool ≤ j then Decoder.fail (.descriptionOutOfRange j pool) else Decoder.give (k, j)

def read : Decoder PooledStorage :=
  readSizes.andThen fun sizes => readLengths.andThen fun lengths =>
    (Decoder.count .description).andThen fun p => (Decoder.many Decoder.text p).andThen fun pool =>
      (Decoder.count .entry).andThen fun n =>
        (Decoder.manyFrom (readEntry sizes.1 sizes.2 p) 0 [] n).andThen fun es =>
          Decoder.give ⟨sizes.1, sizes.2, es.toArray, pool.toArray, lengths⟩

def write (s : PooledStorage) : Except PrefixError (List UInt8) :=
  (writeEach writeText s.pool.toList).map fun pool =>
    writeInt32 s.prefixSize.bytes ++ writeInt32 s.indexSize.bytes ++ writeLengths s.lengths
      ++ writeCount s.pool.size ++ pool ++ writeCount s.entries.size
      ++ s.entries.toList.flatMap fun e => s.prefixSize.write e.1 ++ s.indexSize.write e.2

end PooledStorage

/-! ## Either layout -/

/-- The storage of a prefix map. -/
inductive Storage where
  | plain (s : PlainStorage)
  | pooled (s : PooledStorage)
  deriving DecidableEq, Repr

namespace Storage

def isPooled : Storage → Bool
  | plain _ => false
  | pooled _ => true

def size : Storage → Nat
  | plain s => s.entries.size
  | pooled s => s.entries.size

/-- The lengths that prefixes may have, ascending. -/
def lengths : Storage → List Nat
  | plain s => s.lengths
  | pooled s => s.lengths

/-- The prefix of an entry. -/
def prefixAt (i : Nat) : Storage → Nat
  | plain s => (s.entries.getD i (0, "")).1
  | pooled s => (s.entries.getD i (0, 0)).1

/-- The description of an entry. -/
def descriptionAt (i : Nat) : Storage → String
  | plain s => (s.entries.getD i (0, "")).2
  | pooled s => s.pool.getD (s.entries.getD i (0, 0)).2 ""

/-- All entries in order. -/
def entries : Storage → List (Nat × String)
  | plain s => s.entries.toList
  | pooled s => s.entries.toList.map fun e => (e.1, s.pool.getD e.2 "")

def write : Storage → Except PrefixError (List UInt8)
  | plain s => s.write
  | pooled s => s.write

end Storage

end NumberPlan
