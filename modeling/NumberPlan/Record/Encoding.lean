import NumberPlan.Record.Basic
import NumberPlan.Text.Utf8

/-!
# Records as messages

    readCollection (writeCollection rs) = some rs     for records with an id and no unknown fields

Fields are written in the order in which they are declared here, and read in any
order; the last value of a field counts, and a list collects all its values.  A
known field with another kind of payload is an unknown field.  A record without an
id cannot be read.  Where the input ends early, messages and packed lists end with
it; texts and bytes must be whole.  Messages and groups nest at most 101 deep inside a
collection.
-/

namespace NumberPlan

/-! ## Fields -/

/-- The field of a value, if it is set. -/
def fieldOf {α : Type} (number : Nat) (payload : α → Payload) (v : Option α) : List Field :=
  (v.map fun a => (number, payload a)).toList

def textPayload (s : String) : Payload := .bytes (utf8 s)
def intPayload (i : Int) : Payload := .varint (varintOfInt i)
def boolPayload (b : Bool) : Payload := .varint (if b then 1 else 0)

/-- The integers of a packed list. -/
def readInts (bytes : List UInt8) : Option (List Int) :=
  (readVarints bytes.length bytes).bind (·.mapM intOfVarint?)

/-! ## Descriptions -/

namespace NumberDesc

/-- The lists of lengths are parts. -/
def shape : Shape := ⟨fun k => k == 9 || k == 10, 99⟩

/-- The fields of a description, in declared order. -/
def toFields (d : NumberDesc) : List Field :=
  fieldOf 2 textPayload d.pattern
    ++ d.possibleLengths.map (fun i => (9, intPayload i))
    ++ d.localLengths.map (fun i => (10, intPayload i))
    ++ fieldOf 6 textPayload d.example?
    ++ fieldOf 12 Payload.bytes d.program
    ++ d.unknown

/-- Takes in one field. -/
def absorb (d : NumberDesc) : Field → Option NumberDesc
  | (2, .bytes bs) => (ofUtf8? bs).map fun s => { d with pattern := some s }
  | (6, .bytes bs) => (ofUtf8? bs).map fun s => { d with example? := some s }
  | (9, .varint n) =>
    (intOfVarint? n).map fun i => { d with possibleLengths := d.possibleLengths ++ [i] }
  | (9, .part bs _) =>
    (readInts bs).map fun is => { d with possibleLengths := d.possibleLengths ++ is }
  | (10, .varint n) =>
    (intOfVarint? n).map fun i => { d with localLengths := d.localLengths ++ [i] }
  | (10, .part bs _) => (readInts bs).map fun is => { d with localLengths := d.localLengths ++ is }
  | (12, .bytes bs) => some { d with program := some bs }
  | f => some { d with unknown := d.unknown ++ [f] }

def ofFields? (fs : List Field) : Option NumberDesc := fs.foldlM absorb empty

def write (d : NumberDesc) : List UInt8 := writeFields d.toFields

/-- The description in a message that lacks its last `missing` bytes. -/
def read? (missing : Nat) (bytes : List UInt8) : Option NumberDesc :=
  (readFields shape missing bytes).bind ofFields?

end NumberDesc

def descPayload (d : NumberDesc) : Payload := .part d.write 0

/-! ## Records -/

namespace Record

/-- The descriptions are parts. -/
def shape : Shape :=
  ⟨fun k => (1 ≤ k && k ≤ 8) || k == 21 || k == 24 || k == 25 || k == 28, 100⟩

/-- The fields of a record, in declared order. -/
def toFields (r : Record) : List Field :=
  fieldOf 1 descPayload r.general
    ++ fieldOf 2 descPayload r.fixedLine
    ++ fieldOf 3 descPayload r.mobile
    ++ fieldOf 4 descPayload r.tollFree
    ++ fieldOf 5 descPayload r.premiumRate
    ++ fieldOf 6 descPayload r.sharedCost
    ++ fieldOf 7 descPayload r.personalNumber
    ++ fieldOf 8 descPayload r.voip
    ++ fieldOf 21 descPayload r.pager
    ++ fieldOf 25 descPayload r.uan
    ++ fieldOf 28 descPayload r.voicemail
    ++ fieldOf 24 descPayload r.noInternationalDialling
    ++ fieldOf 9 textPayload r.id?
    ++ fieldOf 10 intPayload r.callingCode?
    ++ fieldOf 11 textPayload r.internationalLead
    ++ fieldOf 12 textPayload r.nationalLead
    ++ fieldOf 22 boolPayload r.mainCountryForCode
    ++ fieldOf 23 textPayload r.leadingDigits
    ++ fieldOf 32 boolPayload r.mobileNumberPortable
    ++ fieldOf 33 boolPayload r.sameMobileAndFixedLine
    ++ r.unknown

/-- Takes in one field. -/
def absorb (r : Record) : Field → Option Record
  | (1, .part bs m) => (NumberDesc.read? m bs).map fun d => { r with general := some d }
  | (2, .part bs m) => (NumberDesc.read? m bs).map fun d => { r with fixedLine := some d }
  | (3, .part bs m) => (NumberDesc.read? m bs).map fun d => { r with mobile := some d }
  | (4, .part bs m) => (NumberDesc.read? m bs).map fun d => { r with tollFree := some d }
  | (5, .part bs m) => (NumberDesc.read? m bs).map fun d => { r with premiumRate := some d }
  | (6, .part bs m) => (NumberDesc.read? m bs).map fun d => { r with sharedCost := some d }
  | (7, .part bs m) => (NumberDesc.read? m bs).map fun d => { r with personalNumber := some d }
  | (8, .part bs m) => (NumberDesc.read? m bs).map fun d => { r with voip := some d }
  | (21, .part bs m) => (NumberDesc.read? m bs).map fun d => { r with pager := some d }
  | (25, .part bs m) => (NumberDesc.read? m bs).map fun d => { r with uan := some d }
  | (28, .part bs m) => (NumberDesc.read? m bs).map fun d => { r with voicemail := some d }
  | (24, .part bs m) =>
    (NumberDesc.read? m bs).map fun d => { r with noInternationalDialling := some d }
  | (9, .bytes bs) => (ofUtf8? bs).map fun s => { r with id? := some s }
  | (10, .varint n) => (intOfVarint? n).map fun i => { r with callingCode? := some i }
  | (11, .bytes bs) => (ofUtf8? bs).map fun s => { r with internationalLead := some s }
  | (12, .bytes bs) => (ofUtf8? bs).map fun s => { r with nationalLead := some s }
  | (22, .varint n) => some { r with mainCountryForCode := some (n != 0) }
  | (23, .bytes bs) => (ofUtf8? bs).map fun s => { r with leadingDigits := some s }
  | (32, .varint n) => some { r with mobileNumberPortable := some (n != 0) }
  | (33, .varint n) => some { r with sameMobileAndFixedLine := some (n != 0) }
  | f => some { r with unknown := r.unknown ++ [f] }

/-- The record with these fields, if they include an id. -/
def ofFields? (fs : List Field) : Option Record :=
  (fs.foldlM absorb empty).filter fun r => r.id?.isSome

def write (r : Record) : List UInt8 := writeFields r.toFields

/-- The record in a message that lacks its last `missing` bytes. -/
def read? (missing : Nat) (bytes : List UInt8) : Option Record :=
  (readFields shape missing bytes).bind ofFields?

end Record

/-! ## Collections -/

/-- The records are parts. -/
def collectionShape : Shape := ⟨fun k => k == 1, 101⟩

/-- A collection with every record as its field 1, if each record has an id. -/
def writeCollection (rs : List Record) : Option (List UInt8) :=
  if rs.all fun r => r.id?.isSome then
    some (writeFields (rs.map fun r => (1, .part r.write 0)))
  else none

/-- The record that a field of a collection holds, if it holds one. -/
def recordOfField : Field → Option (Option Record)
  | (1, .part bs m) => (Record.read? m bs).map some
  | _ => some none

/-- The records of a collection; other fields are passed over. -/
def readCollection (bytes : List UInt8) : Option (List Record) :=
  (readInput collectionShape bytes).bind fun fs => (fs.mapM recordOfField).map (·.filterMap id)

/-! ## Unknown fields in order -/

/-- The kind of a payload. -/
def Payload.kind : Payload → String
  | varint _ => "varint"
  | fixed64 _ => "fixed64"
  | bytes _ => "bytes"
  | part .. => "bytes"
  | fixed32 _ => "fixed32"

/-- Fields by number, then by the name of their kind, then by arrival. -/
def sortFields (fs : List Field) : List Field :=
  fs.mergeSort fun a b => a.1 < b.1 || (a.1 == b.1 && !decide (b.2.kind < a.2.kind))

end NumberPlan
