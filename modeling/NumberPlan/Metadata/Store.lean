import NumberPlan.Region
import NumberPlan.Record.Basic

/-!
# Stores of records

A shelf keeps records by a key taken from each; the first record of a key stays.  A
store has one shelf for regions and one for calling codes that belong to no region.

    (s.acceptAll rs).ofRegion? r    the first of rs whose id is r, if r is a region
    (s.acceptAll rs).ofCode? c      the first of rs with the mark as its id and c as its code

Both shelves together keep records by `RecordKey`, which tells them apart.
-/

namespace NumberPlan

/-- Records by key. -/
abbrev Shelf (κ : Type) := List (κ × Record)

/-- Puts a record on a shelf, unless its key is taken. -/
def Shelf.accept {κ : Type} [BEq κ] (key : Record → κ) (r : Record) (s : Shelf κ) : Shelf κ :=
  match s.lookup (key r) with
  | some _ => s
  | none => s ++ [(key r, r)]

/-- Records by region, and records by calling code for codes without region. -/
structure Store where
  byRegion : Shelf String
  byCode : Shelf Int
  deriving DecidableEq, Repr

namespace Store

def empty : Store := ⟨[], []⟩

/-- Takes in a record. -/
def accept (s : Store) (r : Record) : Store :=
  if Region.isNonGeographic r.id then { s with byCode := s.byCode.accept Record.callingCode r }
  else { s with byRegion := s.byRegion.accept Record.id r }

def acceptAll (s : Store) (rs : List Record) : Store := rs.foldl accept s

/-- The record of a region. -/
def ofRegion? (s : Store) (region : String) : Option Record := s.byRegion.lookup region

/-- The record of a calling code that belongs to no region. -/
def ofCode? (s : Store) (code : Int) : Option Record := s.byCode.lookup code

end Store

/-! ## Keys -/

/-- What a record is kept by: its region, or its calling code if that belongs to no region. -/
inductive RecordKey where
  | region (id : String)
  | code (c : Int)
  deriving DecidableEq, Repr

/-- The key as files are named for it. -/
def RecordKey.text : RecordKey → String
  | region id => id
  | code c => toString c

def Record.key (r : Record) : RecordKey :=
  if Region.isNonGeographic r.id then .code r.callingCode else .region r.id

/-- The record of a key. -/
def Store.find? (s : Store) : RecordKey → Option Record
  | .region id => s.ofRegion? id
  | .code c => s.ofCode? c

end NumberPlan
