import NumberPlan.Wire.Message

/-!
# Numbering records

A record describes the numbers of one region, or of one calling code that belongs
to no region.  For each kind of number it may hold a description: which lengths
and digits such numbers have.  A field that is not set differs from one set to its
default.
-/

namespace NumberPlan

/-- The numbers of one kind. -/
structure NumberDesc where
  /-- a regular expression for the numbers -/
  pattern : Option String
  /-- the lengths they may have -/
  possibleLengths : List Int
  /-- the lengths they may have when dialled locally -/
  localLengths : List Int
  example? : Option String
  /-- a matching program for the numbers -/
  program : Option (List UInt8)
  /-- fields of no known meaning -/
  unknown : List Field
  deriving DecidableEq, Repr

namespace NumberDesc

def empty : NumberDesc := ⟨none, [], [], none, none, []⟩

end NumberDesc

/-- The numbers of a region or of a calling code. -/
structure Record where
  general : Option NumberDesc
  fixedLine : Option NumberDesc
  mobile : Option NumberDesc
  tollFree : Option NumberDesc
  premiumRate : Option NumberDesc
  sharedCost : Option NumberDesc
  personalNumber : Option NumberDesc
  voip : Option NumberDesc
  pager : Option NumberDesc
  uan : Option NumberDesc
  voicemail : Option NumberDesc
  noInternationalDialling : Option NumberDesc
  id? : Option String
  callingCode? : Option Int
  internationalLead : Option String
  nationalLead : Option String
  mainCountryForCode : Option Bool
  leadingDigits : Option String
  mobileNumberPortable : Option Bool
  sameMobileAndFixedLine : Option Bool
  /-- fields of no known meaning -/
  unknown : List Field
  deriving DecidableEq, Repr

namespace Record

def empty : Record :=
  ⟨none, none, none, none, none, none, none, none, none, none, none, none, none, none, none, none,
    none, none, none, none, []⟩

/-- The region, or the mark of a calling code without one. -/
def id (r : Record) : String := r.id?.getD ""

def callingCode (r : Record) : Int := r.callingCode?.getD 0

/-- Fixed lines and mobile phones share their patterns. -/
def sharesPattern (r : Record) : Bool := r.sameMobileAndFixedLine.getD false

end Record

end NumberPlan
