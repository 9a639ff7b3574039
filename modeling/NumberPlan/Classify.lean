import NumberPlan.Record.Basic

/-!
# Types of numbers

A record tells the type of a national number.  A number that does not match the
general description has no type; one that does has the first exclusive type whose
description it matches, and failing those may be a fixed line, a mobile phone, or
either.

    numberType matcher r number
-/

namespace NumberPlan

/-- The types of numbers. -/
inductive NumberType where
  | fixedLine
  | mobile
  /-- where the number does not tell which of the two -/
  | fixedLineOrMobile
  | tollFree
  | premiumRate
  | sharedCost
  | voip
  | personalNumber
  | pager
  | uan
  | voicemail
  | unknown
  deriving DecidableEq, Repr

namespace NumberType

/-- All types, in their order. -/
def all : List NumberType :=
  [fixedLine, mobile, fixedLineOrMobile, tollFree, premiumRate, sharedCost, voip, personalNumber,
   pager, uan, voicemail, unknown]

/-- Types that rule out all others, in the order in which they are tried. -/
def exclusive : List NumberType :=
  [premiumRate, tollFree, sharedCost, voip, personalNumber, pager, uan, voicemail]

end NumberType

/-! ## Descriptions -/

/-- The description for a type. -/
def Record.descOf (r : Record) : NumberType → Option NumberDesc
  | .fixedLine => r.fixedLine
  | .mobile => r.mobile
  | .fixedLineOrMobile => r.fixedLine
  | .tollFree => r.tollFree
  | .premiumRate => r.premiumRate
  | .sharedCost => r.sharedCost
  | .voip => r.voip
  | .personalNumber => r.personalNumber
  | .pager => r.pager
  | .uan => r.uan
  | .voicemail => r.voicemail
  | .unknown => r.general

/-- Lengths are inherited where none are given; the single length -1 says that there are no such
numbers. -/
def NumberDesc.hasPossibleNumbers (d : NumberDesc) : Bool := d.possibleLengths != [-1]

/-- The description says something. -/
def NumberDesc.hasData (d : NumberDesc) : Bool :=
  d.example?.isSome || d.hasPossibleNumbers || d.pattern.isSome || d.program.isSome

/-- The types that a record says something about. -/
def Record.supportedTypes (r : Record) : List NumberType :=
  NumberType.all.filter fun t =>
    t != .fixedLineOrMobile && t != .unknown && (r.descOf t).any NumberDesc.hasData

/-! ## Classification -/

/-- Decides whether a whole number is one of those described. -/
abbrev Matcher := NumberDesc → String → Bool

/-- The length of a number, in UTF-8 bytes, as a signed word of 32 bits. -/
def numberLength (number : String) : Int := (number.utf8ByteSize : Int).bmod 0x100000000

/-- Whether a number has a possible length and matches. -/
def matchesDesc (matcher : Matcher) (number : String) : Option NumberDesc → Bool
  | none => false
  | some d =>
    if !d.possibleLengths.isEmpty && !d.possibleLengths.contains (numberLength number) then false
    else matcher d number

/-- The type of a national number. -/
def numberType (matcher : Matcher) (r : Record) (number : String) : NumberType :=
  let isOf (t : NumberType) : Bool := matchesDesc matcher number (r.descOf t)
  if !isOf .unknown then .unknown
  else
    match NumberType.exclusive.find? isOf with
    | some t => t
    | none =>
      if isOf .fixedLine then
        if r.sharesPattern || isOf .mobile then .fixedLineOrMobile else .fixedLine
      else if !r.sharesPattern && isOf .mobile then .mobile
      else .unknown

/-- The number has a type. -/
def isValidNumber (matcher : Matcher) (r : Record) (number : String) : Bool :=
  numberType matcher r number != .unknown

end NumberPlan
