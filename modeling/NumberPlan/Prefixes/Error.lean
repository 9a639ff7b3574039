/-!
# Errors of prefix data
-/

namespace NumberPlan

/-- Why input could not be had. -/
inductive InputFault where
  /-- the input ends inside a value -/
  | endsEarly
  /-- a line is not UTF-8 -/
  | notUtf8
  deriving DecidableEq, Repr

def InputFault.message : InputFault → String
  | endsEarly => "failed to fill whole buffer"
  | notUtf8 => "stream did not contain valid UTF-8"

/-- Why a text is no 32-bit number. -/
inductive NumberFault where
  | invalidDigit
  | tooLarge
  deriving DecidableEq, Repr

def NumberFault.message : NumberFault → String
  | invalidDigit => "invalid digit found in string"
  | tooLarge => "number too large to fit in target type"

/-- What a count counts. -/
inductive Counted where
  | entry
  | possibleLength
  | prefixLength
  | description
  | callingCode
  | language
  deriving DecidableEq, Repr

def Counted.name : Counted → String
  | entry => "entry"
  | possibleLength => "possible length"
  | prefixLength => "prefix length"
  | description => "description pool"
  | callingCode => "calling code"
  | language => "language"

/-- Why prefix data cannot be read, built or written. -/
inductive PrefixError where
  | input (fault : InputFault)
  | malformedText
  | textTooLong (bytes : Nat)
  | invalidWordSize (size : Int)
  | negativeCount (what : Counted) (count : Int)
  | outOfRange (key : Nat)
  | unsorted (entry : Nat)
  | descriptionOutOfRange (index pool : Nat)
  | lineTooLong (line limit : Nat)
  | invalidKey (key : String) (fault : NumberFault)
  | missing (file : String)
  | malformed (file : String) (cause : PrefixError)
  deriving DecidableEq, Repr

def PrefixError.message : PrefixError → String
  | input fault => "IO error occurred: " ++ fault.message
  | malformedText => "Invalid modified UTF-8 string"
  | textTooLong n => "String of " ++ toString n ++ " encoded bytes does not fit a 16-bit length"
  | invalidWordSize n => "Invalid word size " ++ toString n ++ ", expected 2 or 4"
  | negativeCount what n => "Negative " ++ what.name ++ " count: " ++ toString n
  | outOfRange n => "Prefix " ++ toString n ++ " does not fit a signed 32-bit integer"
  | unsorted n => "Prefixes are not strictly increasing at entry " ++ toString n
  | descriptionOutOfRange i n =>
    "Description index " ++ toString i ++ " is out of range for a pool of " ++ toString n
  | lineTooLong n limit =>
    "Line " ++ toString n ++ " is too long (max is " ++ toString limit ++ " bytes)"
  | invalidKey key fault => "Failed to parse prefix '" ++ key ++ "': " ++ fault.message
  | missing file => "Missing prefix data resource: " ++ file
  | malformed file cause => "Malformed prefix data in " ++ file ++ ": " ++ cause.message

end NumberPlan
