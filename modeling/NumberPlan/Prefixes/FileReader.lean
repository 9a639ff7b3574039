import NumberPlan.Metadata.Archive
import NumberPlan.Prefixes.Map
import NumberPlan.Prefixes.Mapping

/-!
# Describing numbers

A reader knows which data files there are and loads each when it is first needed.
A number is described in the requested language, else in English, which does not
stand in for Chinese, Japanese or Korean.  Files of the calling code 1 are split by
area code.

    describe files code number locale     the description, empty where none is known
-/

namespace NumberPlan

/-- What files are listed, and the maps loaded so far, latest first. -/
structure PrefixReader where
  mapping : Mapping
  maps : List (String × PrefixMap)
  deriving DecidableEq

namespace PrefixReader

/-- The file that lists the others. -/
def mappingFile : String := "config"

/-- What a file holds. -/
def readFile {α : Type} (d : Decoder α) (files : Files) (file : String) : Except PrefixError α :=
  match files file with
  | none => .error (.missing file)
  | some bytes =>
    match d bytes with
    | .error e => .error (.malformed file e)
    | .ok (a, _) => .ok a

/-- A reader before any map is loaded. -/
def ofMapping (m : Mapping) : PrefixReader := ⟨m, []⟩

/-- A reader of the files listed in the mapping file. -/
def ofFiles (files : Files) : Except PrefixError PrefixReader :=
  (readFile Mapping.read files mappingFile).map ofMapping

/-- The map of a file. -/
def requireMap (files : Files) (file : String) (r : PrefixReader) :
    Reply PrefixReader (Except PrefixError PrefixMap) :=
  match r.maps.lookup file with
  | some m => ⟨.ok m, r, []⟩
  | none =>
    match readFile PrefixMap.read files file with
    | .error e => ⟨.error e, r, [file]⟩
    | .ok m => ⟨.ok m, { r with maps := (file, m) :: r.maps }, [file]⟩

/-- The map for a key in the best language, if one is listed. -/
def mapFor (files : Files) (key : Int) (l : Mapping.Locale) (r : PrefixReader) :
    Reply PrefixReader (Except PrefixError (Option PrefixMap)) :=
  match r.mapping.fileFor? key l with
  | none => ⟨.ok none, r, []⟩
  | some file =>
    let reply := r.requireMap files file
    ⟨reply.answer.map some, reply.state, reply.asked⟩

/-! ## Descriptions -/

/-- A number of 64 bits in decimal digits, which a plus sign may precede. -/
def readNumber64? (s : String) : Option Nat :=
  let digits := match s.toList with
    | '+' :: ds => ds
    | ds => ds
  if digits.isEmpty then none
  else
    match digits.mapM Digit.ofAscii? with
    | none => none
    | some w =>
      let n := PrefixMap.valueOf w
      if n < 0x10000000000000000 then some n else none

/-- The calling code whose files are split by area code. -/
def splitCode : Int := 1

/-- The key of a number's file: its calling code, or 1000 and the area code. -/
def fileKey? (code : Int) (number : String) : Option Int :=
  if code = splitCode then
    match readNumber64? number with
    | none => none
    | some n =>
      let key : Nat := n / 10000000 + 1000
      if key < 0x80000000 then some (key : Int) else none
  else some code

/-- English may stand in for a language. -/
def mayFallBack (language : String) : Bool := ["zh", "ja", "ko"].all (· != language)

def english : Mapping.Locale := ⟨"en", "", ""⟩

/-- What a map says about a number, unless that is nothing. -/
def describeIn (m : Option PrefixMap) (code : Int) (number : String) : Option String :=
  (m.bind fun m => m.lookup code number).filter fun s => !s.isEmpty

/-- The description of a number. -/
def describe (files : Files) (code : Int) (number : String) (l : Mapping.Locale)
    (r : PrefixReader) : Reply PrefixReader (Except PrefixError String) :=
  match fileKey? code number with
  | none => ⟨.ok "", r, []⟩
  | some key =>
    let first := r.mapFor files key l
    match first.answer with
    | .error e => ⟨.error e, first.state, first.asked⟩
    | .ok m =>
      match describeIn m code number with
      | some s => ⟨.ok s, first.state, first.asked⟩
      | none =>
        if mayFallBack l.language then
          let second := first.state.mapFor files key english
          ⟨second.answer.map fun m => (describeIn m code number).getD "", second.state,
            first.asked ++ second.asked⟩
        else ⟨.ok "", first.state, first.asked⟩

end PrefixReader

end NumberPlan
