import NumberPlan.Prefixes.Decoder
import NumberPlan.Text.SortedTable

/-!
# Which data files there are

A mapping lists, for each key, the languages in which there is a data file.  A
request names a language, a script and a region, and gets the best file: that of
the full locale (traditional Chinese where the locale writes it), else of language
and script, of language and region, or of the language alone.
-/

namespace NumberPlan

/-- The languages of each key. -/
abbrev Languages := SortedSet String

/-- The languages listed by key. -/
structure Mapping where
  table : SortedTable Int Languages
  deriving DecidableEq

namespace Mapping

/-- The mapping of some entries; a later entry for a key replaces an earlier one. -/
def ofEntries (es : List (Int × List String)) : Mapping :=
  ⟨SortedTable.ofList (es.map fun e => (e.1, SortedSet.ofList e.2))⟩

/-! ## Files -/

/-- A key and its languages. -/
def readEntry : Decoder (Int × List String) := Decoder.int32.andThen fun key =>
  (Decoder.count .language).andThen fun n => (Decoder.many Decoder.text n).andThen fun languages =>
    Decoder.give (key, languages)

def read : Decoder Mapping := (Decoder.count .callingCode).andThen fun n =>
  (Decoder.many readEntry n).andThen fun es => Decoder.give (ofEntries es)

def writeEntry (e : Int × Languages) : Except PrefixError (List UInt8) :=
  (writeEach writeText e.2.keys).map fun ls => writeInt32 e.1 ++ writeCount e.2.keys.length ++ ls

def write (m : Mapping) : Except PrefixError (List UInt8) :=
  (writeEach writeEntry m.table.entries).map (writeCount m.table.entries.length ++ ·)

/-- One line for each key. -/
def dump (m : Mapping) : String :=
  String.join (m.table.entries.map fun e =>
    toString e.1 ++ "|" ++ String.join (e.2.keys.map (· ++ ",")) ++ "\n")

/-! ## The best language -/

/-- A language, a script and a region; the last two may be empty. -/
structure Locale where
  language : String
  script : String
  region : String
  deriving DecidableEq, Repr

/-- The parts that are given, joined by underscores. -/
def Locale.full (l : Locale) : String :=
  l.language ++ (if l.script.isEmpty then "" else "_" ++ l.script)
    ++ (if l.region.isEmpty then "" else "_" ++ l.region)

/-- Locales that write traditional Chinese. -/
def traditionalChinese : List String := ["zh_TW", "zh_HK", "zh_MO"]

/-- The names under which a language may be listed, the best first. -/
def Locale.names (l : Locale) : List String :=
  (if traditionalChinese.contains l.full then ["zh_Hant"] else [])
    ++ [l.full]
    ++ (if !l.script.isEmpty && !l.region.isEmpty then
        [l.language ++ "_" ++ l.script, l.language ++ "_" ++ l.region]
      else [])
    ++ (if l.script.isEmpty && l.region.isEmpty then [] else [l.language])

/-- The file for a key in the best language that is listed. -/
def fileFor? (m : Mapping) (key : Int) (l : Locale) : Option String :=
  if l.language.isEmpty then none
  else
    match m.table.get? key with
    | none => none
    | some languages =>
      (l.names.find? languages.keys.contains).map fun name => toString key ++ "_" ++ name

end Mapping

end NumberPlan
