import NumberPlan.Prefixes.FileReader
import NumberPlan.Threads.Guarded

/-!
# A reader that threads share

A request names a key and a locale.  Its file is looked up among the maps loaded so far, and
again under the lock; a map that is not there by then is loaded, and inserted in a step of its own.

    (SharedReader.service m).after .empty turns     the maps after these turns

Each load makes a new object, told apart by its serial number.
-/

namespace NumberPlan

/-- What a caller asks for. -/
structure MapRequest where
  key : Int
  locale : Mapping.Locale
  deriving DecidableEq, Repr

/-- The file of a request, if one is listed. -/
def MapRequest.file? (m : Mapping) (q : MapRequest) : Option String := m.fileFor? q.key q.locale

/-- A map, as an object. -/
structure LoadedMap where
  serial : Nat
  map : PrefixMap
  deriving DecidableEq

/-- Where the work on a missing map stands. -/
inductive MapStage where
  | load
  | insert (lm : LoadedMap)
  deriving DecidableEq

/-- The number of maps made so far, and those inserted, latest first. -/
structure SharedReader where
  made : Nat
  maps : List (String × LoadedMap)
  deriving DecidableEq

namespace SharedReader

def empty : SharedReader := ⟨0, []⟩

/-- What the work is supplied with, as a file's only content. -/
def loadMap (file : String) (supply : Option (List UInt8)) : Except PrefixError PrefixMap :=
  PrefixReader.readFile PrefixMap.read (fun _ => supply) file

/-- The map of a file, if it is there. -/
def look (file : String) (r : SharedReader) : Option LoadedMap := r.maps.lookup file

/-- A new object. -/
def make (map : PrefixMap) (r : SharedReader) : LoadedMap × SharedReader :=
  (⟨r.made, map⟩, { r with made := r.made + 1 })

/-- The reader with this map in place of any of its file. -/
def insert (file : String) (lm : LoadedMap) (r : SharedReader) : SharedReader :=
  { r with maps := (file, lm) :: r.maps }

/-- The steps of a request; those after the second look are done under the lock.  No map is
answered where no file is listed. -/
def service (m : Mapping) :
    Service MapRequest SharedReader (Option (List UInt8)) MapStage
      (Except PrefixError (Option LoadedMap)) where
  look q r :=
    match q.file? m with
    | none => (some (.ok none), r)
    | some file => ((r.look file).map fun lm => .ok (some lm), r)
  first := .load
  work q stage supply r :=
    match q.file? m with
    | none => (.done (.ok none), r)
    | some file =>
      match stage with
      | .load =>
        match loadMap file supply with
        | .error e => (.done (.error e), r)
        | .ok map =>
          let (lm, r) := r.make map
          (.more (.insert lm), r)
      | .insert lm => (.done (.ok (some lm)), r.insert file lm)

end SharedReader

end NumberPlan
