import NumberPlan.Metadata.Archive
import NumberPlan.Threads.Guarded

/-!
# Loading record files from many threads

What the threads share is an archive.  A file that is not loaded is asked for, read, taken
into the store record by record, and then marked as loaded; a file that is missing or
malformed leaves no trace.

    (Archive.service parse).after .empty turns     the system after these turns
-/

namespace NumberPlan

/-- Where the loading of a file stands. -/
inductive LoadStage where
  | ask
  | read (bytes : List UInt8)
  /-- these records are still to be taken in -/
  | fill (rest : List Record)
  deriving DecidableEq, Repr

/-- Making sure that a file is loaded; the work is supplied with the file, as far as there is
one. -/
def Archive.service (parse : FileParser) :
    Service String Archive (Option (List UInt8)) LoadStage (Except MetadataError Unit) where
  look file a := (if a.isLoaded file then some (.ok ()) else none, a)
  first := .ask
  work file w supply a :=
    match w with
    | .ask =>
      match supply with
      | none => (.done (.error (.missing file)), a)
      | some bytes => (.more (.read bytes), a)
    | .read bytes =>
      match parse bytes with
      | .error e => (.done (.error (.malformed file e)), a)
      | .ok rs => (.more (.fill rs), a)
    | .fill (r :: rs) => (.more (.fill rs), { a with store := a.store.accept r })
    | .fill [] => (.done (.ok ()), { a with loaded := file :: a.loaded })

end NumberPlan
