import NumberPlan.Metadata.Archive
import NumberPlan.Metadata.FileName
import NumberPlan.Metadata.Registry

/-!
# Asking for records

A source finds the record of a region, or of a calling code that belongs to no
region.  It checks the question against the registry, names the file, has it
loaded, and looks the record up.  Keys that the registry does not know have no
record, and no file is asked for.  Any functions may name the files and parse them.
-/

namespace NumberPlan

/-- How files are named and parsed, and which codes and regions there are. -/
structure Source where
  fileFor : FileNamer
  parse : FileParser
  registry : Registry

namespace Source

/-- The answer of a question: a record if there is one. -/
abbrev Answer := Except MetadataError (Option Record)

/-- Looks a record up in the store that a key's file has been loaded into. -/
def fetch (s : Source) (files : Files) (key : String) (find : Store → Option Record)
    (a : Archive) : Reply Archive Answer :=
  match s.fileFor key with
  | .error e => ⟨.error e, a, []⟩
  | .ok file =>
    let r := a.require s.parse files file
    ⟨r.answer.map find, r.state, r.asked⟩

/-- The record of a region. -/
def ofRegion (s : Source) (files : Files) (region : String) (a : Archive) : Reply Archive Answer :=
  if Region.isNonGeographic region then ⟨.error (.nonGeographicRegion region), a, []⟩
  else
    match s.registry.codeOf? region with
    | none => ⟨.ok none, a, []⟩
    | some _ => s.fetch files region (·.ofRegion? region) a

/-- The record of a calling code that belongs to no region. -/
def ofNonGeographic (s : Source) (files : Files) (code : Int) (a : Archive) :
    Reply Archive Answer :=
  if s.registry.isGeographic code then ⟨.error (.geographicCode code), a, []⟩
  else if s.registry.isKnown code then s.fetch files (toString code) (·.ofCode? code) a
  else ⟨.ok none, a, []⟩

/-- The record of a region, or of the calling code where the region is the mark of such codes. -/
def ofEither (s : Source) (files : Files) (code : Int) (region : String) (a : Archive) :
    Reply Archive Answer :=
  if Region.isNonGeographic region then s.ofNonGeographic files code a
  else s.ofRegion files region a

end Source

end NumberPlan
