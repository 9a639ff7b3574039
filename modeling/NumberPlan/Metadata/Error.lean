/-!
# Errors of record files
-/

namespace NumberPlan

/-- Why some bytes are no collection of records. -/
inductive CollectionError where
  /-- there are no bytes to read -/
  | noSource
  /-- the bytes are no message -/
  | malformed
  /-- there is no record -/
  | empty
  deriving DecidableEq, Repr

def CollectionError.message : CollectionError → String
  | noSource => "Metadata source is null"
  | malformed => "Failed to decode metadata collection"
  | empty => "Metadata collection is empty"

/-- Why a record cannot be had. -/
inductive MetadataError where
  | missing (file : String)
  | malformed (file : String) (cause : CollectionError)
  /-- a file cannot be named for this key -/
  | invalidKey (key : String)
  /-- a region was asked for by the mark of calling codes without one -/
  | nonGeographicRegion (region : String)
  /-- a calling code without region was asked for, but this one has regions -/
  | geographicCode (code : Int)
  deriving DecidableEq, Repr

def MetadataError.message : MetadataError → String
  | missing file => "Missing metadata resource: " ++ file
  | malformed file cause => "Malformed metadata in " ++ file ++ ": " ++ cause.message
  | invalidKey key => "Invalid metadata key: '" ++ key ++ "'"
  | nonGeographicRegion region => region ++ " region code is a non-geo entity"
  | geographicCode code => toString code ++ " calling code belongs to a geo entity"

end NumberPlan
