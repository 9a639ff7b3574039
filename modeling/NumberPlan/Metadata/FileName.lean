import NumberPlan.Metadata.Error

/-!
# Naming record files

Any function may name the file of a key (`FileNamer`).  Two are at hand, those of `FileNaming`:
records lie in one file, or in one file per key, named for the key.
-/

namespace NumberPlan

/-- The file of each key, or why there is none. -/
abbrev FileNamer := String → Except MetadataError String

/-- How files are named for their keys, or for none. -/
inductive FileNaming where
  | single (name : String)
  | perKey (base : String)
  deriving DecidableEq, Repr

/-- A key that can stand in a file's name: ASCII letters and digits, at least one. -/
def isFileKey (key : String) : Bool := !key.isEmpty && key.toList.all Char.isAlphanum

/-- The file that holds a key's record. -/
def FileNaming.fileFor : FileNaming → FileNamer
  | single name, _ => .ok name
  | perKey base, key =>
    if isFileKey key then .ok (base ++ "_" ++ key) else .error (.invalidKey key)

instance : Coe FileNaming FileNamer := ⟨FileNaming.fileFor⟩

end NumberPlan
