import NumberPlan.Metadata.Error
import NumberPlan.Record.Encoding

/-!
# Collections of records

    parseCollection mode (some bytes) = .ok rs     the bytes hold the records rs, at least one

Whoever loads files takes any function that parses them (`FileParser`); both modes are such
functions (`parseFile`), and agree, since a file that is parsed is there.
-/

namespace NumberPlan

/-- Whether it is an error that there is nothing to read. -/
inductive ParseMode where
  | strict
  | lenient
  deriving DecidableEq, Repr

/-- The records that some bytes hold. -/
def parseCollection (mode : ParseMode) : Option (List UInt8) → Except CollectionError (List Record)
  | none =>
    match mode with
    | .strict => .error .noSource
    | .lenient => .ok []
  | some bytes =>
    match readCollection bytes with
    | none => .error .malformed
    | some [] => .error .empty
    | some rs => .ok rs

/-- The records that a file holds, from its bytes. -/
abbrev FileParser := List UInt8 → Except CollectionError (List Record)

/-- Parses files as collections. -/
def parseFile (mode : ParseMode) : FileParser := fun bytes => parseCollection mode (some bytes)

instance : Coe ParseMode FileParser := ⟨parseFile⟩

end NumberPlan
