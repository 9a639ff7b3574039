import NumberPlan.Region
import NumberPlan.Text.SortedTable

/-!
# Calling codes and regions

A registry knows the regions of each calling code and the calling code of each
region.  The regions of a code are those of all its entries in order; the code of a
region is that of the first entry that lists it.  The mark of calling codes without
region is listed among the regions of a code, and has no code itself.
-/

namespace NumberPlan

/-- Regions by calling code, and calling codes by region. -/
structure Registry where
  regionsByCode : SortedTable Int (List String)
  codeByRegion : SortedTable String Int
  deriving DecidableEq

namespace Registry

def empty : Registry := ⟨SortedTable.empty, SortedTable.empty⟩

/-- Gives a region its code, unless it has one or is the mark. -/
def addRegion (code : Int) (t : SortedTable String Int) (region : String) :
    SortedTable String Int :=
  if Region.isNonGeographic region || (t.get? region).isSome then t else t.insert region code

/-- Takes in the regions of a code. -/
def add (r : Registry) (code : Int) (regions : List String) : Registry :=
  ⟨r.regionsByCode.insert code ((r.regionsByCode.get? code).getD [] ++ regions),
    regions.foldl (addRegion code) r.codeByRegion⟩

def ofEntries (es : List (Int × List String)) : Registry :=
  es.foldl (fun r e => r.add e.1 e.2) empty

/-- The regions of a code, its main one first. -/
def regionsOf (r : Registry) (code : Int) : List String := (r.regionsByCode.get? code).getD []

def codeOf? (r : Registry) (region : String) : Option Int := r.codeByRegion.get? region

def isKnown (r : Registry) (code : Int) : Bool := (r.regionsByCode.get? code).isSome

/-- The code is known and belongs to regions only. -/
def isGeographic (r : Registry) (code : Int) : Bool :=
  (r.regionsByCode.get? code).any fun regions => !regions.any Region.isNonGeographic

/-- The regions with a code, ascending. -/
def supportedRegions (r : Registry) : List String := r.codeByRegion.keys

/-- The codes that carry the mark, ascending. -/
def globalNetworkCodes (r : Registry) : List Int :=
  (r.regionsByCode.entries.filter fun e => e.2.any Region.isNonGeographic).map (·.1)

end Registry

end NumberPlan
