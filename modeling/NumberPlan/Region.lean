/-!
# Region codes

A region is named by a short code.  One code marks calling codes that belong to no
region.
-/

namespace NumberPlan.Region

/-- No region that is known. -/
def unknown : String := "ZZ"

/-- The mark of calling codes that belong to no region. -/
def nonGeographic : String := "001"

def isNonGeographic (region : String) : Bool := region == nonGeographic

end NumberPlan.Region
