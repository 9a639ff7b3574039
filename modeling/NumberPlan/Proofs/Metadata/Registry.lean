import Mathlib.Data.List.Induction
import NumberPlan.Metadata.Registry
import NumberPlan.Proofs.Text.SortedTable

/-!
# The two tables of a registry

Taking in an entry appends its regions to those of its code, and gives its code to each of its
regions that has none yet (`regionsOf_add`, `codeOf?_add`).  So one table gathers all entries of a
code, and the other keeps the first entry of a region:

    (ofEntries es).regionsOf c = the lists of c in es, end to end        (regionsOf_ofEntries)
    (ofEntries es).codeOf? x   = the code of the first entry with x      (codeOf?_ofEntries)

The mark among the regions of a code tells whether the code is geographic (`isGeographic_iff`,
`mem_globalNetworkCodes`).
-/

namespace NumberPlan.Registry

/-! ## Taking in an entry -/

theorem get?_addRegion (code : Int) (t : SortedTable String Int) (region x : String) :
    (addRegion code t region).get? x =
      (t.get? x).or (if x = region ∧ x ≠ Region.nonGeographic then some code else none) := by
  have hmark : Region.isNonGeographic region = true ↔ region = Region.nonGeographic := beq_iff_eq
  unfold addRegion
  split
  · next htaken =>
    by_cases hx : x = region ∧ x ≠ Region.nonGeographic
    · obtain ⟨rfl, hgeo⟩ := hx
      have hsome : (t.get? x).isSome = true := by
        simpa [hmark, hgeo] using htaken
      obtain ⟨c, hc⟩ := Option.isSome_iff_exists.mp hsome
      rw [hc]
      rfl
    · rw [if_neg hx, Option.or_none]
  · next hfree =>
    simp only [Bool.or_eq_true, not_or, hmark, Option.not_isSome_iff_eq_none] at hfree
    rw [SortedTable.get?_insert]
    by_cases hx : x = region
    · subst hx
      rw [beq_self_eq_true, if_pos rfl, if_pos ⟨rfl, hfree.1⟩, hfree.2]
      rfl
    · rw [beq_false_of_ne hx, if_neg (by decide), if_neg fun h => hx h.1, Option.or_none]

/-- A region without a code gets that of the entry that lists it. -/
theorem codeOf?_add (r : Registry) (code : Int) (regions : List String) (x : String) :
    (r.add code regions).codeOf? x =
      (r.codeOf? x).or (if x ∈ regions ∧ x ≠ Region.nonGeographic then some code else none) := by
  show (regions.foldl (addRegion code) r.codeByRegion).get? x = (r.codeByRegion.get? x).or _
  generalize r.codeByRegion = t
  induction regions generalizing t with
  | nil => simp
  | cons region regions ih =>
    rw [List.foldl_cons, ih, get?_addRegion, Option.or_assoc]
    congr 1
    by_cases hx : x = region
    · subst hx
      by_cases hgeo : x = Region.nonGeographic <;> simp [hgeo]
    · simp [hx]

theorem get?_regionsByCode_add (r : Registry) (code c : Int) (regions : List String) :
    (r.add code regions).regionsByCode.get? c =
      if c = code then some (r.regionsOf code ++ regions) else r.regionsByCode.get? c := by
  show (r.regionsByCode.insert code _).get? c = _
  rw [SortedTable.get?_insert]
  by_cases hc : c = code
  · rw [hc, beq_self_eq_true, if_pos rfl, if_pos rfl]
    rfl
  · rw [beq_false_of_ne hc, if_neg (by decide), if_neg hc]

theorem regionsOf_add (r : Registry) (code c : Int) (regions : List String) :
    (r.add code regions).regionsOf c =
      r.regionsOf c ++ if c = code then regions else [] := by
  show ((r.add code regions).regionsByCode.get? c).getD [] = _
  rw [get?_regionsByCode_add]
  by_cases hc : c = code
  · rw [if_pos hc, if_pos hc, hc]
    rfl
  · rw [if_neg hc, if_neg hc, List.append_nil]
    rfl

theorem isKnown_add (r : Registry) (code c : Int) (regions : List String) :
    (r.add code regions).isKnown c = true ↔ r.isKnown c = true ∨ c = code := by
  unfold isKnown
  rw [get?_regionsByCode_add]
  by_cases hc : c = code
  · simp [hc]
  · simp [hc]

/-! ## All entries -/

theorem ofEntries_snoc (es : List (Int × List String)) (e : Int × List String) :
    ofEntries (es ++ [e]) = (ofEntries es).add e.1 e.2 := by
  unfold ofEntries
  rw [List.foldl_append]
  rfl

/-- The lists of a code, end to end. -/
theorem regionsOf_ofEntries (es : List (Int × List String)) (c : Int) :
    (ofEntries es).regionsOf c = (es.filter fun e => e.1 = c).flatMap (·.2) := by
  induction es using List.reverseRecOn with
  | nil => rfl
  | append_singleton es e ih =>
    rw [ofEntries_snoc, regionsOf_add, ih, List.filter_append, List.flatMap_append]
    congr 1
    by_cases hc : c = e.1
    · simp [hc]
    · simp [hc, Ne.symm hc]

/-- The code of the first entry that lists a region. -/
theorem codeOf?_ofEntries (es : List (Int × List String)) (region : String) :
    (ofEntries es).codeOf? region =
      if region = Region.nonGeographic then none
      else (es.find? fun e => region ∈ e.2).map (·.1) := by
  induction es using List.reverseRecOn with
  | nil =>
    show none = _
    simp
  | append_singleton es e ih =>
    rw [ofEntries_snoc, codeOf?_add, ih]
    by_cases hmark : region = Region.nonGeographic
    · simp [hmark]
    · rw [if_neg hmark, if_neg hmark, List.find?_append, Option.map_or]
      by_cases he : region ∈ e.2 <;> simp [he, hmark]

theorem isKnown_ofEntries (es : List (Int × List String)) (c : Int) :
    (ofEntries es).isKnown c = true ↔ ∃ e ∈ es, e.1 = c := by
  induction es using List.reverseRecOn with
  | nil =>
    show false = true ↔ _
    simp
  | append_singleton es e ih =>
    rw [ofEntries_snoc, isKnown_add, ih]
    simp [or_and_right, exists_or, eq_comm]

/-- The code that a region has is that of an entry that lists it. -/
theorem mem_regionsOf_of_codeOf? (es : List (Int × List String)) (region : String) (c : Int)
    (h : (ofEntries es).codeOf? region = some c) : region ∈ (ofEntries es).regionsOf c := by
  rw [codeOf?_ofEntries] at h
  split at h
  · cases h
  · obtain ⟨e, he, rfl⟩ := Option.map_eq_some_iff.mp h
    have hlists : region ∈ e.2 := by simpa using List.find?_some he
    rw [regionsOf_ofEntries, List.mem_flatMap]
    exact ⟨e, List.mem_filter.mpr ⟨List.mem_of_find?_eq_some he, by simp⟩, hlists⟩

theorem mem_supportedRegions (r : Registry) (region : String) :
    region ∈ r.supportedRegions ↔ ∃ c, r.codeOf? region = some c :=
  r.codeByRegion.mem_keys region

/-! ## Two kinds of codes -/

/-- Some region in a list is the mark. -/
theorem any_isNonGeographic (regions : List String) :
    regions.any Region.isNonGeographic = true ↔ Region.nonGeographic ∈ regions := by
  simp [Region.isNonGeographic]

theorem isGeographic_iff (r : Registry) (c : Int) :
    r.isGeographic c = true ↔ r.isKnown c = true ∧ Region.nonGeographic ∉ r.regionsOf c := by
  unfold isGeographic isKnown regionsOf
  cases r.regionsByCode.get? c with
  | none => simp
  | some regions =>
    show (!regions.any Region.isNonGeographic) = true ↔ _
    rw [Bool.not_eq_true', ← Bool.not_eq_true, any_isNonGeographic]
    simp

theorem mem_globalNetworkCodes (r : Registry) (c : Int) :
    c ∈ r.globalNetworkCodes ↔ r.isKnown c = true ∧ Region.nonGeographic ∈ r.regionsOf c := by
  have hentry : c ∈ r.globalNetworkCodes ↔
      ∃ regions, r.regionsByCode.get? c = some regions ∧ Region.nonGeographic ∈ regions := by
    unfold globalNetworkCodes
    simp only [List.mem_map, List.mem_filter, any_isNonGeographic, SortedTable.get?_iff]
    constructor
    · rintro ⟨⟨c, regions⟩, ⟨he, hmark⟩, rfl⟩
      exact ⟨regions, he, hmark⟩
    · rintro ⟨regions, he, hmark⟩
      exact ⟨(c, regions), ⟨he, hmark⟩, rfl⟩
  rw [hentry]
  unfold isKnown regionsOf
  cases r.regionsByCode.get? c with
  | none => simp
  | some regions => simp

/-- Each code shows the regions of all its entries in order, each region the code of its first
entry, and the mark none.  The supported regions are those with a code, and each is among the
regions of its code.  A code is known just if it has an entry, and then it is either geographic or
one of the global networks. -/
theorem ofEntries_indexes (es : List (Int × List String)) :
    (∀ c, (ofEntries es).regionsOf c = (es.filter fun e => e.1 = c).flatMap (·.2)) ∧
    (∀ region, (ofEntries es).codeOf? region =
      if region = Region.nonGeographic then none
      else (es.find? fun e => region ∈ e.2).map (·.1)) ∧
    (∀ region, region ∈ (ofEntries es).supportedRegions ↔
      ∃ c, (ofEntries es).codeOf? region = some c ∧ region ∈ (ofEntries es).regionsOf c) ∧
    ∀ c, ((ofEntries es).isKnown c = true ↔ ∃ e ∈ es, e.1 = c) ∧
      ((ofEntries es).isKnown c = true ↔
        (ofEntries es).isGeographic c = true ∨ c ∈ (ofEntries es).globalNetworkCodes) ∧
      ¬((ofEntries es).isGeographic c = true ∧ c ∈ (ofEntries es).globalNetworkCodes) := by
  refine ⟨regionsOf_ofEntries es, codeOf?_ofEntries es, fun region => ?_,
    fun c => ⟨isKnown_ofEntries es c, ?_, ?_⟩⟩
  · rw [mem_supportedRegions]
    constructor
    · rintro ⟨c, hc⟩
      exact ⟨c, hc, mem_regionsOf_of_codeOf? es region c hc⟩
    · rintro ⟨c, hc, -⟩
      exact ⟨c, hc⟩
  · rw [isGeographic_iff, mem_globalNetworkCodes]
    by_cases hmark : Region.nonGeographic ∈ (ofEntries es).regionsOf c
    · simp [hmark]
    · simp [hmark]
  · rw [isGeographic_iff, mem_globalNetworkCodes]
    rintro ⟨⟨-, hgeo⟩, -, hmark⟩
    exact hgeo hmark

/-- A region that two codes list keeps the first, and a code without regions is geographic. -/
example :
    let r := ofEntries [(1, ["US"]), (800, ["001"]), (7, []), (44, ["GB", "US"]), (1, ["CA"])]
    r.codeOf? "US" = some 1 ∧ r.regionsOf 1 = ["US", "CA"] ∧ r.isGeographic 7 = true ∧
      r.globalNetworkCodes = [800] := by
  decide +kernel

end NumberPlan.Registry
