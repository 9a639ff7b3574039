import NumberPlan.Proofs.Prefixes.Access
import NumberPlan.Proofs.Prefixes.Lookup

/-!
# What a lookup tries

A lookup goes through the recorded lengths from the greatest down and looks for an entry with the
number that as many leading digits make.  This holds of every map that was built or read, also
where the recorded lengths are not those of its prefixes:

    m.lookupDigits digits = the description of the first such entry     (lookupDigits_eq_findSome?)

Digits are compared as a number.  Zeros in front of them do not count, so a prefix is found where
its numeral leads the digits after some zeros, and not only where it leads them:

    m.lookupDigits digits = some v → zeros ++ numeral of k leads digits         (lookupDigits_padded)
    7 is found for the digits 07                                         (lookupDigits_not_exact)
-/

namespace NumberPlan

open PrefixMap

/-! ## Maps that were built or read -/

theorem PlainStorage.Proper.ascends (s : PlainStorage) (h : s.Proper) :
    (Storage.plain s).Ascends := h.ascending

theorem PooledStorage.Proper.ascends (s : PooledStorage) (h : s.Proper) :
    (Storage.pooled s).Ascends := List.pairwise_map.mpr h.ascending

/-- Entries and lengths of a map ascend, wherever it comes from. -/
theorem ascends_of_obtained (m : PrefixMap)
    (hm : (∃ t, build t = .ok m) ∨ ∃ input rest, PrefixMap.read input = .ok (m, rest)) :
    m.storage.Ascends ∧ m.storage.lengths.Pairwise (· < ·) := by
  rcases hm with ⟨t, hbuild⟩ | hread
  · have hholds := build_holds t m hbuild
    exact ⟨hholds.ascends, hholds.lengths_ascending⟩
  · rcases gives_read m hread with ⟨s, rfl, hs⟩ | ⟨s, rfl, hs⟩
    · obtain ⟨hproper, -⟩ := s.proper_of_gives hs
      exact ⟨hproper.ascends, hproper.lengths_fit.ascending⟩
    · obtain ⟨hproper, -⟩ := s.proper_of_gives hs
      exact ⟨hproper.ascends, hproper.lengths_fit.ascending⟩

/-- The lengths are tried from the greatest down: the number that the leading digits of a length
make is looked for among all entries, unless there are no such digits or it has more than 32
bits. -/
theorem lookupDigits_eq_findSome? (m : PrefixMap)
    (hm : (∃ t, build t = .ok m) ∨ ∃ input rest, PrefixMap.read input = .ok (m, rest))
    (w : List Digit) (hne : w ≠ []) :
    (m.storage.entries.Pairwise fun a b => a.1 < b.1) ∧ m.storage.lengths.Pairwise (· < ·) ∧
      m.lookupDigits (asciiOfDigits w) = m.storage.lengths.reverse.findSome? fun l =>
        if w.take l = [] ∨ 0xFFFFFFFF < numberOf (w.take l) then none
        else m.storage.entries.lookup (numberOf (w.take l)) := by
  obtain ⟨hs, hlengths⟩ := ascends_of_obtained m hm
  refine ⟨hs, hlengths, ?_⟩
  rw [lookupDigits_eq_scan m hs hlengths, plainDigits?_asciiOfDigits w hne, Option.bind_some, scan]
  congr 1
  funext l
  rw [candidate?_eq]
  split
  · rfl
  · rfl

/-- A map whose file records a length of 0, one beyond what 32 bits hold, and not the length of
its longer prefix. -/
def unfitLengths : PrefixMap := ⟨.plain ⟨#[(49, "Germany"), (491, "Mobile")], [0, 2, 12]⟩⟩

theorem lookupDigits_eq_findSome?_unfitLengths :
    ∃ input, PrefixMap.read input = .ok (unfitLengths, []) ∧
      unfitLengths.lookupDigits "49199999999" = some "Germany" := by
  have hread : PrefixMap.read [0, 0, 0, 0, 2, 0, 0, 0, 49, 0, 7, 71, 101, 114, 109, 97, 110, 121,
      0, 0, 1, 235, 0, 6, 77, 111, 98, 105, 108, 101, 0, 0, 0, 3, 0, 0, 0, 12, 0, 0, 0, 0,
      0, 0, 0, 2] = .ok (unfitLengths, []) := by rfl
  obtain ⟨-, -, hfound⟩ := lookupDigits_eq_findSome? unfitLengths (Or.inr ⟨_, _, hread⟩)
    [4, 9, 1, 9, 9, 9, 9, 9, 9, 9, 9] (List.cons_ne_nil _ _)
  exact ⟨_, hread, hfound⟩

/-! ## Zeros in front -/

/-- A prefix is found where its numeral leads the digits after some zeros; where the digits do not
start with zero, it leads them. -/
theorem lookupDigits_padded (t : PrefixTable) (m : PrefixMap) (h : build t = .ok m)
    (digits : String) (v : String) (hv : m.lookupDigits digits = some v) :
    ∃ k zeros, t.get? k = some v ∧
      List.replicate zeros '0' ++ (toString k).toList <+: digits.toList ∧
      (digits.toList.head? ≠ some '0' → IsLead k digits) := by
  have hholds := build_holds t m h
  rw [lookupDigits_eq_scan m hholds.ascends hholds.lengths_ascending] at hv
  obtain ⟨w, hw, hscan⟩ := Option.bind_eq_some_iff.mp hv
  obtain ⟨l, -, htried⟩ := List.exists_of_findSome?_eq_some hscan
  obtain ⟨k, hk, hentry⟩ := Option.bind_eq_some_iff.mp htried
  obtain ⟨hne, rfl, -⟩ := (candidate?_eq_some w l k).mp hk
  obtain ⟨zeros, hzeros⟩ := exists_zeros (w.take l) hne
  have hlead : List.replicate zeros '0' ++ (toString (numberOf (w.take l))).toList
      <+: digits.toList := by
    rw [toList_toString, ← hzeros, eq_asciiOfDigits digits w hw, asciiOfDigits,
      String.toList_ofList]
    exact (List.take_prefix l w).map _
  refine ⟨_, zeros, hholds.entryWith?_eq _ ▸ hentry, hlead, fun hhead => ?_⟩
  cases zeros with
  | zero => exact hlead
  | succ zeros =>
    obtain ⟨rest, hrest⟩ := hlead
    rw [← hrest] at hhead
    exact absurd rfl hhead

/-- A table with prefixes of one and of two digits. -/
def twoLengths : PrefixTable := ⟨[(7, "Russia"), (49, "Germany")], by decide⟩

/-- The map of that table. -/
def twoLengthsMap : PrefixMap := ⟨.plain ⟨#[(7, "Russia"), (49, "Germany")], [1, 2]⟩⟩

theorem lookupDigits_padded_twoLengths :
    build twoLengths = .ok twoLengthsMap ∧ twoLengthsMap.lookupDigits "0712" = some "Russia" ∧
      ∃ k zeros, twoLengths.get? k = some "Russia" ∧
        List.replicate zeros '0' ++ (toString k).toList <+: "0712".toList := by
  have hbuild : build twoLengths = .ok twoLengthsMap := by cbv
  have hfound : twoLengthsMap.lookupDigits "0712" = some "Russia" := by rfl
  obtain ⟨k, zeros, hk, hlead, -⟩ := lookupDigits_padded twoLengths _ hbuild "0712" _ hfound
  exact ⟨hbuild, hfound, k, zeros, hk, hlead⟩

/-- The digits 07 do not start with the numeral 7, and yet 7 is found: a prefix of two digits
makes two digits be tried. -/
theorem lookupDigits_not_exact :
    ¬ ∀ (t : PrefixTable) (m : PrefixMap), build t = .ok m → ∀ digits : String, digits ≠ "" →
      (∀ c ∈ digits.toList, (Digit.ofAscii? c).isSome = true) →
      ∀ v, m.lookupDigits digits = some v → ∃ k, t.get? k = some v ∧ IsLead k digits := by
  intro hexact
  have hbuild : build twoLengths = .ok twoLengthsMap := by cbv
  obtain ⟨k, hk, hlead⟩ := hexact twoLengths _ hbuild "07" (by decide) (List.all_eq_true.mp rfl)
    "Russia" (by rfl)
  have hmem := (twoLengths.get?_iff k "Russia").mp hk
  obtain rfl : k = 7 := by simpa [twoLengths] using hmem
  exact absurd hlead (by decide)

end NumberPlan
