import Mathlib
import NumberPlan.Proofs.Prefixes.Build

/-!
# Looking up the longest prefix

A built map, and the map that is read back after it was written, give the description of the
longest prefix that leads a calling code followed by a number:

    m.lookup code number = r ↔ LongestLead t (toString code ++ number) r   (lookup_build_iff)

where `t` is the table the map was built from.  Prefixes and the code are compared as decimal
texts; `LongestLead` is stated without reference to any search.
-/

namespace NumberPlan

open PrefixMap

/-! ## Decimal texts -/

/-- The decimal text of `k` leads a text. -/
def IsLead (k : Nat) (s : String) : Prop := (toString k).toList <+: s.toList

instance (k : Nat) (s : String) : Decidable (IsLead k s) :=
  inferInstanceAs (Decidable ((toString k).toList <+: s.toList))

/-- The description of the prefix with the longest decimal text that leads a text, if any prefix
leads it. -/
def LongestLead (t : PrefixTable) (s : String) : Option String → Prop
  | some v => ∃ k, t.get? k = some v ∧ IsLead k s ∧
      ∀ j ∈ t.keys, IsLead j s → (toString j).length ≤ (toString k).length
  | none => ∀ k ∈ t.keys, ¬ IsLead k s

theorem toList_toString (k : Nat) : (toString k).toList = Nat.toDigits 10 k := by
  rw [Nat.toString_eq_repr, Nat.toList_repr]

theorem length_toString (k : Nat) : (toString k).length = prefixLength k := by
  rw [← String.length_toList, toList_toString, prefixLength]

/-- Prefixes of one length that lead one text are equal. -/
theorem eq_of_isLead (j k : Nat) (s : String) (hj : IsLead j s) (hk : IsLead k s)
    (hlen : (toString j).length = (toString k).length) : j = k := by
  have hlist : (toString j).toList = (toString k).toList := by
    rw [← String.length_toList, ← String.length_toList] at hlen
    exact (List.prefix_of_prefix_length_le hj hk (Nat.le_of_eq hlen)).eq_of_length hlen
  rw [toList_toString, toList_toString] at hlist
  obtain ⟨u, -, hu, rfl, -⟩ := exists_numeral j
  obtain ⟨v, -, hv, rfl, -⟩ := exists_numeral k
  rw [hu, hv] at hlist
  rw [List.map_injective_iff.mpr (fun d e => toChar_injective d e) hlist]

/-- There is one description to be found. -/
theorem LongestLead.unique (t : PrefixTable) (s : String) (r r' : Option String)
    (h : LongestLead t s r) (h' : LongestLead t s r') : r = r' := by
  have hkey : ∀ k v, t.get? k = some v → k ∈ t.keys := fun k v hv => (t.mem_keys k).mpr ⟨v, hv⟩
  cases r with
  | none =>
    cases r' with
    | none => rfl
    | some v =>
      obtain ⟨k, hk, hlead, -⟩ := h'
      exact absurd hlead (h k (hkey k v hk))
  | some v =>
    obtain ⟨k, hk, hlead, hmax⟩ := h
    cases r' with
    | none => exact absurd hlead (h' k (hkey k v hk))
    | some v' =>
      obtain ⟨k', hk', hlead', hmax'⟩ := h'
      have hlen := Nat.le_antisymm (hmax' k (hkey k v hk) hlead) (hmax k' (hkey k' v' hk') hlead')
      rw [← eq_of_isLead k k' s hlead hlead' hlen, hk] at hk'
      exact hk'

section

variable (w : List Digit) (hne : w ≠ []) (h0 : w.head? ≠ some 0)

include hne h0

theorem isLead_iff (k : Nat) : IsLead k (asciiOfDigits w) ↔ Leads k w := by
  rw [IsLead, toList_toString, asciiOfDigits, String.toList_ofList, leads_iff w hne h0]

theorem longestLead_of_leads (t : PrefixTable) (r : Option String) (h : LongestLeads t w r) :
    LongestLead t (asciiOfDigits w) r := by
  cases r with
  | none => exact fun k hk hlead => h k hk ((isLead_iff w hne h0 k).mp hlead)
  | some v =>
    obtain ⟨k, hv, hlead, hmax⟩ := h
    refine ⟨k, hv, (isLead_iff w hne h0 k).mpr hlead, fun j hj hjlead => ?_⟩
    rw [length_toString, length_toString]
    exact hmax j hj ((isLead_iff w hne h0 j).mp hjlead)

end

/-! ## The lookup -/

theorem mapM_ofAscii? (w : List Digit) : (w.map Digit.toChar).mapM Digit.ofAscii? = some w := by
  induction w with
  | nil => rfl
  | cons d w ih =>
    rw [List.map_cons, List.mapM_cons, ofAscii?_toChar, ih]
    rfl

theorem plainDigits?_asciiOfDigits (w : List Digit) (hne : w ≠ []) :
    plainDigits? (asciiOfDigits w) = some w := by
  unfold plainDigits? asciiOfDigits
  rw [String.toList_ofList, mapM_ofAscii?, if_neg]
  intro hempty
  have hnil := congrArg String.toList (String.isEmpty_iff.mp hempty)
  rw [String.toList_ofList] at hnil
  exact hne (List.map_eq_nil_iff.mp hnil)

/-- The scan starts with the lengths of all prefixes. -/
theorem searching_start (t : PrefixTable) (m : PrefixMap) (hm : m.storage.Holds t)
    (w : List Digit) : Searching t w m.storage.lengths.reverse := by
  have hmem : ∀ l, l ∈ m.storage.lengths.reverse ↔ l ∈ t.keys.map prefixLength := by
    intro l
    rw [hm.lengths_eq, List.mem_reverse, prefixLengths, mem_keys_ofList]
  refine ⟨List.pairwise_reverse.mpr hm.lengths_ascending, fun l hl => ?_, fun k hk _ => ?_⟩
  · obtain ⟨k, -, rfl⟩ := List.mem_map.mp ((hmem l).mp hl)
    exact prefixLength_pos k
  · exact (hmem _).mpr (List.mem_map_of_mem hk)

theorem lookupDigits_longest (t : PrefixTable) (m : PrefixMap) (h : build t = .ok m)
    (w : List Digit) (hne : w ≠ []) (h0 : w.head? ≠ some 0) :
    LongestLeads t w (m.lookupDigits (asciiOfDigits w)) := by
  have hm := build_holds t m h
  obtain ⟨hfit, -⟩ := build_ok t m h
  rw [lookupDigits_eq_scan m hm.ascends hm.lengths_ascending,
    plainDigits?_asciiOfDigits w hne, Option.bind_some]
  exact scan_longest m.storage t hm (fun k hk => Nat.lt_of_le_of_lt (hfit k hk) (by decide)) w hne h0
    _ (searching_start t m hm w)

/-- A calling code followed by a number is a string of digits that does not start with zero. -/
theorem exists_dialled (code : Int) (hcode : 1 ≤ code) (number : String)
    (hnumber : ∀ c ∈ number.toList, (Digit.ofAscii? c).isSome = true) :
    ∃ w : List Digit, w ≠ [] ∧ w.head? ≠ some 0 ∧ toString code ++ number = asciiOfDigits w := by
  obtain ⟨n, rfl⟩ : ∃ n : Nat, code = n := ⟨code.toNat, by omega⟩
  obtain ⟨v, rfl⟩ := exists_asciiOfDigits number hnumber
  obtain ⟨u, hne, hdigits, -, hhead⟩ := exists_numeral n
  refine ⟨u ++ v, List.append_ne_nil_of_left_ne_nil hne v, ?_, ?_⟩
  · rw [List.head?_append_of_ne_nil u hne]
    exact hhead (by omega)
  · have hcode : toString (n : Int) = asciiOfDigits u := by
      rw [asciiOfDigits, ← hdigits, ← Nat.toString_eq_ofList_toDigits]
      rfl
    rw [hcode, asciiOfDigits, asciiOfDigits, asciiOfDigits, List.map_append, String.ofList_append]

/-- A built map finds the longest prefix, and so does what is read back of it; reading succeeds
unless the table has more entries than can be counted. -/
theorem lookup_build_iff (t : PrefixTable) (m : PrefixMap) (h : build t = .ok m) (code : Int)
    (hcode : 1 ≤ code) (number : String)
    (hnumber : ∀ c ∈ number.toList, (Digit.ofAscii? c).isSome = true) :
    (∀ r, m.lookup code number = r ↔ LongestLead t (toString code ++ number) r) ∧
      ∃ bs, m.write = .ok bs ∧ ∀ rest,
        (∀ m' rest', PrefixMap.read (bs ++ rest) = .ok (m', rest') →
          ∀ r, m'.lookup code number = r ↔ LongestLead t (toString code ++ number) r) ∧
        (PrefixMap.read (bs ++ rest) = .ok (m, rest) ∨ t.entries.length = 0x80000000 ∧
          ∃ what, PrefixMap.read (bs ++ rest) = .error (.negativeCount what (-0x80000000))) := by
  obtain ⟨w, hne, h0, hw⟩ := exists_dialled code hcode number hnumber
  have hlookup : ∀ r, m.lookup code number = r ↔ LongestLead t (toString code ++ number) r := by
    have hlongest := longestLead_of_leads w hne h0 t _ (lookupDigits_longest t m h w hne h0)
    unfold lookup
    rw [hw]
    exact fun r => ⟨fun hr => hr ▸ hlongest, fun hr => LongestLead.unique t _ _ r hlongest hr⟩
  obtain ⟨bs, hwrite, hread⟩ := read_write t m h
  refine ⟨hlookup, bs, hwrite, fun rest => ?_⟩
  rcases hread with htakes | ⟨hmany, what, hrefuses⟩
  · refine ⟨fun m' rest' hm' => ?_, Or.inl (htakes rest)⟩
    rw [htakes rest] at hm'
    obtain ⟨rfl, -⟩ := Prod.mk.inj (Except.ok.inj hm')
    exact hlookup
  · refine ⟨fun m' rest' hm' => ?_, Or.inr ⟨hmany, what, hrefuses rest⟩⟩
    rw [hrefuses rest] at hm'
    cases hm'

/-- Two prefixes that lead a number, in a map that is pooled. -/
theorem lookup_build_iff_pooled :
    PrefixMap.lookup ⟨.pooled ⟨.two, .two, #[(331, 0), (3314, 0), (3315, 1)],
        #["Ile-de-France", "Paris"], [3, 4]⟩⟩ 33 "145" = some "Ile-de-France" ↔
      LongestLead ⟨[(331, "Ile-de-France"), (3314, "Ile-de-France"), (3315, "Paris")], by decide⟩
        "33145" (some "Ile-de-France") :=
  (lookup_build_iff _ _ (by cbv) 33 (by decide) "145" (List.all_eq_true.mp rfl)).1 _

end NumberPlan
