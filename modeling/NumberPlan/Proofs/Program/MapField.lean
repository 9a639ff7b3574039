import Mathlib.Algebra.BigOperators.Group.List.Basic
import NumberPlan.Program.MapField

/-!
# Packing and unpacking

    packIndices is = some f ↔ f < fieldLimit ∧ unpackIndices f = is           (packIndices_eq_some)
    every index is below its share's size → ∃ f, packIndices is = some f      (packIndices_of_fits)
    indexOf f d ≤ tableLength f                                           (indexOf_le_tableLength)
-/

namespace NumberPlan

/-- The part of a mixed-radix number that counts for place `k`, the lowest first. -/
theorem packShares_spec (ns is : List Nat) (hpos : ∀ n ∈ ns, 0 < n) (hlen : is.length = ns.length) :
    ∀ f, packShares ns is = some f →
      f < ns.prod ∧ ∀ k, (hk : k < ns.length) → f / (ns.take k).prod % ns[k] = is[k] := by
  induction ns generalizing is with
  | nil =>
    intro f h
    cases h
    exact ⟨by simp, fun k hk => absurd hk (Nat.not_lt_zero k)⟩
  | cons n ns ih =>
    intro f h
    cases is with
    | nil => cases hlen
    | cons i is =>
      rw [packShares] at h
      split at h
      · next hi =>
        obtain ⟨g, hg, rfl⟩ := Option.map_eq_some_iff.mp h
        have hlen' : is.length = ns.length := by simpa using hlen
        obtain ⟨hlt, hk⟩ := ih is (fun m hm => hpos m (List.mem_cons_of_mem _ hm)) hlen' g hg
        refine ⟨?_, fun k hk' => ?_⟩
        · rw [List.prod_cons]
          calc i + n * g < n + n * g := by omega
            _ = n * (g + 1) := by rw [Nat.mul_add, Nat.mul_one, Nat.add_comm]
            _ ≤ n * ns.prod := Nat.mul_le_mul_left n hlt
        · cases k with
          | zero =>
            show (i + n * g) / 1 % n = i
            rw [Nat.div_one, Nat.add_mul_mod_self_left, Nat.mod_eq_of_lt hi]
          | succ k =>
            have hk'' : k < ns.length := by simpa using hk'
            show (i + n * g) / (List.take (k + 1) (n :: ns)).prod % ns[k] = is[k]
            rw [List.take_succ_cons, List.prod_cons, ← Nat.div_div_eq_div_mul,
              Nat.add_mul_div_left _ _ (by omega), Nat.div_eq_of_lt hi, Nat.zero_add]
            exact hk k hk''
      · cases h

/-- A number is packed from its places. -/
theorem packShares_of_places (ns is : List Nat) (hlen : is.length = ns.length) :
    ∀ f, f < ns.prod → (∀ k, (hk : k < ns.length) → f / (ns.take k).prod % ns[k] = is[k]) →
      packShares ns is = some f := by
  induction ns generalizing is with
  | nil =>
    intro f hf _
    have hzero : f = 0 := by simpa using hf
    rw [hzero]
    rfl
  | cons n ns ih =>
    intro f hf hplaces
    cases is with
    | nil => cases hlen
    | cons i is =>
      rw [List.prod_cons] at hf
      have hn : 0 < n := Nat.pos_of_mul_pos_right (Nat.zero_lt_of_lt hf)
      have hi : f % n = i := by
        have hfirst : f / 1 % n = i := hplaces 0 (Nat.succ_pos _)
        rwa [Nat.div_one] at hfirst
      have hrest : packShares ns is = some (f / n) := by
        refine ih is (by simpa using hlen) (f / n) (Nat.div_lt_of_lt_mul hf) fun k hk => ?_
        have hplace := hplaces (k + 1) (by simpa using hk)
        rw [List.take_succ_cons, List.prod_cons, ← Nat.div_div_eq_div_mul] at hplace
        exact hplace
      rw [packShares, if_pos (hi ▸ Nat.mod_lt f hn), hrest, ← hi]
      show some (f % n + n * (f / n)) = some f
      rw [Nat.mod_add_div]

theorem packShares_of_fits (ns is : List Nat) (hlen : is.length = ns.length)
    (hfits : ∀ k, (hk : k < ns.length) → is[k] < ns[k]) : ∃ f, packShares ns is = some f := by
  induction ns generalizing is with
  | nil => exact ⟨0, by rw [List.length_eq_zero_iff.mp hlen]; rfl⟩
  | cons n ns ih =>
    cases is with
    | nil => cases hlen
    | cons i is =>
      have hi : i < n := hfits 0 (Nat.succ_pos _)
      obtain ⟨g, hg⟩ := ih is (by simpa using hlen) fun k hk => hfits (k + 1) (by simpa using hk)
      exact ⟨i + n * g, by rw [packShares, if_pos hi, hg]; rfl⟩

theorem shareWeight_eq (d : Digit) : shareWeight d = (shareSizes.take d.val).prod := by
  revert d
  decide

theorem shareSizes_prod : shareSizes.prod = fieldLimit := by decide

theorem shareSizes_pos : ∀ n ∈ shareSizes, 0 < n := by decide

theorem shareSize_eq (d : Digit) : shareSize d = shareSizes.get ⟨d.val, d.isLt⟩ := by
  revert d
  decide

theorem getElem?_all (d : Digit) : Digit.all[d.val]? = some d := by
  revert d
  decide

theorem length_unpackIndices (f : Nat) : (unpackIndices f).length = 10 := by
  rw [unpackIndices, List.length_map]
  rfl

theorem lt_length_unpackIndices (f : Nat) (d : Digit) : d.val < (unpackIndices f).length := by
  rw [length_unpackIndices]
  exact d.isLt

theorem getElem_unpackIndices (f : Nat) (d : Digit) (h : d.val < (unpackIndices f).length) :
    (unpackIndices f)[d.val] = indexOf f d := by
  have hget : (unpackIndices f)[d.val]? = some (indexOf f d) := by
    rw [unpackIndices, List.getElem?_map, getElem?_all]
    rfl
  rw [List.getElem?_eq_getElem h] at hget
  exact Option.some.inj hget

/-- Unpacking undoes packing. -/
theorem unpackIndices_packIndices (is : List Nat) (hlen : is.length = 10) (f : Nat)
    (h : packIndices is = some f) : f < fieldLimit ∧ unpackIndices f = is := by
  obtain ⟨hlt, hk⟩ := packShares_spec shareSizes is shareSizes_pos hlen f h
  rw [shareSizes_prod] at hlt
  refine ⟨hlt, List.ext_getElem (by rw [hlen, length_unpackIndices]) fun k h1 h2 => ?_⟩
  have hk10 : k < 10 := by omega
  rw [getElem_unpackIndices f ⟨k, hk10⟩ h1, indexOf, shareWeight_eq, shareSize_eq]
  exact hk k hk10

/-- A field is packed from its own indices, and from no others. -/
theorem packIndices_eq_some (is : List Nat) (hlen : is.length = 10) (f : Nat) :
    packIndices is = some f ↔ f < fieldLimit ∧ unpackIndices f = is := by
  constructor
  · exact unpackIndices_packIndices is hlen f
  · rintro ⟨hlt, rfl⟩
    refine packShares_of_places _ _ hlen f (shareSizes_prod ▸ hlt) fun k hk => ?_
    have hplace := getElem_unpackIndices f ⟨k, hk⟩ (hlen.symm ▸ hk)
    rw [indexOf, shareWeight_eq, shareSize_eq] at hplace
    exact hplace.symm

theorem indexOf_lt_shareSize (f : Nat) (d : Digit) : indexOf f d < shareSize d := by
  have hpos : ∀ d : Digit, 0 < shareSize d := by decide
  exact Nat.mod_lt _ (hpos d)

/-- Indices that fit their shares can be packed. -/
theorem packIndices_of_fits (is : List Nat) (hlen : is.length = 10)
    (hfits : ∀ (d : Digit) (h : d.val < is.length), is[d.val] < shareSize d) :
    ∃ f, packIndices is = some f := by
  refine packShares_of_fits shareSizes is hlen fun k hk => ?_
  have := hfits ⟨k, hk⟩ (by rw [hlen]; exact hk)
  rw [shareSize_eq] at this
  exact this

/-! ## The length of the table -/

theorem foldl_max_le (l : List Nat) (n : Nat) : ∀ a, a ≤ n → (∀ x ∈ l, x ≤ n) →
    a ≤ l.foldl max a ∧ l.foldl max a ≤ n ∧ ∀ x ∈ l, x ≤ l.foldl max a := by
  induction l with
  | nil => exact fun a ha _ => ⟨Nat.le_refl _, ha, fun _ h => nomatch h⟩
  | cons b l ih =>
    intro a ha h
    have hb := h b (List.mem_cons_self ..)
    obtain ⟨h1, h2, h3⟩ := ih (max a b) (by omega) fun x hx => h x (List.mem_cons_of_mem _ hx)
    rw [List.foldl_cons]
    refine ⟨by omega, h2, fun x hx => ?_⟩
    rcases List.mem_cons.mp hx with rfl | hx
    · omega
    · exact h3 x hx

theorem indexOf_le_tableLength (f : Nat) (d : Digit) : indexOf f d ≤ tableLength f := by
  have hall : ∀ x ∈ unpackIndices f, x ≤ f := by
    intro x hx
    obtain ⟨e, -, rfl⟩ := List.mem_map.mp hx
    have hdiv := Nat.div_le_self f (shareWeight e)
    have hmod := Nat.mod_le (f / shareWeight e) (shareSize e)
    unfold indexOf
    omega
  have hmem := List.getElem_mem (lt_length_unpackIndices f d)
  rw [getElem_unpackIndices] at hmem
  exact (foldl_max_le _ _ 0 (Nat.zero_le _) hall).2.2 _ hmem

end NumberPlan
