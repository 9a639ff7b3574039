import NumberPlan.Text.Utf8

/-!
# Texts and their UTF-8 bytes

    ofUtf8? bytes = some s ↔ bytes = utf8 s                   (ofUtf8?_eq_some_iff)
    utf8 (s ++ s') = utf8 s ++ utf8 s'                        (utf8_append)
    10 ∈ utf8 s ↔ '\n' ∈ s                                    (newline_mem_utf8_iff)
-/

namespace NumberPlan

theorem ofUtf8?_utf8 (s : String) : ofUtf8? (utf8 s) = some s := by
  have hvalid : s.toUTF8.IsValidUTF8 := s.isValidUTF8
  unfold ofUtf8? utf8 String.fromUTF8?
  rw [Array.toArray_toList, dif_pos hvalid]
  rfl

theorem ofUtf8?_eq_some_iff (bytes : List UInt8) (s : String) :
    ofUtf8? bytes = some s ↔ bytes = utf8 s := by
  constructor
  · intro h
    unfold ofUtf8? String.fromUTF8? at h
    split at h
    · obtain rfl := Option.some.inj h
      rfl
    · cases h
  · rintro rfl
    exact ofUtf8?_utf8 s

theorem utf8_injective (s s' : String) (h : utf8 s = utf8 s') : s = s' := by
  have hread := ofUtf8?_utf8 s
  rw [h, ofUtf8?_utf8 s'] at hread
  exact (Option.some.inj hread).symm

theorem utf8_eq_nil {s : String} (h : utf8 s = []) : s = "" := utf8_injective s "" h

/-- The bytes of a text are those of its characters. -/
theorem utf8_eq_flatMap (s : String) : utf8 s = s.toList.flatMap String.utf8EncodeChar := by
  unfold utf8
  rw [String.toUTF8_eq_toByteArray, ← String.utf8Encode_toList]
  exact List.toList_data_toByteArray

theorem utf8_append (s s' : String) : utf8 (s ++ s') = utf8 s ++ utf8 s' := by
  simp only [utf8_eq_flatMap, String.toList_append, List.flatMap_append]

/-- A character of several bytes has none below 128. -/
theorem le_of_mem_utf8EncodeChar (c : Char) (hc : 128 ≤ c.toNat) :
    ∀ b ∈ String.utf8EncodeChar c, 128 ≤ b.toNat := by
  have hcons : ∀ (n : Nat) (bs : List UInt8), 128 ≤ n → n < 256 → (∀ b ∈ bs, 128 ≤ b.toNat) →
      ∀ b ∈ UInt8.ofNat n :: bs, 128 ≤ b.toNat := by
    intro n bs hlow hhigh hbs
    refine List.forall_mem_cons.mpr ⟨?_, hbs⟩
    rw [UInt8.toNat_ofNat', Nat.mod_eq_of_lt hhigh]
    exact hlow
  unfold String.utf8EncodeChar
  extract_lets v
  have hv : 128 ≤ v := hc
  -- shorter forms end as the longest one does
  have hone := hcons (v % 64 + 128) [] (by omega) (by omega) (List.forall_mem_nil _)
  have htwo := hcons (v / 64 % 64 + 128) _ (by omega) (by omega) hone
  have hthree := hcons (v / 4096 % 64 + 128) _ (by omega) (by omega) htwo
  rw [if_neg (by omega)]
  split
  · exact hcons _ _ (by omega) (by omega) hone
  · split
    · exact hcons _ _ (by omega) (by omega) htwo
    · exact hcons _ _ (by omega) (by omega) hthree

theorem newline_mem_utf8EncodeChar_iff (c : Char) : 10 ∈ String.utf8EncodeChar c ↔ c = '\n' := by
  constructor
  · intro h
    by_cases hc : 128 ≤ c.toNat
    · exact absurd (le_of_mem_utf8EncodeChar c hc 10 h) (by decide)
    · unfold String.utf8EncodeChar at h
      extract_lets v at h
      have hv : v < 128 := Nat.lt_of_not_le hc
      rw [if_pos (by omega)] at h
      have hvalue := congrArg UInt8.toNat (List.mem_singleton.mp h)
      rw [UInt8.toNat_ofNat', Nat.mod_eq_of_lt (by omega)] at hvalue
      have hten : c.toNat = 10 := hvalue.symm
      rw [← Char.ofNat_toNat c, hten]
  · rintro rfl
    decide

theorem newline_mem_utf8_iff (s : String) : 10 ∈ utf8 s ↔ '\n' ∈ s.toList := by
  simp only [utf8_eq_flatMap, List.mem_flatMap, newline_mem_utf8EncodeChar_iff, exists_eq_right]

end NumberPlan
