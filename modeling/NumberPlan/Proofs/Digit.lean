import Mathlib.Data.List.Induction
import NumberPlan.Digit

/-!
# Digits as characters and in numerals

    Digit.ofAscii? c = some d ↔ c = d.toChar                  (ofAscii?_eq_some)
    readDigits (asciiOfDigits w) = .ok w                      (readDigits_asciiOfDigits)

A string of digits that does not start with zero is the decimal numeral of its number, and every
number has a numeral.  Any other string of digits has zeros before the numeral.

    Nat.toDigits 10 (numberOf w) = w.map Digit.toChar         (toDigits_numberOf)
    w = zeros ++ Nat.toDigits 10 (numberOf w)                 (exists_zeros)
-/

namespace NumberPlan

/-! ## Characters -/

theorem ofAscii?_toChar (d : Digit) : Digit.ofAscii? d.toChar = some d := by
  revert d
  decide

theorem ofAscii?_eq_some (c : Char) (d : Digit) : Digit.ofAscii? c = some d ↔ c = d.toChar := by
  constructor
  · intro h
    unfold Digit.ofAscii? Digit.inRun? at h
    split at h
    · next hc =>
      cases h
      unfold Digit.toChar
      rw [show 0x30 + (c.toNat - 0x30) = c.toNat by omega, Char.ofNat_toNat]
    · cases h
  · rintro rfl
    exact ofAscii?_toChar d

theorem ofChar?_toChar (d : Digit) : Digit.ofChar? d.toChar = some d := by
  revert d
  decide

theorem readDigitsFrom_ascii (w : List Digit) : ∀ position,
    readDigitsFrom position (w.map Digit.toChar) = .ok w := by
  induction w with
  | nil => exact fun _ => rfl
  | cons d w ih =>
    intro position
    rw [List.map_cons, readDigitsFrom, ofChar?_toChar]
    dsimp only
    rw [ih]
    rfl

/-- A digit string in ASCII is read back. -/
theorem readDigits_asciiOfDigits (w : List Digit) : readDigits (asciiOfDigits w) = .ok w := by
  rw [readDigits, asciiOfDigits, String.toList_ofList]
  exact readDigitsFrom_ascii w 0

theorem toChar_injective (d e : Digit) (h : d.toChar = e.toChar) : d = e := by
  have := ofAscii?_toChar d
  rw [h, ofAscii?_toChar] at this
  exact (Option.some.inj this).symm

theorem exists_asciiOfDigits (s : String)
    (h : ∀ c ∈ s.toList, (Digit.ofAscii? c).isSome = true) : ∃ w, s = asciiOfDigits w := by
  have hlist : ∀ cs : List Char, (∀ c ∈ cs, (Digit.ofAscii? c).isSome = true) →
      ∃ w : List Digit, cs = w.map Digit.toChar := by
    intro cs
    induction cs with
    | nil => exact fun _ => ⟨[], rfl⟩
    | cons c cs ih =>
      intro h
      obtain ⟨d, hd⟩ := Option.isSome_iff_exists.mp (h c (List.mem_cons_self ..))
      obtain ⟨w, rfl⟩ := ih fun e he => h e (List.mem_cons_of_mem _ he)
      exact ⟨d :: w, by rw [(ofAscii?_eq_some c d).mp hd]; rfl⟩
  obtain ⟨w, hw⟩ := hlist _ h
  exact ⟨w, by rw [asciiOfDigits, ← hw, String.ofList_toList]⟩

/-! ## Numerals -/

/-- The number that decimal digits stand for. -/
def numberOf (w : List Digit) : Nat := w.foldl (fun n d => 10 * n + d.val) 0

theorem numberOf_concat (w : List Digit) (d : Digit) :
    numberOf (w ++ [d]) = 10 * numberOf w + d.val := by
  unfold numberOf
  rw [List.foldl_append]
  rfl

/-- Leaving off digits does not increase a number. -/
theorem numberOf_le_append (u v : List Digit) : numberOf u ≤ numberOf (u ++ v) := by
  induction v using List.reverseRecOn with
  | nil => exact Nat.le_of_eq (congrArg numberOf (List.append_nil u).symm)
  | append_singleton v d ih =>
    rw [← List.append_assoc, numberOf_concat]
    omega

theorem numberOf_take_le (w : List Digit) (a b : Nat) (h : a ≤ b) :
    numberOf (w.take a) ≤ numberOf (w.take b) := by
  rw [← List.take_append_drop a (w.take b), List.take_take, Nat.min_eq_left h]
  exact numberOf_le_append _ _

theorem numberOf_pos (w : List Digit) (hne : w ≠ []) (h : w.head? ≠ some 0) : 0 < numberOf w := by
  cases w with
  | nil => exact absurd rfl hne
  | cons d w =>
    have hd : d.val ≠ 0 := fun h0 => h (congrArg some (Fin.ext h0))
    have hle := numberOf_le_append [d] w
    have : numberOf [d] = 10 * 0 + d.val := rfl
    rw [List.singleton_append] at hle
    omega

theorem toDigits_digit (d : Digit) : Nat.toDigits 10 d.val = [d.toChar] := by
  revert d
  decide

/-- Digits that do not start with zero are the numeral of their number. -/
theorem toDigits_numberOf (w : List Digit) (hne : w ≠ []) (h : w.head? ≠ some 0) :
    Nat.toDigits 10 (numberOf w) = w.map Digit.toChar := by
  induction w using List.reverseRecOn with
  | nil => exact absurd rfl hne
  | append_singleton w d ih =>
    rw [numberOf_concat, List.map_append]
    cases w with
    | nil =>
      show Nat.toDigits 10 (10 * 0 + d.val) = _
      rw [Nat.mul_zero, Nat.zero_add, toDigits_digit]
      rfl
    | cons e w =>
      have hpos := numberOf_pos (e :: w) (List.cons_ne_nil _ _) h
      rw [← Nat.toDigits_append_toDigits (by decide) hpos d.isLt, ih (List.cons_ne_nil _ _) h,
        toDigits_digit]
      rfl

/-- Digits are the numeral of their number after some zeros. -/
theorem exists_zeros (w : List Digit) (hne : w ≠ []) :
    ∃ z, w.map Digit.toChar = List.replicate z '0' ++ Nat.toDigits 10 (numberOf w) := by
  induction w with
  | nil => exact absurd rfl hne
  | cons d w ih =>
    by_cases hd : d = 0
    · subst hd
      cases w with
      | nil => exact ⟨0, rfl⟩
      | cons e w =>
        obtain ⟨z, hz⟩ := ih (List.cons_ne_nil e w)
        have hnumber : numberOf (0 :: e :: w) = numberOf (e :: w) := rfl
        exact ⟨z + 1, by rw [List.map_cons, hz, hnumber, List.replicate_succ]; rfl⟩
    · have hhead : (d :: w).head? ≠ some 0 := fun h => hd (Option.some.inj h)
      exact ⟨0, (toDigits_numberOf (d :: w) hne hhead).symm⟩

/-- Every number has a numeral, which starts with zero for no number but zero. -/
theorem exists_numeral (n : Nat) :
    ∃ w : List Digit, w ≠ [] ∧ Nat.toDigits 10 n = w.map Digit.toChar ∧ numberOf w = n ∧
      (0 < n → w.head? ≠ some 0) := by
  induction n using Nat.strongRecOn with
  | ind n ih =>
    by_cases hn : n < 10
    · refine ⟨[⟨n, hn⟩], List.cons_ne_nil _ _, toDigits_digit ⟨n, hn⟩, ?_, fun hpos h0 => ?_⟩
      · show 10 * 0 + n = n
        omega
      · have := congrArg Fin.val (Option.some.inj h0)
        exact Nat.ne_of_gt hpos this
    · obtain ⟨w, hne, hdigits, hnum, hhead⟩ := ih (n / 10) (by omega)
      have hlt : n % 10 < 10 := Nat.mod_lt n (by decide)
      refine ⟨w ++ [⟨n % 10, hlt⟩], by simp, ?_, ?_, fun _ => ?_⟩
      · have happend := Nat.toDigits_append_toDigits (b := 10) (n := n / 10) (by decide)
          (by omega) hlt
        rw [Nat.div_add_mod, hdigits, toDigits_digit ⟨n % 10, hlt⟩] at happend
        rw [← happend, List.map_append]
        rfl
      · rw [numberOf_concat, hnum]
        exact Nat.div_add_mod n 10
      · cases w with
        | nil => exact absurd rfl hne
        | cons d w => exact hhead (by omega)

end NumberPlan
