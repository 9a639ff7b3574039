import Mathlib.Algebra.Ring.Nat
import Mathlib.Data.List.Induction
import NumberPlan.Wire.BigEndian

/-!
# Reading big-endian words back

    ofBigEndian (bigEndian n k) = n % 256 ^ k            (ofBigEndian_bigEndian)
    bigEndian (ofBigEndian bs) bs.length = bs            (bigEndian_ofBigEndian)
    ofBigEndian bs < 256 ^ bs.length                     (ofBigEndian_lt)
-/

namespace NumberPlan

theorem length_bigEndian (n k : Nat) : (bigEndian n k).length = k := by
  induction k generalizing n with
  | zero => rfl
  | succ k ih => rw [bigEndian, List.length_append, ih, List.length_singleton]

theorem ofBigEndian_append_singleton (bs : List UInt8) (b : UInt8) :
    ofBigEndian (bs ++ [b]) = 256 * ofBigEndian bs + b.toNat := by
  simp [ofBigEndian, List.foldl_append]

theorem ofBigEndian_bigEndian (n k : Nat) : ofBigEndian (bigEndian n k) = n % 256 ^ k := by
  induction k generalizing n with
  | zero =>
    show 0 = n % 1
    omega
  | succ k ih =>
    have hpow : 256 ^ (k + 1) = 256 * 256 ^ k := Nat.pow_succ'
    rw [bigEndian, ofBigEndian_append_singleton, ih, UInt8.toNat_ofNat', hpow, Nat.mod_mul]
    omega

theorem ofBigEndian_bigEndian_of_lt (n k : Nat) (h : n < 256 ^ k) :
    ofBigEndian (bigEndian n k) = n := by
  rw [ofBigEndian_bigEndian, Nat.mod_eq_of_lt h]

theorem ofBigEndian_lt (bs : List UInt8) : ofBigEndian bs < 256 ^ bs.length := by
  induction bs using List.reverseRecOn with
  | nil => exact Nat.one_pos
  | append_singleton bs b ih =>
    have hpow : 256 ^ (bs.length + 1) = 256 * 256 ^ bs.length := Nat.pow_succ'
    have hb := b.toNat_lt
    rw [ofBigEndian_append_singleton, List.length_append, List.length_singleton, hpow]
    omega

/-- Bytes are the word that they are read as. -/
theorem bigEndian_ofBigEndian (bs : List UInt8) : bigEndian (ofBigEndian bs) bs.length = bs := by
  induction bs using List.reverseRecOn with
  | nil => rfl
  | append_singleton bs b ih =>
    have hb := b.toNat_lt
    have hhigh : (256 * ofBigEndian bs + b.toNat) / 256 = ofBigEndian bs := by omega
    have hlow : UInt8.ofNat (256 * ofBigEndian bs + b.toNat) = b := by
      rw [← UInt8.toNat_inj, UInt8.toNat_ofNat']
      omega
    rw [ofBigEndian_append_singleton, List.length_append, List.length_singleton, bigEndian, hhigh,
      hlow, ih]

end NumberPlan
