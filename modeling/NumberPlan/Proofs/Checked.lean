import Mathlib.Algebra.Order.Group.Nat
import NumberPlan.Checked

/-!
# Steps that do not fault

    i < a.size → element a i = .ok a[i]                           (element_of_lt)
    every f a is .ok (g a) → as.mapM f = .ok (as.map g)           (mapM_eq_ok)
    b ≤ a → minus a b = .ok (a - b)                               (minus_of_le)
    k < width → shiftRight width n k = .ok (n / 2 ^ k)            (shiftRight_of_lt)
-/

namespace NumberPlan

namespace Checked

theorem element_of_lt {α : Type} (a : Array α) (i : Nat) (h : i < a.size) :
    element a i = .ok a[i] := by
  simp [element, h]

theorem ok_bind {α β : Type} (a : α) (f : α → Checked β) : (Except.ok a >>= f) = f a := rfl

theorem mapM_eq_ok {α β : Type} (f : α → Checked β) (g : α → β) (as : List α)
    (h : ∀ a ∈ as, f a = .ok (g a)) : as.mapM f = .ok (as.map g) := by
  induction as with
  | nil => rfl
  | cons a as ih =>
    have hrest := ih fun b hb => h b (List.mem_cons_of_mem a hb)
    rw [List.mapM_cons, h a (List.mem_cons_self ..), ok_bind, hrest]
    rfl

theorem plus_of_le (a b : Nat) (h : a + b ≤ maxPlace) : plus a b = .ok (a + b) := if_pos h

theorem minus_of_le (a b : Nat) (h : b ≤ a) : minus a b = .ok (a - b) := if_pos h

theorem shiftRight_of_lt (width n k : Nat) (h : k < width) :
    shiftRight width n k = .ok (n / 2 ^ k) := by
  rw [shiftRight, if_pos h, Nat.shiftRight_eq_div_pow]

/-- A single bit is shifted up to its place. -/
theorem shiftLeft_one_of_lt (width k : Nat) (h : k < width) :
    shiftLeft width 1 k = .ok (2 ^ k) := by
  have hpow : 2 ^ k < 2 ^ width := Nat.pow_lt_pow_right Nat.one_lt_two h
  rw [shiftLeft, if_pos h, Nat.one_shiftLeft, Nat.one_shiftLeft, Nat.mod_eq_of_lt hpow]

end Checked

end NumberPlan
