import Mathlib.Computability.Language
import NumberPlan.Proofs.Regex.Places

/-!
# The language of an expression

An expression that does not look around matches a part of a text exactly if that part is a word of
its language, whatever stands before and after it.

    e.LookFree → (Matches (u ++ w ++ v) e u.length (u ++ w).length ↔ w ∈ e.language)
                                                                                  (spans_language)
-/

namespace NumberPlan.Regex

/-- The expression looks at no characters but those that it matches. -/
def Expr.LookFree : Expr → Prop
  | .empty => True
  | .one _ => True
  | .look _ => False
  | .seq a b => a.LookFree ∧ b.LookFree
  | .alt a b => a.LookFree ∧ b.LookFree
  | .times e _ _ => e.LookFree

/-- The words of an expression, in which a look has no characters. -/
def Expr.language : Expr → Language Char
  | .empty => 1
  | .one s => {w | ∃ c, s.mem c = true ∧ w = [c]}
  | .look _ => 1
  | .seq a b => a.language * b.language
  | .alt a b => a.language + b.language
  | .times e lo hi => {w | ∃ k, lo ≤ k ∧ (∀ n ∈ hi, k ≤ n) ∧ w ∈ e.language ^ k}

/-! ## Parts of a text -/

/-- `R` leads over just those parts of any text that are words of `L`. -/
def Spans (R : List Char → Nat → Nat → Prop) (L : Language Char) : Prop :=
  ∀ u w v, R (u ++ w ++ v) u.length (u ++ w).length ↔ w ∈ L

/-- A place within a part divides it. -/
theorem exists_append_of_place (u w : List Char) (m : Nat) (hu : u.length ≤ m)
    (hw : m ≤ (u ++ w).length) : ∃ w₁ w₂, w = w₁ ++ w₂ ∧ m = (u ++ w₁).length := by
  refine ⟨w.take (m - u.length), w.drop (m - u.length), (List.take_append_drop _ w).symm, ?_⟩
  rw [List.length_append] at hw
  rw [List.length_append, List.length_take]
  omega

/-- One part after another. -/
theorem Spans.mul {R S T : List Char → Nat → Nat → Prop} {K L : Language Char} (hR : Spans R K)
    (hS : Spans S L) (hle : ∀ text i m j, R text i m → S text m j → i ≤ m ∧ m ≤ j)
    (hT : ∀ text i j, T text i j ↔ ∃ m, R text i m ∧ S text m j) : Spans T (K * L) := by
  intro u w v
  rw [hT, Language.mem_mul]
  constructor
  · rintro ⟨m, hfirst, hrest⟩
    obtain ⟨hu, hw⟩ := hle _ _ _ _ hfirst hrest
    obtain ⟨w₁, w₂, rfl, rfl⟩ := exists_append_of_place u w m hu hw
    have hfirst' : R (u ++ w₁ ++ (w₂ ++ v)) u.length (u ++ w₁).length := by
      simpa only [List.append_assoc] using hfirst
    have hrest' : S (u ++ w₁ ++ w₂ ++ v) (u ++ w₁).length (u ++ w₁ ++ w₂).length := by
      simpa only [List.append_assoc] using hrest
    exact ⟨w₁, (hR _ _ _).mp hfirst', w₂, (hS _ _ _).mp hrest', rfl⟩
  · rintro ⟨w₁, hw₁, w₂, hw₂, rfl⟩
    refine ⟨(u ++ w₁).length, ?_, ?_⟩
    · simpa only [List.append_assoc] using (hR u w₁ (w₂ ++ v)).mpr hw₁
    · simpa only [List.append_assoc] using (hS (u ++ w₁) w₂ v).mpr hw₂

theorem spans_here (R : List Char → Nat → Nat → Prop)
    (hR : ∀ text i j, R text i j ↔ i = j ∧ i ≤ text.length) : Spans R 1 := by
  intro u w v
  rw [hR, Language.mem_one]
  constructor
  · rintro ⟨hlen, -⟩
    rw [List.length_append] at hlen
    exact List.length_eq_zero_iff.mp (by omega)
  · rintro rfl
    simp

/-- A chain of matches. -/
theorem Spans.chain {e : Expr} {L : Language Char} (h : Spans (Matches · e) L) (k : Nat) :
    Spans (Chain · e k) (L ^ k) := by
  induction k with
  | zero =>
    rw [pow_zero]
    exact spans_here _ fun _ _ _ => Iff.rfl
  | succ k ih =>
    rw [pow_succ']
    exact h.mul ih (fun _ _ _ _ hfirst hrest => ⟨hfirst.le.1, hrest.le.1⟩) fun _ _ _ => Iff.rfl

/-- Without looks, an expression matches the words of its language. -/
theorem spans_language (e : Expr) (he : e.LookFree) :
    Spans (Matches · e) e.language := by
  induction e with
  | empty => exact spans_here _ fun _ _ _ => matches_empty_iff
  | one s =>
    intro u w v
    constructor
    · intro hmatch
      generalize hj : (u ++ w).length = j at hmatch
      cases hmatch with
      | one hc hmem =>
        rw [List.length_append] at hj
        obtain ⟨c, rfl⟩ := List.length_eq_one_iff.mp (Nat.add_left_cancel hj)
        have hat : (u ++ [c] ++ v)[u.length]? = some c := by simp
        rw [hat] at hc
        obtain rfl := Option.some.inj hc
        exact ⟨c, hmem, rfl⟩
    · rintro ⟨c, hmem, rfl⟩
      have hat : (u ++ [c] ++ v)[u.length]? = some c := by simp
      rw [List.length_append]
      exact .one hat hmem
  | look l => exact he.elim
  | seq a b iha ihb =>
    exact (iha he.1).mul (ihb he.2) (fun _ _ _ _ ha hb => ⟨ha.le.1, hb.le.1⟩)
      fun _ _ _ => matches_seq_iff
  | alt a b iha ihb =>
    intro u w v
    rw [Expr.language, Language.mem_add, ← iha he.1 u w v, ← ihb he.2 u w v]
    exact matches_alt_iff
  | times e lo hi ih =>
    intro u w v
    refine matches_times_iff.trans ?_
    exact exists_congr fun k => and_congr_right fun _ => and_congr_right fun _ =>
      (ih he).chain k u w v

end NumberPlan.Regex
