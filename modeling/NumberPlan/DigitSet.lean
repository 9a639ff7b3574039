import NumberPlan.Digit

/-!
# Sets of digits

A set of digits is ten bits, digit `d` at bit `d`.

    d ∈ single e   ↔ d = e
    d ∈ span lo hi ↔ lo ≤ d ∧ d ≤ hi
    d ∈ ofPred p   ↔ p d
-/

namespace NumberPlan

/-- A set of digits. -/
abbrev DigitSet := BitVec 10

namespace DigitSet

def mem (s : DigitSet) (d : Digit) : Bool := s.getLsbD d.val

def empty : DigitSet := 0

/-- All ten digits. -/
def full : DigitSet := BitVec.allOnes 10

def single (d : Digit) : DigitSet := BitVec.twoPow 10 d.val

/-- The digits of a list that satisfy `p`. -/
def gather (p : Digit → Bool) : List Digit → DigitSet
  | [] => empty
  | d :: ds => if p d then single d ||| gather p ds else gather p ds

/-- The digits that satisfy `p`. -/
def ofPred (p : Digit → Bool) : DigitSet := gather p Digit.all

/-- The digits from `lo` to `hi`. -/
def span (lo hi : Digit) : DigitSet := ofPred fun d => decide (lo ≤ d) && decide (d ≤ hi)

/-- The members, ascending. -/
def toList (s : DigitSet) : List Digit := Digit.all.filter s.mem

/-! ## Lemmas -/

theorem mem_all (d : Digit) : d ∈ Digit.all := by revert d; decide

@[simp] theorem mem_empty (d : Digit) : empty.mem d = false := by simp [mem, empty]

@[simp] theorem mem_full (d : Digit) : full.mem d = true := by
  unfold mem full
  rw [BitVec.getLsbD_allOnes]
  exact decide_eq_true d.isLt

@[simp] theorem mem_single (d e : Digit) : (single e).mem d = decide (d = e) := by
  simp only [mem, single, BitVec.getLsbD_twoPow, e.isLt, decide_true, Bool.true_and]
  exact decide_eq_decide.mpr ⟨fun h => Fin.ext h.symm, fun h => congrArg Fin.val h.symm⟩

@[simp] theorem mem_union (s t : DigitSet) (d : Digit) :
    DigitSet.mem (s ||| t) d = (s.mem d || t.mem d) := by simp [mem]

theorem mem_gather (p : Digit → Bool) (ds : List Digit) (d : Digit) :
    (gather p ds).mem d = true ↔ p d = true ∧ d ∈ ds := by
  induction ds with
  | nil => simp [gather]
  | cons e es ih =>
    unfold gather
    by_cases he : d = e <;> cases hp : p e <;> simp_all

@[simp] theorem mem_ofPred (p : Digit → Bool) (d : Digit) : (ofPred p).mem d = p d := by
  rw [Bool.eq_iff_iff, ofPred, mem_gather]
  exact and_iff_left (mem_all d)

@[simp] theorem mem_span (lo hi d : Digit) :
    (span lo hi).mem d = (decide (lo ≤ d) && decide (d ≤ hi)) := by simp [span]

theorem ext_mem {s t : DigitSet} (h : ∀ d, s.mem d = t.mem d) : s = t :=
  BitVec.eq_of_getLsbD_eq fun i hi => h ⟨i, hi⟩

end DigitSet

end NumberPlan
