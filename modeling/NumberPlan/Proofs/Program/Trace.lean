import NumberPlan.Proofs.Program.Execution
import NumberPlan.Proofs.Program.Instruction

/-!
# The places of a run

A run reads an instruction at one place after the other (`Visits`).  From each of them it ends as
the whole run does, and one of them is the last (`exists_end`), so how a run ends is seen there.

    Visits p w place left → run p w = run (p.drop place) left                (run_of_visits)
    (run p w).1 = .invalid ↔ at some place no instruction can be read, or
                             it has no transition for the next digit         (run_invalid_iff)
-/

namespace NumberPlan

/-- The run of a program over `w` comes to this place with the digits `left` ahead. -/
inductive Visits (program : List UInt8) (w : List Digit) : Nat → List Digit → Prop
  | start : Visits program w 0 w
  | next (place : Nat) (left : List Digit) (h : Visits program w place left) (i : Instruction)
      (hd : Instruction.decode (program.drop place) = some i)
      (hs : (i.step i.size left).status = .running) :
      Visits program w (place + (i.step i.size left).next) (i.step i.size left).rest

/-- The instruction goes on with the digit, or does not look at it. -/
def Instruction.HasTransition (d : Digit) : Instruction → Prop
  | single digit _ => d.val = digit
  | set mask _ none => mask.testBit d.val = true
  | map indices _ _ => indexOf indices d ≠ 0
  | _ => True

/-! ## One step -/

namespace Instruction

theorem exhausted_ne_invalid (terminal : Bool) : exhausted terminal ≠ .invalid := by
  cases terminal <;> decide

theorem step_branch_ne_invalid (offset : Nat) (long : Bool) (stop : Nat) (w : List Digit) :
    ((branch offset long).step stop w).status ≠ .invalid := by
  unfold step
  dsimp only
  split <;> exact nofun

theorem step_run_ne_invalid (count : Nat) (terminal : Bool) (stop : Nat) (w : List Digit) :
    ((run count terminal).step stop w).status ≠ .invalid := by
  unfold step
  dsimp only
  split
  · exact nofun
  · exact exhausted_ne_invalid terminal

/-- Where the input has ended, it is not invalid. -/
theorem step_nil_ne_invalid (i : Instruction) : (i.step i.size []).status ≠ .invalid := by
  cases i with
  | branch offset long => exact step_branch_ne_invalid offset long _ []
  | run count terminal => exact step_run_ne_invalid count terminal _ []
  | single digit terminal => exact exhausted_ne_invalid terminal
  | set mask terminal table => exact exhausted_ne_invalid terminal
  | map indices terminal table => exact exhausted_ne_invalid terminal

theorem step_map_invalid_iff (indices : Nat) (terminal : Bool) (table : List UInt8)
    (htable : table.length = tableLength indices) (stop : Nat) (d : Digit) (w : List Digit) :
    ((map indices terminal table).step stop (d :: w)).status = .invalid ↔
      ¬indexOf indices d ≠ 0 := by
  have hle := indexOf_le_tableLength indices d
  rw [step, not_not]
  cases hk : indexOf indices d with
  | zero => exact iff_of_true rfl rfl
  | succ k =>
    -- the table has an entry for every index
    have hlt : k < table.length := by omega
    dsimp only
    rw [List.getElem?_eq_getElem hlt]
    exact iff_of_false nofun (Nat.succ_ne_zero k)

theorem step_cons_invalid_iff (i : Instruction) (hi : i.Valid) (d : Digit) (w : List Digit) :
    (i.step i.size (d :: w)).status = .invalid ↔ ¬i.HasTransition d := by
  cases i with
  | branch offset long =>
    exact iff_of_false (step_branch_ne_invalid offset long _ _) fun h => h trivial
  | run count terminal =>
    exact iff_of_false (step_run_ne_invalid count terminal _ _) fun h => h trivial
  | single digit terminal =>
    rw [step]
    dsimp only
    by_cases hd : d.val = digit
    · rw [if_pos hd]
      exact iff_of_false nofun fun h => h hd
    · rw [if_neg hd]
      exact iff_of_true rfl hd
  | set mask terminal table =>
    cases table with
    | none =>
      rw [step]
      by_cases hd : mask.testBit d.val = true
      · rw [if_pos hd]
        exact iff_of_false nofun fun h => h hd
      · rw [if_neg hd]
        exact iff_of_true rfl hd
    | some t =>
      refine iff_of_false ?_ fun h => h trivial
      rw [step]
      split <;> exact nofun
  | map indices terminal table => exact step_map_invalid_iff indices terminal table hi.2 _ d w

/-- An instruction finds the input invalid at a digit that it has no transition for, and only
there. -/
theorem step_invalid_iff (i : Instruction) (hi : i.Valid) (w : List Digit) :
    (i.step i.size w).status = .invalid ↔ ∃ d rest, w = d :: rest ∧ ¬i.HasTransition d := by
  cases w with
  | nil =>
    refine iff_of_false i.step_nil_ne_invalid ?_
    rintro ⟨d, rest, h, -⟩
    cases h
  | cons d w =>
    rw [i.step_cons_invalid_iff hi]
    constructor
    · exact fun hd => ⟨d, w, rfl, hd⟩
    · rintro ⟨e, rest, h, he⟩
      obtain ⟨rfl, -⟩ := List.cons.inj h
      exact he

end Instruction

/-! ## Runs -/

section

variable {program : List UInt8} {w : List Digit}

theorem run_of_visits {place : Nat} {left : List Digit} (h : Visits program w place left) :
    run program w = run (program.drop place) left := by
  induction h with
  | start => rfl
  | next place left h i hd hs ih => rw [ih, run_of_running _ left i hd hs, List.drop_drop]

theorem run_of_unreadable {place : Nat} {left : List Digit} (h : Visits program w place left)
    (hd : Instruction.decode (program.drop place) = none) : run program w = (.invalid, left) := by
  rw [run_of_visits h, run, runFor, hd]

/-- At the last place the run does not go on. -/
theorem exists_end (program : List UInt8) (w : List Digit) :
    ∃ place left, Visits program w place left ∧
      ∀ i, Instruction.decode (program.drop place) = some i →
        (i.step i.size left).status ≠ .running := by
  have hrest : ∀ n place left, program.length - place ≤ n → Visits program w place left →
      ∃ place left, Visits program w place left ∧
        ∀ i, Instruction.decode (program.drop place) = some i →
          (i.step i.size left).status ≠ .running := by
    intro n
    induction n with
    | zero =>
      intro place left hn h
      refine ⟨place, left, h, fun i hd => ?_⟩
      have hpos := length_pos_of_decode _ i hd
      rw [List.length_drop] at hpos
      omega
    | succ n ih =>
      intro place left hn h
      by_cases hend : ∀ i, Instruction.decode (program.drop place) = some i →
          (i.step i.size left).status ≠ .running
      · exact ⟨place, left, h, hend⟩
      · simp only [not_forall, not_not] at hend
        obtain ⟨i, hd, hs⟩ := hend
        have hnext := i.next_pos left hs
        exact ih _ _ (by omega) (.next place left h i hd hs)
  exact hrest _ 0 w (Nat.le_refl _) .start

/-- A run is invalid by a place where no instruction can be read, or by a digit that an instruction
has no transition for. -/
theorem run_invalid_iff (program : List UInt8) (w : List Digit) :
    (run program w).1 = .invalid ↔ ∃ place left, Visits program w place left ∧
      (Instruction.decode (program.drop place) = none ∨
        ∃ i d rest, Instruction.decode (program.drop place) = some i ∧ left = d :: rest ∧
          ¬i.HasTransition d) := by
  have hhalt : ∀ place left i, Visits program w place left →
      Instruction.decode (program.drop place) = some i →
      (i.step i.size left).status ≠ .running →
      (run program w).1 = (i.step i.size left).status := by
    intro place left i h hd hs
    rw [run_of_visits h, run_of_halting _ left i hd hs]
  have hstep : ∀ place left i, Instruction.decode (program.drop place) = some i →
      ((i.step i.size left).status = .invalid ↔
        ∃ d rest, left = d :: rest ∧ ¬i.HasTransition d) := fun place left i hd =>
    i.step_invalid_iff (i.valid_of_decode _ hd) left
  constructor
  · intro hrun
    obtain ⟨place, left, h, hend⟩ := exists_end program w
    refine ⟨place, left, h, ?_⟩
    cases hd : Instruction.decode (program.drop place) with
    | none => exact Or.inl rfl
    | some i =>
      rw [hhalt place left i h hd (hend i hd)] at hrun
      obtain ⟨d, rest, hleft, hnone⟩ := (hstep place left i hd).mp hrun
      exact Or.inr ⟨i, d, rest, rfl, hleft, hnone⟩
  · rintro ⟨place, left, h, hd | ⟨i, d, rest, hd, hleft, hnone⟩⟩
    · rw [run_of_unreadable h hd]
    · have hs := (hstep place left i hd).mpr ⟨d, rest, hleft, hnone⟩
      rw [hhalt place left i h hd (by rw [hs]; exact nofun), hs]

end

end NumberPlan
