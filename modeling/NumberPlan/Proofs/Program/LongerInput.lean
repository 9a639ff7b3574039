import NumberPlan.Proofs.Program.Execution

/-!
# Runs on longer inputs

Any bytes may be taken as a program.  An instruction that finds the digits it takes
(`Instruction.demand`) does not see what follows them, and one that does not find them only ends
the run.  So a run takes the same steps on a longer input, unless it has run out of digits:

    run p (w ++ v) = ((run p w).1, (run p w).2 ++ v)   or   run p w = (exhausted terminal, [])
                                                                                   (run_append)

Running out is never invalid, so what was found invalid, or too long, stays so whatever digits
follow, and what becomes too short with more digits was not decided before    (verdict_append).

A run that leaves digits over has not run out, so it ends the same way on the digits that it took,
and what it leaves over has no part in it.

    run p w = (s, v) with v not empty → w = u ++ v and run p (u ++ x) = (s, x)     (run_of_left)
    verdict p w = .tooLong → some shorter leading part of w matches     (exists_lead_of_tooLong)
-/

namespace NumberPlan

namespace Instruction

/-! ## One step -/

/-- The number of digits that an instruction takes. -/
def demand : Instruction → Nat
  | branch .. => 0
  | run count _ => count
  | _ => 1

theorem step_append (i : Instruction) (stop : Nat) (w v : List Digit)
    (h : i.demand ≤ w.length) :
    i.step stop (w ++ v) =
      ⟨(i.step stop w).status, (i.step stop w).next, (i.step stop w).rest ++ v⟩ := by
  cases i with
  | branch offset long =>
    unfold step
    dsimp only
    split <;> rfl
  | run count terminal =>
    have hcount : count ≤ w.length := h
    have hlong : count ≤ (w ++ v).length := by rw [List.length_append]; omega
    unfold step
    dsimp only
    rw [if_pos hcount, if_pos hlong, List.drop_append_of_le_length hcount]
  | single digit terminal =>
    cases w with
    | nil => exact absurd h (Nat.not_succ_le_zero 0)
    | cons d w => rfl
  | set mask terminal table =>
    cases w with
    | nil => exact absurd h (Nat.not_succ_le_zero 0)
    | cons d w =>
      cases table with
      | none => rfl
      | some t =>
        unfold step
        dsimp only [List.cons_append]
        split <;> rfl
  | map indices terminal table =>
    cases w with
    | nil => exact absurd h (Nat.not_succ_le_zero 0)
    | cons d w =>
      unfold step
      dsimp only [List.cons_append]
      split
      · rfl
      · split <;> rfl

/-- An instruction leaves the digits after those that it takes, if it finds them. -/
theorem step_rest (i : Instruction) (stop : Nat) (w : List Digit) :
    (i.step stop w).rest = w.drop i.demand := by
  cases i with
  | branch offset long =>
    unfold step
    dsimp only
    split <;> rfl
  | run count terminal =>
    unfold step
    dsimp only
    split
    · rfl
    · next h => exact (List.drop_eq_nil_of_le (Nat.le_of_not_le h)).symm
  | single digit terminal => cases w <;> rfl
  | set mask terminal table =>
    cases w with
    | nil => rfl
    | cons d w =>
      cases table with
      | none => rfl
      | some t =>
        unfold step
        dsimp only
        split <;> rfl
  | map indices terminal table =>
    cases w with
    | nil => rfl
    | cons d w =>
      unfold step
      dsimp only
      split
      · rfl
      · split <;> rfl

/-- What stands after the digits that an instruction takes is left, and changes nothing else. -/
theorem step_of_length (i : Instruction) (stop : Nat) (u v : List Digit)
    (h : u.length = i.demand) :
    i.step stop (u ++ v) = ⟨(i.step stop u).status, (i.step stop u).next, v⟩ := by
  rw [i.step_append stop u v (Nat.le_of_eq h.symm), i.step_rest, ← h, List.drop_length,
    List.nil_append]

/-- An instruction that finds too few digits takes them all, and the run ends. -/
theorem step_of_short (i : Instruction) (stop : Nat) (w : List Digit)
    (h : w.length < i.demand) : ∃ terminal, i.step stop w = ⟨exhausted terminal, stop, []⟩ := by
  cases i with
  | branch offset long => exact absurd h (Nat.not_lt_zero _)
  | run count terminal =>
    have hcount : ¬count ≤ w.length := Nat.not_le.mpr h
    refine ⟨terminal, ?_⟩
    unfold step
    dsimp only
    rw [if_neg hcount]
  | single digit terminal | set mask terminal table | map indices terminal table =>
    obtain rfl : w = [] := List.length_eq_zero_iff.mp (Nat.lt_one_iff.mp h)
    exact ⟨terminal, rfl⟩

end Instruction

/-! ## Runs -/

theorem runFor_append (n : Nat) (v : List Digit) : ∀ (p : List UInt8) (w : List Digit),
    runFor n p (w ++ v) = ((runFor n p w).1, (runFor n p w).2 ++ v) ∨
      ∃ terminal, runFor n p w = (Instruction.exhausted terminal, []) := by
  induction n with
  | zero => exact fun p w => Or.inl rfl
  | succ n ih =>
    intro p w
    rw [runFor, runFor]
    cases hd : Instruction.decode p with
    | none => exact Or.inl rfl
    | some i =>
      dsimp only
      by_cases hdemand : i.demand ≤ w.length
      · rw [i.step_append i.size w v hdemand]
        dsimp only
        cases (i.step i.size w).status with
        | running => exact ih _ _
        | terminal | invalid | truncated => exact Or.inl rfl
      · obtain ⟨terminal, hs⟩ := i.step_of_short i.size w (Nat.not_le.mp hdemand)
        rw [hs]
        refine Or.inr ⟨terminal, ?_⟩
        cases terminal <;> rfl

/-- On a longer input a run takes the same steps, unless it has run out of digits. -/
theorem run_append (p : List UInt8) (w v : List Digit) :
    run p (w ++ v) = ((run p w).1, (run p w).2 ++ v) ∨
      ∃ terminal, run p w = (Instruction.exhausted terminal, []) :=
  runFor_append (p.length + 1) v p w

theorem runFor_of_left (n : Nat) : ∀ (p : List UInt8) (w v : List Digit), v ≠ [] →
    (runFor n p w).2 = v → ∃ u, w = u ++ v ∧ ∀ x, runFor n p (u ++ x) = ((runFor n p w).1, x) := by
  induction n with
  | zero =>
    rintro p w _ - rfl
    exact ⟨[], rfl, fun x => rfl⟩
  | succ n ih =>
    intro p w v hv h
    cases hd : Instruction.decode p with
    | none =>
      have hend : ∀ x, runFor (n + 1) p x = (.invalid, x) := fun x => by rw [runFor, hd]
      rw [hend] at h
      exact ⟨[], h, fun x => by rw [hend, hend]; rfl⟩
    | some i =>
      by_cases hdemand : i.demand ≤ w.length
      · -- the digits that the instruction takes come first, before those that the rest of the run
        -- takes and those that are left over
        obtain ⟨a, b, rfl, ha⟩ : ∃ a b, w = a ++ b ∧ a.length = i.demand :=
          ⟨_, _, (List.take_append_drop i.demand w).symm, List.length_take_of_le hdemand⟩
        have hstep := fun x => i.step_of_length i.size a x ha
        cases hs : (i.step i.size a).status with
        | running =>
          have hrun : ∀ x, runFor (n + 1) p (a ++ x)
              = runFor n (p.drop (i.step i.size a).next) x := by
            intro x
            rw [runFor, hd]
            dsimp only
            rw [hstep, hs]
          rw [hrun] at h ⊢
          obtain ⟨u, rfl, hu⟩ := ih _ b v hv h
          refine ⟨a ++ u, (List.append_assoc a u v).symm, fun x => ?_⟩
          rw [List.append_assoc, hrun, hu]
        | terminal | invalid | truncated =>
          have hrun : ∀ x, runFor (n + 1) p (a ++ x) = ((i.step i.size a).status, x) := by
            intro x
            rw [runFor, hd]
            dsimp only
            rw [hstep]
            dsimp only
            rw [hs]
          rw [hrun] at h ⊢
          obtain rfl : b = v := h
          exact ⟨a, rfl, hrun⟩
      · obtain ⟨terminal, hs⟩ := i.step_of_short i.size w (Nat.not_le.mp hdemand)
        rw [runFor, hd] at h
        dsimp only at h
        rw [hs] at h
        cases terminal <;> exact absurd h.symm hv

/-- A run that leaves digits over ends the same way whatever stands in their place. -/
theorem run_of_left (p : List UInt8) (w v : List Digit) (hv : v ≠ []) (h : (run p w).2 = v) :
    ∃ u, w = u ++ v ∧ ∀ x, run p (u ++ x) = ((run p w).1, x) :=
  runFor_of_left (p.length + 1) p w v hv h

/-! ## Verdicts -/

/-- A string that is too long has a shorter leading part that matches: the digits taken. -/
theorem exists_lead_of_tooLong (p : List UInt8) (w : List Digit) (h : verdict p w = .tooLong) :
    ∃ u v, v ≠ [] ∧ w = u ++ v ∧ verdict p u = .matched := by
  have hrun : ∃ d v, run p w = (.terminal, d :: v) := by
    unfold verdict at h
    split at h
    · cases h
    · next d v heq => exact ⟨d, v, heq⟩
    · cases h
    · cases h
    · cases h
  obtain ⟨d, v, heq⟩ := hrun
  obtain ⟨u, hw, hsame⟩ := run_of_left p w (d :: v) (List.cons_ne_nil d v) (by rw [heq])
  have hend := hsame []
  rw [List.append_nil, heq] at hend
  refine ⟨u, d :: v, List.cons_ne_nil d v, hw, ?_⟩
  unfold verdict
  rw [hend]

theorem taken_append (p : List UInt8) (w v : List Digit)
    (h : run p (w ++ v) = ((run p w).1, (run p w).2 ++ v)) : taken p (w ++ v) = taken p w := by
  unfold taken
  rw [h, List.length_append, List.length_append]
  omega

/-- A run that has run out of digits has matched or was too short. -/
theorem verdict_of_run_out (p : List UInt8) (w : List Digit) (terminal : Bool)
    (h : run p w = (Instruction.exhausted terminal, [])) :
    verdict p w = .matched ∨ verdict p w = .tooShort := by
  unfold verdict
  rw [h]
  cases terminal with
  | true => exact Or.inl rfl
  | false => exact Or.inr rfl

/-- Where a run is the same on a longer input, its verdict changes only from matched to too long. -/
theorem verdict_of_run_append (p : List UInt8) (w v : List Digit)
    (h : run p (w ++ v) = ((run p w).1, (run p w).2 ++ v)) :
    verdict p (w ++ v) = verdict p w ∨ verdict p w = .matched ∧ verdict p (w ++ v) = .tooLong := by
  unfold verdict
  rw [h]
  obtain ⟨status, rest⟩ := run p w
  cases status with
  | running | invalid | truncated => exact Or.inl rfl
  | terminal =>
    cases rest with
    | cons d rest => exact Or.inl rfl
    | nil =>
      cases v with
      | nil => exact Or.inl rfl
      | cons d v => exact Or.inr ⟨rfl, rfl⟩

/-- What is invalid stays invalid, and what is too long stays too long, whatever digits follow, and
the run takes as many digits as before.  What is too short with more digits was so before, or
matched. -/
theorem verdict_append (program : List UInt8) (w v : List Digit) :
    (verdict program w = .invalid →
      verdict program (w ++ v) = .invalid ∧ taken program (w ++ v) = taken program w) ∧
    (verdict program w = .tooLong →
      verdict program (w ++ v) = .tooLong ∧ taken program (w ++ v) = taken program w) ∧
    (verdict program (w ++ v) = .tooShort →
      verdict program w = .tooShort ∨ verdict program w = .matched) := by
  rcases run_append program w v with hsame | ⟨terminal, hout⟩
  · have htaken := taken_append program w v hsame
    rcases verdict_of_run_append program w v hsame with hverdict | ⟨hmatched, hlong⟩
    · rw [hverdict]
      exact ⟨fun h => ⟨h, htaken⟩, fun h => ⟨h, htaken⟩, Or.inl⟩
    · rw [hmatched, hlong]
      exact ⟨nofun, nofun, nofun⟩
  · -- the run on `w` has run out, so that it is neither invalid nor too long
    rcases verdict_of_run_out program w terminal hout with h | h
    · rw [h]
      exact ⟨nofun, nofun, fun _ => Or.inr rfl⟩
    · rw [h]
      exact ⟨nofun, nofun, fun _ => Or.inl rfl⟩

/-- Takes 1, then 2, then two digits of any value; the input may end before the 2. -/
def endsBeforeTwo : List UInt8 := [0x21, 0x32, 0x41, 0x00]

theorem verdict_append_endsBeforeTwo :
    verdict endsBeforeTwo [1, 3, 2] = .invalid ∧
      verdict endsBeforeTwo [1, 2, 5, 6, 7, 8] = .tooLong ∧
      taken endsBeforeTwo [1, 2, 5, 6, 7, 8] = 4 ∧
      verdict endsBeforeTwo [1, 2, 5] = .tooShort ∧
      (verdict endsBeforeTwo [1] = .tooShort ∨ verdict endsBeforeTwo [1] = .matched) := by
  obtain ⟨hinvalid, -, -⟩ := verdict_append endsBeforeTwo [1, 3] [2]
  obtain ⟨-, hlong, -⟩ := verdict_append endsBeforeTwo [1, 2, 5, 6, 7] [8]
  obtain ⟨-, -, hshort⟩ := verdict_append endsBeforeTwo [1] [2, 5]
  have htaken : taken endsBeforeTwo [1, 2, 5, 6, 7] = 4 := by decide
  have hending : verdict endsBeforeTwo [1, 2, 5] = .tooShort := by decide
  exact ⟨(hinvalid (by decide)).1, (hlong (by decide)).1, (hlong (by decide)).2.trans htaken,
    hending, hshort hending⟩

end NumberPlan
