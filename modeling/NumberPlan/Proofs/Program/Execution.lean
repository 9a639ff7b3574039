import NumberPlan.Program.Execution

/-!
# Steps of a run

Every instruction that goes on leaves a shorter program, so the number of attempts does not
matter once it exceeds the program's length (`runFor_eq_runFor`), and a run is one step and then
the run of what is left.

    decode p = some i → i goes on with s → verdict p w = verdict (p.drop s.next) s.rest
                                                                          (verdict_of_running)
-/

namespace NumberPlan

theorem Instruction.next_pos (i : Instruction) (w : List Digit)
    (h : (i.step i.size w).status = .running) : 0 < (i.step i.size w).next := by
  cases i with
  | branch offset long =>
    have hsize : 0 < (Instruction.branch offset long).size := by cases long <;> exact Nat.succ_pos _
    unfold Instruction.step at h ⊢
    dsimp only at h ⊢
    split at h
    · cases h
    · next h0 =>
      rw [if_neg h0]
      show 0 < _ + _
      omega
  | single digit terminal =>
    cases w <;> exact Nat.one_pos
  | run count terminal =>
    unfold Instruction.step
    dsimp only
    split <;> exact Nat.one_pos
  | set mask terminal table =>
    cases w with
    | nil => cases table <;> exact Nat.succ_pos _
    | cons d w =>
      cases table with
      | none => exact Nat.succ_pos _
      | some t =>
        unfold Instruction.step
        dsimp only
        split <;> (show 0 < _ + _ + _; omega)
  | map indices terminal table =>
    have hsize : table.length < (Instruction.map indices terminal table).size := by
      show _ < 4 + _
      omega
    cases w with
    | nil => exact Nat.lt_of_le_of_lt (Nat.zero_le _) hsize
    | cons d w =>
      unfold Instruction.step
      dsimp only
      split
      · exact Nat.lt_of_le_of_lt (Nat.zero_le _) hsize
      · split
        · exact Nat.lt_of_le_of_lt (Nat.zero_le _) hsize
        · show 0 < _ + _ + _
          omega

theorem length_pos_of_decode (p : List UInt8) (i : Instruction)
    (h : Instruction.decode p = some i) : 0 < p.length := by
  cases p with
  | nil => cases h
  | cons b p => exact Nat.succ_pos _

/-- More attempts than bytes change nothing. -/
theorem runFor_eq_runFor (n : Nat) : ∀ (m : Nat) (p : List UInt8) (w : List Digit),
    p.length < n → p.length < m → runFor n p w = runFor m p w := by
  induction n with
  | zero => exact fun m p w h => absurd h (Nat.not_lt_zero _)
  | succ n ih =>
    intro m p w hn hm
    obtain ⟨m, rfl⟩ : ∃ k, m = k + 1 := ⟨m - 1, by omega⟩
    rw [runFor, runFor]
    cases hd : Instruction.decode p with
    | none => rfl
    | some i =>
      dsimp only
      cases hs : (i.step i.size w).status with
      | running =>
        have hpos := length_pos_of_decode p i hd
        have hnext := i.next_pos w hs
        exact ih m _ _ (by rw [List.length_drop]; omega) (by rw [List.length_drop]; omega)
      | terminal => rfl
      | invalid => rfl
      | truncated => rfl

theorem run_of_running (p : List UInt8) (w : List Digit) (i : Instruction)
    (hd : Instruction.decode p = some i) (hs : (i.step i.size w).status = .running) :
    run p w = run (p.drop (i.step i.size w).next) (i.step i.size w).rest := by
  have hpos := length_pos_of_decode p i hd
  have hnext := i.next_pos w hs
  unfold run
  rw [runFor, hd]
  dsimp only
  rw [hs]
  exact runFor_eq_runFor _ _ _ _ (by rw [List.length_drop]; omega) (Nat.lt_succ_self _)

theorem run_of_halting (p : List UInt8) (w : List Digit) (i : Instruction)
    (hd : Instruction.decode p = some i) (hs : (i.step i.size w).status ≠ .running) :
    run p w = ((i.step i.size w).status, (i.step i.size w).rest) := by
  unfold run
  rw [runFor, hd]
  dsimp only
  cases h : (i.step i.size w).status with
  | running => exact absurd h hs
  | terminal => rfl
  | invalid => rfl
  | truncated => rfl

theorem verdict_of_running (p : List UInt8) (w : List Digit) (i : Instruction)
    (hd : Instruction.decode p = some i) (hs : (i.step i.size w).status = .running) :
    verdict p w = verdict (p.drop (i.step i.size w).next) (i.step i.size w).rest := by
  unfold verdict
  rw [run_of_running p w i hd hs]

theorem verdict_of_invalid (p : List UInt8) (w : List Digit) (i : Instruction)
    (hd : Instruction.decode p = some i) (hs : (i.step i.size w).status = .invalid) :
    verdict p w = .invalid := by
  unfold verdict
  rw [run_of_halting p w i hd (by rw [hs]; decide), hs]

/-- Where the input has ended, an instruction that may end there matches. -/
theorem verdict_of_exhausted (p : List UInt8) (w : List Digit) (i : Instruction) (terminal : Bool)
    (hd : Instruction.decode p = some i)
    (hs : (i.step i.size w).status = Instruction.exhausted terminal)
    (hrest : (i.step i.size w).rest = []) :
    verdict p w = if terminal then .matched else .tooShort := by
  unfold verdict
  cases terminal with
  | true =>
    rw [run_of_halting p w i hd (by rw [hs]; decide), hs, hrest]
    rfl
  | false =>
    rw [run_of_halting p w i hd (by rw [hs]; decide), hs, hrest]
    rfl

end NumberPlan
