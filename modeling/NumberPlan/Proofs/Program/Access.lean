import Mathlib.Data.Nat.Bitwise
import NumberPlan.Program.Access
import NumberPlan.Program.Layout
import NumberPlan.Proofs.Checked
import NumberPlan.Proofs.Program.Execution
import NumberPlan.Proofs.Program.Instruction

/-!
# No run reaches outside its data

Whatever bytes are taken as a program, an instruction that can be read has a table with an entry for
every index of its field, and lies inside the program with that table.  So each access of a run is
to something that exists, and a run does what it does without the checks:

    c.Within → ∃ c', runChecked p (p.length + 1) 0 c = .ok ((run p c.ahead).1, c') ∧ …  (run_total)

An instruction that goes on leads to a later place, so a run reads at most one instruction for each
byte, and one attempt more finds the end of the program.
-/

namespace NumberPlan

open Checked

/-! ## Cursors -/

namespace DigitCursor

/-- The cursor is at a digit, or behind the last one. -/
def Within (c : DigitCursor) : Prop := c.position ≤ c.digits.size

/-- The cursor has gone on to where the digits `rest` are left. -/
structure MovesTo (c : DigitCursor) (rest : List Digit) (c' : DigitCursor) : Prop where
  digits : c'.digits = c.digits
  le : c.position ≤ c'.position
  within : c'.Within
  ahead : c'.ahead = rest

theorem length_ahead (c : DigitCursor) : c.ahead.length = c.digits.size - c.position := by
  simp [ahead]

theorem MovesTo.refl {c : DigitCursor} (h : c.Within) : c.MovesTo c.ahead c :=
  ⟨rfl, Nat.le_refl _, h, rfl⟩

theorem MovesTo.trans {c c₁ c₂ : DigitCursor} {w₁ w₂ : List Digit} (h : c.MovesTo w₁ c₁)
    (h' : c₁.MovesTo w₂ c₂) : c.MovesTo w₂ c₂ :=
  ⟨h'.digits.trans h.digits, Nat.le_trans h.le h'.le, h'.within, h'.ahead⟩

/-- The place of a cursor tells how many digits it has passed. -/
theorem MovesTo.position {c c' : DigitCursor} {rest : List Digit} (h : c.MovesTo rest c') :
    c'.position = c.position + (c.ahead.length - rest.length) := by
  have hsize := congrArg Array.size h.digits
  have hle := h.le
  have hwithin := h.within
  unfold Within at hwithin
  rw [← h.ahead, length_ahead, length_ahead]
  omega

theorem next_of_nil (c : DigitCursor) (h : c.ahead = []) : c.next = (none, c) := by
  have hend : c.digits.size ≤ c.position := by
    have hlen := c.length_ahead
    rw [h, List.length_nil] at hlen
    omega
  unfold next
  rw [Array.getElem?_eq_none hend]

theorem next_of_cons (c : DigitCursor) (d : Digit) (rest : List Digit) (h : c.ahead = d :: rest) :
    ∃ c', c.next = (some d, c') ∧ c.MovesTo rest c' := by
  have hlt : c.position < c.digits.size := by
    have hlen := c.length_ahead
    rw [h, List.length_cons] at hlen
    omega
  have hdrop : c.ahead = c.digits[c.position] :: c.digits.toList.drop (c.position + 1) := by
    rw [ahead, List.drop_eq_getElem_cons (by simpa using hlt), Array.getElem_toList]
  rw [h] at hdrop
  obtain ⟨hd, hrest⟩ := List.cons.inj hdrop
  refine ⟨{ c with position := c.position + 1 }, ?_, rfl, Nat.le_succ _, hlt, hrest.symm⟩
  unfold next
  rw [Array.getElem?_eq_getElem hlt, ← hd]

theorem pass_of_le (count : Nat) : ∀ c : DigitCursor, c.Within → count ≤ c.ahead.length →
    ∃ c', c.pass count = (true, c') ∧ c.MovesTo (c.ahead.drop count) c' := by
  induction count with
  | zero =>
    intro c hc _
    exact ⟨c, rfl, .refl hc⟩
  | succ count ih =>
    intro c hc hcount
    cases hw : c.ahead with
    | nil =>
      rw [hw] at hcount
      exact absurd hcount (Nat.not_succ_le_zero count)
    | cons d rest =>
      obtain ⟨c₁, hnext, hmoves⟩ := c.next_of_cons d rest hw
      have hrest : count ≤ c₁.ahead.length := by
        rw [hw, List.length_cons] at hcount
        rw [hmoves.ahead]
        omega
      obtain ⟨c₂, hpass, hmoves'⟩ := ih c₁ hmoves.within hrest
      rw [hmoves.ahead] at hmoves'
      refine ⟨c₂, ?_, hmoves.trans hmoves'⟩
      rw [pass, hnext]
      exact hpass

/-- Where there are too few digits, all of them are passed. -/
theorem pass_of_lt (count : Nat) : ∀ c : DigitCursor, c.Within → c.ahead.length < count →
    ∃ c', c.pass count = (false, c') ∧ c.MovesTo [] c' := by
  induction count with
  | zero => exact fun c _ h => absurd h (Nat.not_lt_zero _)
  | succ count ih =>
    intro c hc hcount
    cases hw : c.ahead with
    | nil =>
      have hstay := MovesTo.refl hc
      rw [hw] at hstay
      refine ⟨c, ?_, hstay⟩
      rw [pass, c.next_of_nil hw]
    | cons d rest =>
      obtain ⟨c₁, hnext, hmoves⟩ := c.next_of_cons d rest hw
      have hrest : c₁.ahead.length < count := by
        rw [hw, List.length_cons] at hcount
        rw [hmoves.ahead]
        omega
      obtain ⟨c₂, hpass, hmoves'⟩ := ih c₁ hmoves.within hrest
      refine ⟨c₂, ?_, hmoves.trans hmoves'⟩
      rw [pass, hnext]
      exact hpass

end DigitCursor

/-! ## Packed indices -/

/-- A share takes as many bits as its values need, all within 32 bits. -/
theorem share_bits (d : Digit) :
    element shareShifts d.val = .ok (shareShifts.getD d.val 0) ∧
      element shareWidths d.val = .ok (shareWidths.getD d.val 0) ∧
      shareShifts.getD d.val 0 < 32 ∧ shareWidths.getD d.val 0 < 32 ∧
      shareWeight d = 2 ^ shareShifts.getD d.val 0 ∧
      shareSize d = 2 ^ shareWidths.getD d.val 0 := by
  revert d
  decide

theorem indexChecked_eq (field : Nat) (d : Digit) :
    indexChecked field d = .ok (indexOf field d) := by
  obtain ⟨hshift, hwidth, hfar, hwide, hweight, hsize⟩ := share_bits d
  have hpos : 1 ≤ 2 ^ shareWidths.getD d.val 0 := Nat.one_le_two_pow
  unfold indexChecked
  rw [hshift, ok_bind, shiftRight_of_lt 32 field _ hfar, ok_bind, hwidth, ok_bind,
    shiftLeft_one_of_lt 32 _ hwide, ok_bind, minus_of_le _ 1 hpos, ok_bind]
  show Except.ok _ = _
  rw [Nat.and_two_pow_sub_one_eq_mod, indexOf, hweight, hsize]

theorem tableLengthChecked_eq (field : Nat) :
    tableLengthChecked field = .ok (tableLength field) := by
  unfold tableLengthChecked
  rw [mapM_eq_ok _ (indexOf field) _ fun d _ => indexChecked_eq field d]
  rfl

namespace Instruction

/-! ## Reading instructions -/

theorem decodeMapChecked_eq (b : UInt8) (terminal : Bool) (rest : List UInt8) :
    decodeMapChecked b terminal rest = .ok (decodeMap b terminal rest) := by
  match rest with
  | [] | [_] | [_, _] => rfl
  | c :: d :: e :: rest =>
    unfold decodeMapChecked decodeMap
    dsimp only
    rw [tableLengthChecked_eq, ok_bind]
    rfl

/-- The kind of an instruction is found, and the length of its table. -/
theorem decodeChecked_eq (bytes : List UInt8) : decodeChecked bytes = .ok (decode bytes) := by
  cases bytes with
  | nil => rfl
  | cons b rest =>
    have hkind : b.toNat / 32 < OpCode.kinds.size := by
      have hb := b.toNat_lt
      show b.toNat / 32 < 8
      omega
    unfold decodeChecked decode
    dsimp only
    rw [element_of_lt _ _ hkind, ok_bind]
    generalize b.toNat / 32 = k at hkind ⊢
    match k, hkind with
    | 0, _ | 1, _ | 2, _ | 3, _ | 6, _ | 7, _ => rfl
    | 4, _ => exact decodeMapChecked_eq b false rest
    | 5, _ => exact decodeMapChecked_eq b true rest
    | k + 8, hkind => exact absurd hkind (by show ¬k + 8 < 8; omega)

/-! ## Running one instruction -/

/-- The entry of a table at the end of an instruction leads on. -/
theorem jumpChecked_of_lt (stop : Nat) (table : Array UInt8) (entry : Nat)
    (hstop : table.size ≤ stop) (hentry : entry < table.size) :
    jumpChecked stop table entry =
      .ok (stop - table.size + (entry + 1) + table[entry].toNat) := by
  unfold jumpChecked
  rw [minus_of_le _ _ hstop, ok_bind, element_of_lt _ _ hentry, ok_bind]
  rfl

/-- A digit is a member of a set if its bit is in the mask. -/
theorem and_bit_ne_zero (mask k : Nat) : (mask &&& 2 ^ k != 0) = mask.testBit k := by
  rw [Nat.and_two_pow]
  cases mask.testBit k with
  | false => simp
  | true => simp

/-- The step of an instruction that ends at `stop`, on a cursor. -/
def Stepped (i : Instruction) (stop : Nat) (c : DigitCursor) : Prop :=
  ∃ c', i.stepChecked stop c =
      .ok ⟨(i.step stop c.ahead).status, (i.step stop c.ahead).next, c'⟩ ∧
    c.MovesTo (i.step stop c.ahead).rest c'

section

variable (stop : Nat) (c : DigitCursor) (hc : c.Within)

include hc

theorem stepped_branch (offset : Nat) (long : Bool) : (branch offset long).Stepped stop c := by
  have hstay := DigitCursor.MovesTo.refl hc
  unfold Stepped step stepChecked
  by_cases h : offset = 0
  · simp only [h, if_true]
    exact ⟨c, rfl, hstay⟩
  · simp only [h, if_false]
    exact ⟨c, rfl, hstay⟩

theorem stepped_run (count : Nat) (terminal : Bool) : (run count terminal).Stepped stop c := by
  unfold Stepped step stepChecked
  by_cases h : count ≤ c.ahead.length
  · obtain ⟨c', hpass, hmoves⟩ := c.pass_of_le count hc h
    simp only [hpass, h, if_true]
    exact ⟨c', rfl, hmoves⟩
  · obtain ⟨c', hpass, hmoves⟩ := c.pass_of_lt count hc (Nat.not_le.mp h)
    simp only [hpass, h, if_false]
    exact ⟨c', rfl, hmoves⟩

theorem stepped_single (digit : Nat) (terminal : Bool) :
    (single digit terminal).Stepped stop c := by
  have hstay := DigitCursor.MovesTo.refl hc
  unfold Stepped step stepChecked
  cases hw : c.ahead with
  | nil =>
    rw [hw] at hstay
    simp only [c.next_of_nil hw]
    exact ⟨c, rfl, hstay⟩
  | cons d rest =>
    obtain ⟨c', hnext, hmoves⟩ := c.next_of_cons d rest hw
    simp only [hnext]
    exact ⟨c', rfl, hmoves⟩

theorem stepped_set (mask : Nat) (terminal : Bool) (table : Option (UInt8 × UInt8))
    (hstop : (set mask terminal table).size ≤ stop) :
    (set mask terminal table).Stepped stop c := by
  have hstay := DigitCursor.MovesTo.refl hc
  unfold Stepped step stepChecked
  cases hw : c.ahead with
  | nil =>
    rw [hw] at hstay
    simp only [c.next_of_nil hw]
    exact ⟨c, rfl, hstay⟩
  | cons d rest =>
    obtain ⟨c', hnext, hmoves⟩ := c.next_of_cons d rest hw
    have hbit := shiftLeft_one_of_lt 16 d.val (by omega)
    simp only [hnext, hbit, ok_bind, and_bit_ne_zero]
    cases table with
    | none => exact ⟨c', rfl, hmoves⟩
    | some t =>
      have hsize : 2 ≤ stop := by
        have : 4 ≤ stop := hstop
        omega
      cases hmember : mask.testBit d.val with
      | true =>
        have hjump := jumpChecked_of_lt stop #[t.1, t.2] 0 hsize (by simp)
        simp only [if_true, hjump, ok_bind]
        exact ⟨c', rfl, hmoves⟩
      | false =>
        have hjump := jumpChecked_of_lt stop #[t.1, t.2] 1 hsize (by simp)
        simp only [Bool.false_eq_true, if_false, hjump, ok_bind]
        exact ⟨c', rfl, hmoves⟩

/-- The table of a map has an entry for every index that its field holds. -/
theorem stepped_map (indices : Nat) (terminal : Bool) (table : List UInt8)
    (htable : table.length = tableLength indices)
    (hstop : (map indices terminal table).size ≤ stop) :
    (map indices terminal table).Stepped stop c := by
  have hstay := DigitCursor.MovesTo.refl hc
  unfold Stepped step stepChecked
  cases hw : c.ahead with
  | nil =>
    rw [hw] at hstay
    simp only [c.next_of_nil hw]
    exact ⟨c, rfl, hstay⟩
  | cons d rest =>
    obtain ⟨c', hnext, hmoves⟩ := c.next_of_cons d rest hw
    have hindex := indexOf_le_tableLength indices d
    simp only [hnext, indexChecked_eq, ok_bind]
    cases hk : indexOf indices d with
    | zero =>
      simp only [if_true]
      exact ⟨c', rfl, hmoves⟩
    | succ k =>
      have hlt : k < table.length := by omega
      have hsize : table.length ≤ stop := by
        have : 4 + table.length ≤ stop := hstop
        omega
      have hentry := minus_of_le (k + 1) 1 (by omega)
      have hjump := jumpChecked_of_lt stop table.toArray k hsize hlt
      simp only [Nat.succ_ne_zero, if_false, hentry, ok_bind, Nat.add_sub_cancel, hjump,
        List.getElem?_eq_getElem hlt]
      exact ⟨c', rfl, hmoves⟩

/-- An instruction that was read does the same on a cursor, and nothing faults. -/
theorem stepped (i : Instruction) (hi : i.Valid) (hstop : i.size ≤ stop) : i.Stepped stop c := by
  cases i with
  | branch offset long => exact stepped_branch stop c hc offset long
  | single digit terminal => exact stepped_single stop c hc digit terminal
  | run count terminal => exact stepped_run stop c hc count terminal
  | set mask terminal table => exact stepped_set stop c hc mask terminal table hstop
  | map indices terminal table => exact stepped_map stop c hc indices terminal table hi.2 hstop

end

/-! ## Places -/

/-- Where an instruction stands makes no difference but to the place where the program goes on. -/
theorem step_add_place (i : Instruction) (place : Nat) (w : List Digit) :
    i.step (place + i.size) w =
      ⟨(i.step i.size w).status, place + (i.step i.size w).next, (i.step i.size w).rest⟩ := by
  cases i with
  | branch offset long =>
    unfold step
    dsimp only
    split <;> simp [Nat.add_assoc]
  | run count terminal =>
    unfold step
    dsimp only
    split <;> rfl
  | single digit terminal => cases w <;> rfl
  | set mask terminal table =>
    cases w with
    | nil => rfl
    | cons d w =>
      cases table with
      | none => rfl
      | some t =>
        unfold step
        dsimp only
        have hsize : (set mask terminal (some t)).size = 4 := rfl
        split <;> simp [hsize] <;> omega
  | map indices terminal table =>
    cases w with
    | nil => rfl
    | cons d w =>
      unfold step
      dsimp only
      have hsize : (map indices terminal table).size = 4 + table.length := rfl
      split
      · rfl
      · split
        · rfl
        · simp [hsize]
          omega

/-- The longest way on is a long branch. -/
theorem next_le (i : Instruction) (hi : i.Valid) (w : List Digit) :
    (i.step i.size w).next ≤ i.size + maxLongBranch := by
  have hbyte : ∀ b : UInt8, b.toNat ≤ maxLongBranch := by
    intro b
    have hb := b.toNat_lt
    show b.toNat ≤ 4095
    omega
  have hstay : ∀ n : Nat, n ≤ n + maxLongBranch := fun n => Nat.le_add_right n _
  cases i with
  | branch offset long =>
    have hoffset : offset ≤ maxLongBranch := by
      cases long with
      | false => exact Nat.le_trans hi (by decide)
      | true => exact hi
    unfold step
    dsimp only
    split
    · exact hstay _
    · exact Nat.add_le_add_left hoffset _
  | run count terminal =>
    unfold step
    dsimp only
    split <;> exact hstay _
  | single digit terminal => cases w <;> exact hstay _
  | set mask terminal table =>
    cases w with
    | nil => exact hstay _
    | cons d w =>
      cases table with
      | none => exact hstay _
      | some t =>
        have hfirst := hbyte t.1
        have hsecond := hbyte t.2
        unfold step
        dsimp only
        split
        · show 4 - 2 + 1 + t.1.toNat ≤ 4 + maxLongBranch
          omega
        · show 4 - 2 + 2 + t.2.toNat ≤ 4 + maxLongBranch
          omega
  | map indices terminal table =>
    cases w with
    | nil => exact hstay _
    | cons d w =>
      unfold step
      dsimp only
      split
      · exact hstay _
      · next k _ =>
        split
        · exact hstay _
        · next jump hjump =>
          obtain ⟨hlt, -⟩ := List.getElem?_eq_some_iff.mp hjump
          have hentry := hbyte jump
          show 4 + table.length - table.length + (k + 1) + jump.toNat ≤
            4 + table.length + maxLongBranch
          omega

end Instruction

/-! ## Runs -/

section

variable (program : List UInt8)

/-- An instruction that goes on leads to a later place, which is not far behind the program. -/
theorem next_of_stepChecked (place : Nat) (c : DigitCursor) (hc : c.Within) (i : Instruction)
    (s : Instruction.CheckedStep)
    (hd : Instruction.decodeChecked (program.drop place) = .ok (some i))
    (hstep : i.stepChecked (place + i.size) c = .ok s) (hs : s.status = .running) :
    place < s.next ∧ s.next ≤ program.length + maxLongBranch := by
  have hdecode : Instruction.decode (program.drop place) = some i := by
    rw [Instruction.decodeChecked_eq] at hd
    exact Except.ok.inj hd
  obtain ⟨hvalid, hinside⟩ := i.formed_of_decode _ hdecode
  obtain ⟨c', hsame, -⟩ := i.stepped (place + i.size) c hc hvalid (Nat.le_add_left ..)
  rw [i.step_add_place, hstep] at hsame
  obtain rfl := Except.ok.inj hsame
  have hlater := i.next_pos c.ahead hs
  have hnear := i.next_le hvalid c.ahead
  have hpos := length_pos_of_decode _ i hdecode
  rw [List.length_drop] at hinside hpos
  dsimp only
  omega

/-- From every place, a run with enough attempts does what it does without the checks. -/
theorem runChecked_eq (attempts : Nat) : ∀ (place : Nat) (c : DigitCursor), c.Within →
    program.length - place < attempts →
    ∃ c', runChecked program attempts place c =
        .ok ((runFor attempts (program.drop place) c.ahead).1, c') ∧
      c.MovesTo (runFor attempts (program.drop place) c.ahead).2 c' ∧
      (runFor attempts (program.drop place) c.ahead).1 ≠ .running := by
  induction attempts with
  | zero =>
    intro place c _ h
    exact absurd h (Nat.not_lt_zero _)
  | succ attempts ih =>
    intro place c hc hattempts
    rw [runChecked, runFor, Instruction.decodeChecked_eq, ok_bind]
    cases hd : Instruction.decode (program.drop place) with
    | none =>
      refine ⟨c, rfl, .refl hc, ?_⟩
      intro h
      cases h
    | some i =>
      have hvalid := i.valid_of_decode _ hd
      obtain ⟨c₁, hstep, hmoves⟩ :=
        i.stepped (place + i.size) c hc hvalid (Nat.le_add_left ..)
      rw [i.step_add_place] at hstep hmoves
      simp only [hstep, ok_bind]
      cases hs : (i.step i.size c.ahead).status with
      | terminal | invalid | truncated =>
        refine ⟨c₁, rfl, hmoves, ?_⟩
        intro h
        cases h
      | running =>
        have hpos := length_pos_of_decode _ i hd
        have hlater := i.next_pos c.ahead hs
        rw [List.length_drop] at hpos
        -- the place is inside the program, so that fewer bytes are left behind the next one
        obtain ⟨c₂, hrun, hmoves', hended⟩ :=
          ih (place + (i.step i.size c.ahead).next) c₁ hmoves.within (by omega)
        rw [hmoves.ahead, ← List.drop_drop] at hrun hmoves' hended
        exact ⟨c₂, hrun, hmoves.trans hmoves', hended⟩

end

/-- On any bytes, a run comes to an end after one attempt for each byte and one more, since an
instruction that goes on leads to a later place.  On the way it faults nowhere, and its cursor
passes the digits that are taken and stays inside the string. -/
theorem run_total (program : List UInt8) (c : DigitCursor) (hc : c.Within) :
    (∃ c', runChecked program (program.length + 1) 0 c = .ok ((run program c.ahead).1, c') ∧
      (run program c.ahead).1 ≠ .running ∧ c'.Within ∧ c'.digits = c.digits ∧
      c'.ahead = (run program c.ahead).2 ∧
      c'.position = c.position + taken program c.ahead) ∧
    ∀ place i c₁ s, c₁.Within →
      Instruction.decodeChecked (program.drop place) = .ok (some i) →
      i.stepChecked (place + i.size) c₁ = .ok s → s.status = .running →
      place < s.next ∧ s.next ≤ program.length + maxLongBranch := by
  obtain ⟨c', hrun, hmoves, hended⟩ := runChecked_eq program (program.length + 1) 0 c hc (by omega)
  rw [List.drop_zero] at hrun hmoves hended
  refine ⟨⟨c', hrun, hended, hmoves.within, hmoves.digits, hmoves.ahead, hmoves.position⟩, ?_⟩
  intro place i c₁ s hc₁ hd hstep hs
  exact next_of_stepChecked program place c₁ hc₁ i s hd hstep hs

/-- A set whose table leads into itself: its second entry is the next instruction, which takes 1. -/
def intoOwnTable : List UInt8 := [0x68, 0x02, 0x00, 0x21]

theorem run_total_intoOwnTable :
    (⟨#[7, 1, 1, 5], 1⟩ : DigitCursor).Within ∧
      (∃ c', runChecked intoOwnTable 5 0 ⟨#[7, 1, 1, 5], 1⟩ = .ok (.invalid, c') ∧
        c'.position = 3 ∧ c'.ahead = [5]) ∧
      ∀ s, (Instruction.set 2 false (some (0, 0x21))).stepChecked 4 ⟨#[7, 1, 1, 5], 1⟩ = .ok s →
        s.status = .running → 0 < s.next := by
  have hwithin : (⟨#[7, 1, 1, 5], 1⟩ : DigitCursor).Within := by
    show 1 ≤ 4
    decide
  obtain ⟨⟨c', hrun, -, -, -, hahead, hposition⟩, hstep⟩ := run_total intoOwnTable _ hwithin
  refine ⟨hwithin, ⟨c', hrun, hposition, hahead⟩, ?_⟩
  intro s hs hrunning
  have hdecode : Instruction.decodeChecked (intoOwnTable.drop 0) =
      .ok (some (.set 2 false (some (0, 0x21)))) := by rfl
  exact (hstep 0 _ _ s hwithin hdecode hs hrunning).1

end NumberPlan
