import NumberPlan.Program.Instruction
import NumberPlan.Proofs.Program.MapField
import NumberPlan.Proofs.Wire.BigEndian

/-!
# Decoding encoded instructions

    i.Valid → decode (i.encode ++ rest) = some i ∧ i.encode.length = i.size    (decode_encode)
    decode bytes = some i → i.Valid ∧ i.size ≤ bytes.length                    (formed_of_decode)
-/

namespace NumberPlan

namespace Instruction

/-! ## First bytes -/

theorem toNat_leadByte (op : OpCode) (flag : Bool) (low : Nat) :
    (leadByte op flag low).toNat = op.tag * 32 + flagBit flag 16 + low % 16 := by
  have htag : op.tag ≤ 5 := by cases op <;> decide
  have hflag : flagBit flag 16 ≤ 16 := by cases flag <;> decide
  rw [leadByte, UInt8.toNat_ofNat']
  omega

/-- What a first byte says: its kind, its flag and its low bits. -/
theorem leadByte_fields (op : OpCode) (flag : Bool) (low : Nat) :
    (leadByte op flag low).toNat / 32 = op.tag ∧
      ((leadByte op flag low).toNat / 16 % 2 == 1) = flag ∧
      (leadByte op flag low).toNat % 16 = low % 16 := by
  rw [toNat_leadByte]
  cases flag
  · rw [show flagBit false 16 = 0 from rfl]
    refine ⟨by omega, beq_false_of_ne (by omega), by omega⟩
  · rw [show flagBit true 16 = 16 from rfl]
    refine ⟨by omega, beq_iff_eq.mpr (by omega), by omega⟩

theorem decode_branch_short (offset : Nat) (h : offset ≤ 15) (rest : List UInt8) :
    decode (leadByte .branch false offset :: rest) = some (branch offset false) := by
  obtain ⟨htag, hflag, hlow⟩ := leadByte_fields .branch false offset
  unfold decode
  simp only [htag, hflag, hlow, OpCode.tag]
  rw [Nat.mod_eq_of_lt (by omega)]
  rfl

theorem decode_branch_long (offset : Nat) (h : offset ≤ 4095) (rest : List UInt8) :
    decode (leadByte .branch true (offset / 256) :: UInt8.ofNat offset :: rest)
      = some (branch offset true) := by
  obtain ⟨htag, hflag, hlow⟩ := leadByte_fields .branch true (offset / 256)
  have hoffset : offset / 256 % 16 * 256 + (UInt8.ofNat offset).toNat = offset := by
    rw [UInt8.toNat_ofNat']
    omega
  unfold decode
  simp only [htag, hflag, hlow, OpCode.tag, if_true, hoffset]

theorem decode_single (digit : Nat) (terminal : Bool) (h : digit ≤ 9) (rest : List UInt8) :
    decode (leadByte .single terminal digit :: rest) = some (single digit terminal) := by
  obtain ⟨htag, hflag, hlow⟩ := leadByte_fields .single terminal digit
  unfold decode
  simp only [htag, hflag, hlow, OpCode.tag]
  rw [Nat.mod_eq_of_lt (by omega), if_pos h]

theorem decode_run (count : Nat) (terminal : Bool) (h : 1 ≤ count ∧ count ≤ 16)
    (rest : List UInt8) :
    decode (leadByte .run terminal (count + 15) :: rest) = some (run count terminal) := by
  obtain ⟨htag, hflag, hlow⟩ := leadByte_fields .run terminal (count + 15)
  have hcount : (count + 15) % 16 + 1 = count := by omega
  unfold decode
  simp only [htag, hflag, hlow, OpCode.tag, hcount]

/-! ## Words -/

theorem bigEndian_two (n : Nat) : bigEndian n 2 = [UInt8.ofNat (n / 256), UInt8.ofNat n] := rfl

theorem bigEndian_four (n : Nat) :
    bigEndian n 4 = [UInt8.ofNat (n / 256 / 256 / 256), UInt8.ofNat (n / 256 / 256),
      UInt8.ofNat (n / 256), UInt8.ofNat n] := rfl

/-- What the word of a set says. -/
theorem setWord_fields (mask : Nat) (terminal long : Bool) (h : mask < 1024) :
    (UInt8.ofNat (setWord mask terminal long / 256)).toNat / 32 = 3 ∧
      ((UInt8.ofNat (setWord mask terminal long / 256)).toNat / 16 % 2 == 1) = terminal ∧
      ((UInt8.ofNat (setWord mask terminal long / 256)).toNat / 8 % 2 = 1 ↔ long = true) ∧
      (UInt8.ofNat (setWord mask terminal long / 256)).toNat % 4 * 256
        + (UInt8.ofNat (setWord mask terminal long)).toNat = mask := by
  rw [UInt8.toNat_ofNat', UInt8.toNat_ofNat']
  cases terminal <;> cases long <;>
    simp only [setWord, flagBit, OpCode.tag, beq_iff_eq, beq_eq_false_iff_ne, ne_eq, if_true,
      Bool.false_eq_true, if_false, iff_true, iff_false] <;> omega

theorem decode_set_short (mask : Nat) (terminal : Bool) (h : mask < 1024) (rest : List UInt8) :
    decode (bigEndian (setWord mask terminal false) 2 ++ rest) = some (set mask terminal none) := by
  obtain ⟨htag, hterminal, hlong, hmask⟩ := setWord_fields mask terminal false h
  rw [bigEndian_two]
  unfold decode
  simp only [List.cons_append, List.nil_append, htag, hterminal, decodeSet, hmask]
  rw [if_neg (by rw [hlong]; simp)]

theorem decode_set_long (mask : Nat) (terminal : Bool) (a b : UInt8) (h : mask < 1024)
    (rest : List UInt8) :
    decode (bigEndian (setWord mask terminal true) 2 ++ [a, b] ++ rest)
      = some (set mask terminal (some (a, b))) := by
  obtain ⟨htag, hterminal, hlong, hmask⟩ := setWord_fields mask terminal true h
  rw [bigEndian_two]
  unfold decode
  simp only [List.cons_append, List.nil_append, htag, hterminal, decodeSet, hmask]
  rw [if_pos (hlong.mpr rfl)]

/-- What the word of a map says. -/
theorem mapWord_fields (indices : Nat) (terminal : Bool) (h : indices < fieldLimit) :
    (UInt8.ofNat (mapWord indices terminal / 256 / 256 / 256)).toNat / 32
        = (if terminal then 5 else 4) ∧
      ofBigEndian (bigEndian (mapWord indices terminal) 4) % fieldLimit = indices := by
  rw [ofBigEndian_bigEndian, UInt8.toNat_ofNat']
  unfold fieldLimit at h
  cases terminal <;>
    simp only [mapWord, OpCode.tag, fieldLimit, if_true, Bool.false_eq_true, if_false] <;> omega

theorem decode_map (indices : Nat) (terminal : Bool) (table : List UInt8)
    (h : indices < fieldLimit) (htable : table.length = tableLength indices) (rest : List UInt8) :
    decode (bigEndian (mapWord indices terminal) 4 ++ table ++ rest)
      = some (map indices terminal table) := by
  obtain ⟨htag, hindices⟩ := mapWord_fields indices terminal h
  rw [bigEndian_four] at hindices ⊢
  have hmap : ∀ b c d e, ofBigEndian [b, c, d, e] % fieldLimit = indices →
      decodeMap b terminal (c :: d :: e :: (table ++ rest)) = some (map indices terminal table) := by
    intro b c d e hb
    unfold decodeMap
    simp only [hb]
    rw [← htable, List.take_left, if_pos rfl]
  unfold decode
  cases terminal
  · simp only [List.cons_append, List.nil_append, htag, Bool.false_eq_true, if_false]
    exact hmap _ _ _ _ hindices
  · simp only [List.cons_append, List.nil_append, htag, if_true]
    exact hmap _ _ _ _ hindices

/-! ## All instructions -/

theorem length_encode (i : Instruction) : i.encode.length = i.size := by
  cases i with
  | branch offset long => cases long <;> rfl
  | single digit terminal => rfl
  | run count terminal => rfl
  | set mask terminal table => cases table <;> rfl
  | map indices terminal table =>
    show (bigEndian _ 4 ++ table).length = 4 + table.length
    rw [List.length_append, length_bigEndian]

/-- The bytes of an instruction whose fields fit are read back, whatever follows. -/
theorem decode_encode (i : Instruction) (h : i.Valid) (rest : List UInt8) :
    decode (i.encode ++ rest) = some i := by
  cases i with
  | branch offset long =>
    cases long with
    | false => exact decode_branch_short offset h rest
    | true => exact decode_branch_long offset h rest
  | single digit terminal => exact decode_single digit terminal h rest
  | run count terminal => exact decode_run count terminal h rest
  | set mask terminal table =>
    cases table with
    | none => exact decode_set_short mask terminal h rest
    | some t => exact decode_set_long mask terminal t.1 t.2 h rest
  | map indices terminal table => exact decode_map indices terminal table h.1 h.2 rest

/-! ## What was read -/

/-- The bytes that an instruction is read from. -/
inductive ReadFrom : Instruction → List UInt8 → Prop
  | shortBranch (b : UInt8) (rest : List UInt8) (hkind : b.toNat / 32 = 0)
    (hflag : b.toNat / 16 % 2 = 0) : ReadFrom (branch (b.toNat % 16) false) (b :: rest)
  | longBranch (b c : UInt8) (rest : List UInt8) (hkind : b.toNat / 32 = 0)
    (hflag : b.toNat / 16 % 2 = 1) :
    ReadFrom (branch (b.toNat % 16 * 256 + c.toNat) true) (b :: c :: rest)
  | single (b : UInt8) (rest : List UInt8) (hkind : b.toNat / 32 = 1) (hdigit : b.toNat % 16 ≤ 9) :
    ReadFrom (single (b.toNat % 16) (b.toNat / 16 % 2 == 1)) (b :: rest)
  | run (b : UInt8) (rest : List UInt8) (hkind : b.toNat / 32 = 2) :
    ReadFrom (run (b.toNat % 16 + 1) (b.toNat / 16 % 2 == 1)) (b :: rest)
  | shortSet (b c : UInt8) (rest : List UInt8) (hkind : b.toNat / 32 = 3)
    (hlong : b.toNat / 8 % 2 = 0) :
    ReadFrom (set (b.toNat % 4 * 256 + c.toNat) (b.toNat / 16 % 2 == 1) none) (b :: c :: rest)
  | longSet (b c x y : UInt8) (rest : List UInt8) (hkind : b.toNat / 32 = 3)
    (hlong : b.toNat / 8 % 2 = 1) :
    ReadFrom (set (b.toNat % 4 * 256 + c.toNat) (b.toNat / 16 % 2 == 1) (some (x, y)))
      (b :: c :: x :: y :: rest)
  | map (b c d e : UInt8) (terminal : Bool) (table rest : List UInt8)
    (hkind : b.toNat / 32 = if terminal then 5 else 4)
    (htable : table.length = tableLength (ofBigEndian [b, c, d, e] % fieldLimit)) :
    ReadFrom (map (ofBigEndian [b, c, d, e] % fieldLimit) terminal table)
      (b :: c :: d :: e :: (table ++ rest))

theorem readFrom_of_decodeSet (b : UInt8) (hkind : b.toNat / 32 = 3) (rest : List UInt8)
    (i : Instruction) (h : decodeSet b (b.toNat / 16 % 2 == 1) rest = some i) :
    i.ReadFrom (b :: rest) := by
  unfold decodeSet at h
  split at h
  · cases h
  · next c rest =>
    dsimp only at h
    split at h
    · next hlong =>
      split at h
      · cases h
        exact ReadFrom.longSet b c _ _ _ hkind hlong
      · cases h
    · next hlong =>
      cases h
      exact ReadFrom.shortSet b c rest hkind (by omega)

theorem readFrom_of_decodeMap (b : UInt8) (terminal : Bool)
    (hkind : b.toNat / 32 = if terminal then 5 else 4) (rest : List UInt8) (i : Instruction)
    (h : decodeMap b terminal rest = some i) : i.ReadFrom (b :: rest) := by
  unfold decodeMap at h
  split at h
  · next c d e rest =>
    dsimp only at h
    split at h
    · next hlen =>
      cases h
      have hread := ReadFrom.map b c d e terminal _
        (rest.drop (tableLength (ofBigEndian [b, c, d, e] % fieldLimit))) hkind hlen
      rwa [List.take_append_drop] at hread
    · cases h
  · cases h

/-- The shapes of bytes that an instruction can be read from. -/
theorem readFrom_of_decode (bytes : List UInt8) (i : Instruction) (h : decode bytes = some i) :
    i.ReadFrom bytes := by
  cases bytes with
  | nil => cases h
  | cons b rest =>
    unfold decode at h
    dsimp only at h
    split at h
    · next hkind =>
      split at h
      · next hflag =>
        split at h
        · cases h
        · next c rest =>
          cases h
          exact ReadFrom.longBranch b c rest hkind (beq_iff_eq.mp hflag)
      · next hflag =>
        cases h
        have hflag := mt beq_iff_eq.mpr hflag
        exact ReadFrom.shortBranch b rest hkind (by omega)
    · next hkind =>
      split at h
      · next hdigit =>
        cases h
        exact ReadFrom.single b rest hkind hdigit
      · cases h
    · next hkind =>
      cases h
      exact ReadFrom.run b rest hkind
    · next hkind => exact readFrom_of_decodeSet b hkind rest i h
    · next hkind => exact readFrom_of_decodeMap b false hkind rest i h
    · next hkind => exact readFrom_of_decodeMap b true hkind rest i h
    · cases h

/-- The instruction has fields that fit, and takes at most `length` bytes. -/
structure Formed (i : Instruction) (length : Nat) : Prop where
  valid : i.Valid
  size_le : i.size ≤ length

/-- An instruction that was read has fields that fit, and lies inside the bytes. -/
theorem formed_of_decode (bytes : List UInt8) (i : Instruction) (h : decode bytes = some i) :
    i.Formed bytes.length := by
  cases readFrom_of_decode bytes i h with
  | shortBranch b rest =>
    have hlow : b.toNat % 16 ≤ 15 := by omega
    exact ⟨hlow, Nat.succ_pos rest.length⟩
  | longBranch b c rest =>
    have hc := c.toNat_lt
    have hoffset : b.toNat % 16 * 256 + c.toNat ≤ 4095 := by omega
    exact ⟨hoffset, Nat.le_add_left 2 rest.length⟩
  | single b rest hkind hdigit => exact ⟨hdigit, Nat.succ_pos rest.length⟩
  | run b rest =>
    have hlow : b.toNat % 16 ≤ 15 := by omega
    exact ⟨⟨Nat.succ_pos _, Nat.succ_le_succ hlow⟩, Nat.succ_pos rest.length⟩
  | shortSet b c rest =>
    have hc := c.toNat_lt
    have hmask : b.toNat % 4 * 256 + c.toNat < 1024 := by omega
    exact ⟨hmask, Nat.le_add_left 2 rest.length⟩
  | longSet b c x y rest =>
    have hc := c.toNat_lt
    have hmask : b.toNat % 4 * 256 + c.toNat < 1024 := by omega
    exact ⟨hmask, Nat.le_add_left 4 rest.length⟩
  | map b c d e terminal table rest hkind htable =>
    refine ⟨⟨Nat.mod_lt _ (by decide), htable⟩, ?_⟩
    show 4 + table.length ≤ (table ++ rest).length + 4
    rw [List.length_append]
    omega

theorem valid_of_decode (bytes : List UInt8) (i : Instruction) (h : decode bytes = some i) :
    i.Valid := (formed_of_decode bytes i h).valid

end Instruction

end NumberPlan
