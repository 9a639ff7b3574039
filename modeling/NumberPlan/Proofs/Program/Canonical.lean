import NumberPlan.Proofs.Program.Instruction

/-!
# Writing what was read

The bytes of an instruction tell how many they are (`extent_of_decode`), and are those that it is
written as, but for one bit: the word of a set has a bit that says nothing, and is written with
that bit cleared.

    i.Valid → decodeSized (i.encode ++ rest) = some (i, i.encode.length)
    decodeSized bytes = some (i, n) → i.encode = i.withoutSpareBit (bytes.take n)
                                                                         (decodeSized_inverse)
-/

namespace NumberPlan

namespace Instruction

/-! ## The spare bit -/

/-- A 16-bit word with bit 10 cleared. -/
def clearSpareBit (word : Nat) : Nat := if word.testBit 10 then word - 0x400 else word

/-- The bytes of an instruction with the spare bit of a set's word cleared. -/
def withoutSpareBit (bytes : List UInt8) : Instruction → List UInt8
  | set .. => bigEndian (clearSpareBit (ofBigEndian (bytes.take 2))) 2 ++ bytes.drop 2
  | _ => bytes

/-! ## Words -/

/-- A first byte is made of its kind, its flag and its low bits. -/
theorem leadByte_of_fields (op : OpCode) (flag : Bool) (low : Nat) (b : UInt8)
    (hkind : b.toNat / 32 = op.tag) (hflag : (b.toNat / 16 % 2 == 1) = flag)
    (hlow : low % 16 = b.toNat % 16) : leadByte op flag low = b := by
  rw [← UInt8.toNat_inj, toNat_leadByte]
  cases flag with
  | false =>
    have hzero : ¬ b.toNat / 16 % 2 = 1 := mt beq_iff_eq.mpr (by rw [hflag]; decide)
    rw [show flagBit false 16 = 0 from rfl]
    omega
  | true =>
    have hone : b.toNat / 16 % 2 = 1 := beq_iff_eq.mp hflag
    rw [show flagBit true 16 = 16 from rfl]
    omega

/-- The word of a set is made of its fields, with the spare bit cleared. -/
theorem setWord_of_fields (b c : UInt8) (long : Bool) (hkind : b.toNat / 32 = 3)
    (hlong : b.toNat / 8 % 2 = if long then 1 else 0) :
    setWord (b.toNat % 4 * 256 + c.toNat) (b.toNat / 16 % 2 == 1) long
      = clearSpareBit (ofBigEndian [b, c]) := by
  have hc := c.toNat_lt
  have hword : ofBigEndian [b, c] = 256 * b.toNat + c.toNat := by
    show 256 * (256 * 0 + b.toNat) + c.toNat = _
    omega
  have hspare : (256 * b.toNat + c.toNat).testBit 10 = decide (b.toNat / 4 % 2 = 1) := by
    rw [Nat.testBit_eq_decide_div_mod_eq]
    exact decide_eq_decide.mpr (by omega)
  rw [clearSpareBit, hword, hspare]
  unfold setWord flagBit OpCode.tag
  simp only [beq_iff_eq, decide_eq_true_eq]
  cases long <;> simp only [Bool.false_eq_true, if_false, if_true] at hlong ⊢ <;>
    split <;> split <;> omega

/-- The word of a map is made of its fields. -/
theorem mapWord_of_fields (b c d e : UInt8) (terminal : Bool)
    (hkind : b.toNat / 32 = if terminal then 5 else 4) :
    mapWord (ofBigEndian [b, c, d, e] % fieldLimit) terminal = ofBigEndian [b, c, d, e] := by
  have hc := c.toNat_lt
  have hd := d.toNat_lt
  have he := e.toNat_lt
  have hword : ofBigEndian [b, c, d, e]
      = 256 * (256 * (256 * b.toNat + c.toNat) + d.toNat) + e.toNat := by
    show 256 * (256 * (256 * (256 * 0 + b.toNat) + c.toNat) + d.toNat) + e.toNat = _
    omega
  rw [hword]
  unfold mapWord OpCode.tag fieldLimit
  cases terminal <;> simp only [Bool.false_eq_true, if_false, if_true] at hkind ⊢ <;> omega

/-! ## What was read -/

/-- The bytes tell how many of them the instruction takes. -/
theorem extent_of_decode (bytes : List UInt8) (i : Instruction) (h : decode bytes = some i) :
    extent bytes = i.size := by
  unfold extent
  cases readFrom_of_decode bytes i h with
  | shortBranch b rest hkind hflag =>
    simp only [hkind, hflag]
    rfl
  | longBranch b c rest hkind hflag =>
    simp only [hkind, hflag]
    rfl
  | single b rest hkind | run b rest hkind =>
    simp only [hkind]
    rfl
  | shortSet b c rest hkind hlong =>
    simp only [hkind, hlong]
    rfl
  | longSet b c x y rest hkind hlong =>
    simp only [hkind, hlong]
    rfl
  | map b c d e terminal table rest hkind htable =>
    show _ = 4 + table.length
    cases terminal <;> simp only [hkind, htable] <;> rfl

theorem encode_of_decode (bytes : List UInt8) (i : Instruction) (h : decode bytes = some i) :
    i.encode = i.withoutSpareBit (bytes.take i.size) := by
  cases readFrom_of_decode bytes i h with
  | shortBranch b rest hkind hflag =>
    show [leadByte .branch false (b.toNat % 16)] = [b]
    rw [leadByte_of_fields .branch false _ b hkind (beq_false_of_ne (by omega)) (Nat.mod_mod _ _)]
  | longBranch b c rest hkind hflag =>
    have hc := c.toNat_lt
    have hlow : UInt8.ofNat (b.toNat % 16 * 256 + c.toNat) = c := by
      rw [← UInt8.toNat_inj, UInt8.toNat_ofNat']
      omega
    show [leadByte .branch true ((b.toNat % 16 * 256 + c.toNat) / 256), _] = [b, c]
    rw [leadByte_of_fields .branch true _ b hkind (beq_iff_eq.mpr hflag) (by omega), hlow]
  | single b rest hkind =>
    show [leadByte .single _ (b.toNat % 16)] = [b]
    rw [leadByte_of_fields .single _ _ b hkind rfl (Nat.mod_mod _ _)]
  | run b rest hkind =>
    show [leadByte .run _ (b.toNat % 16 + 1 + 15)] = [b]
    rw [leadByte_of_fields .run _ _ b hkind rfl (by omega)]
  | shortSet b c rest hkind hlong =>
    show bigEndian (setWord _ _ false) 2 = bigEndian (clearSpareBit (ofBigEndian [b, c])) 2 ++ []
    rw [setWord_of_fields b c false hkind hlong, List.append_nil]
  | longSet b c x y rest hkind hlong =>
    show bigEndian (setWord _ _ true) 2 ++ [x, y]
      = bigEndian (clearSpareBit (ofBigEndian [b, c])) 2 ++ [x, y]
    rw [setWord_of_fields b c true hkind hlong]
  | map b c d e terminal table rest hkind htable =>
    have hword := bigEndian_ofBigEndian [b, c, d, e]
    have htake : (b :: c :: d :: e :: (table ++ rest)).take (4 + table.length)
        = [b, c, d, e] ++ table := by
      rw [Nat.add_comm]
      simp
    show bigEndian (mapWord _ terminal) 4 ++ table
      = (b :: c :: d :: e :: (table ++ rest)).take (4 + table.length)
    rw [mapWord_of_fields b c d e terminal hkind, htake]
    exact congrArg (· ++ table) hword

/-- Reading and writing are inverse: the bytes of an instruction whose fields fit are read back,
whatever follows, and an instruction that was read has fields that fit, lies inside the bytes and
is written as the bytes that it was read from, but for the spare bit of a set. -/
theorem decodeSized_inverse :
    (∀ i : Instruction, i.Valid → ∀ rest,
      decodeSized (i.encode ++ rest) = some (i, i.encode.length)) ∧
    ∀ bytes i n, decodeSized bytes = some (i, n) →
      i.Valid ∧ n ≤ bytes.length ∧ i.encode = i.withoutSpareBit (bytes.take n) := by
  constructor
  · intro i hi rest
    have hread := decode_encode i hi rest
    rw [decodeSized, hread, Option.map_some, extent_of_decode _ i hread, length_encode]
  · intro bytes i n h
    obtain ⟨j, hread, hj⟩ := Option.map_eq_some_iff.mp h
    obtain ⟨rfl, rfl⟩ := Prod.mk.inj hj
    obtain ⟨hvalid, hsize⟩ := formed_of_decode bytes j hread
    rw [extent_of_decode bytes j hread]
    exact ⟨hvalid, hsize, encode_of_decode bytes j hread⟩

/-- A map that the input may end at, before a byte of another instruction; and a set with a table
whose word has the spare bit. -/
theorem decodeSized_inverse_spareBit :
    (map 5 true [7, 9]).Valid ∧
      decodeSized [0xA0, 0, 0, 5, 7, 9, 0x41] = some (map 5 true [7, 9], 6) ∧
      decodeSized [0x7D, 7, 2, 0, 0x41] = some (set 263 true (some (2, 0)), 4) ∧
      (set 263 true (some (2, 0))).encode = [0x79, 7, 2, 0] := by
  have hvalid : (map 5 true [7, 9]).Valid := ⟨by decide, by decide⟩
  have hread : decodeSized [0x7D, 7, 2, 0, 0x41] = some (set 263 true (some (2, 0)), 4) := by decide
  obtain ⟨hback, hagain⟩ := decodeSized_inverse
  obtain ⟨-, -, hwrite⟩ := hagain _ _ _ hread
  exact ⟨hvalid, hback _ hvalid [0x41], hread, hwrite.trans (by decide)⟩

end Instruction

end NumberPlan
