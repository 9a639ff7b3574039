import Mathlib.Algebra.Ring.Nat
import NumberPlan.Wire.Message

/-!
# Reading messages back

    readVarint (writeVarint n ++ rest) = some (n, rest)      for n < 2 ^ 64     (readVarint_write)
    readFields shape missing (writeFields fs) = some fs                  (readFields_writeFields)

The fields are regular (`Field.Regular`): their numbers and payloads are in range, and those that
carry parts are the ones that `shape` says.  No length is longer than the whole message, so that
32 bits are enough for each where they are for the message.
-/

namespace NumberPlan

/-! ## Variable-length integers -/

theorem toNat_byte (n : Nat) (h : n < 256) : (UInt8.ofNat n).toNat = n :=
  UInt8.toNat_ofNat_of_lt' h

theorem writeVarint_of_lt (n : Nat) (h : n < 128) : writeVarint n = [UInt8.ofNat n] := by
  rw [writeVarint, if_pos h]

theorem writeVarint_of_le (n : Nat) (h : 128 ≤ n) :
    writeVarint n = UInt8.ofNat (n % 128 + 128) :: writeVarint (n / 128) := by
  rw [writeVarint, if_neg (Nat.not_lt.mpr h)]

theorem writeVarint_ne_nil (n : Nat) : writeVarint n ≠ [] := by
  by_cases h : n < 128
  · simp [writeVarint_of_lt n h]
  · simp [writeVarint_of_le n (by omega)]

/-- A number is read back where its bytes have room; the last of them holds seven bits or fewer. -/
theorem readVarintIn_write (top : Nat) (htop : top < 128) (rest : List UInt8) (room : Nat) :
    ∀ n, n < (top + 1) * 128 ^ room →
      readVarintIn top (room + 1) (writeVarint n ++ rest) = some (n, rest) := by
  induction room with
  | zero =>
    intro n hn
    have hsmall : n < 128 := by omega
    have hbyte : (UInt8.ofNat n).toNat = n := toNat_byte n (by omega)
    have hfits : ¬((0 : Nat) = 0 ∧ top < n) := by omega
    rw [writeVarint_of_lt n hsmall, List.singleton_append, readVarintIn, hbyte, if_pos hsmall,
      if_neg hfits]
  | succ room ih =>
    intro n hn
    by_cases hsmall : n < 128
    · have hbyte : (UInt8.ofNat n).toNat = n := toNat_byte n (by omega)
      have hfits : ¬(room + 1 = 0 ∧ top < n) := by omega
      rw [writeVarint_of_lt n hsmall, List.singleton_append, readVarintIn, hbyte, if_pos hsmall,
        if_neg hfits]
    · have hbyte : (UInt8.ofNat (n % 128 + 128)).toNat = n % 128 + 128 :=
        toNat_byte _ (by omega)
      have hquotient : n / 128 < (top + 1) * 128 ^ room := by
        apply Nat.div_lt_of_lt_mul
        rw [Nat.mul_left_comm, ← Nat.pow_succ']
        exact hn
      have hmore : ¬(n % 128 + 128 < 128) := by omega
      have hwhole : n % 128 + 128 - 128 + 128 * (n / 128) = n := by omega
      rw [writeVarint_of_le n (by omega), List.cons_append, readVarintIn, hbyte, if_neg hmore,
        ih (n / 128) hquotient, Option.map_some, hwhole]

theorem readVarint_write (n : Nat) (rest : List UInt8) (h : n < 2 ^ 64) :
    readVarint (writeVarint n ++ rest) = some (n, rest) :=
  readVarintIn_write 1 (by omega) rest 9 n (by omega)

theorem readVarint32_write (n : Nat) (rest : List UInt8) (h : n < 2 ^ 32) :
    readVarint32 (writeVarint n ++ rest) = some (n, rest) :=
  readVarintIn_write 15 (by omega) rest 4 n (by omega)

/-- An integer of 32 bits. -/
def IsInt32 (i : Int) : Prop := -0x80000000 ≤ i ∧ i < 0x80000000

instance (i : Int) : Decidable (IsInt32 i) := inferInstanceAs (Decidable (_ ∧ _))

theorem varintOfInt_lt (i : Int) : varintOfInt i < 2 ^ 64 := by
  unfold varintOfInt
  omega

theorem intOfVarint?_varintOfInt (i : Int) (h : IsInt32 i) :
    intOfVarint? (varintOfInt i) = some i := by
  obtain ⟨hlow, hhigh⟩ := h
  by_cases hneg : i < 0
  · have hbits : varintOfInt i = i + 0x10000000000000000 := by
      unfold varintOfInt
      omega
    have hsign : ¬varintOfInt i < 0x8000000000000000 := by omega
    have hback : (varintOfInt i : Int) - 0x10000000000000000 = i := by omega
    simp only [intOfVarint?, if_neg hsign, hback]
    exact if_pos ⟨hlow, hhigh⟩
  · have hbits : varintOfInt i = i := by
      unfold varintOfInt
      omega
    have hsign : varintOfInt i < 0x8000000000000000 := by omega
    simp only [intOfVarint?, if_pos hsign, hbits]
    exact if_pos ⟨hlow, hhigh⟩

/-! ## Bytes in a known number -/

theorem splitBytes?_append (a b : List UInt8) : splitBytes? a.length (a ++ b) = some (a, b) := by
  simp [splitBytes?]

theorem length_littleEndian (n k : Nat) : (littleEndian n k).length = k := by
  induction k generalizing n with
  | zero => rfl
  | succ k ih => rw [littleEndian, List.length_cons, ih]

theorem ofLittleEndian_littleEndian (n k : Nat) (h : n < 256 ^ k) :
    ofLittleEndian (littleEndian n k) = n := by
  induction k generalizing n with
  | zero =>
    show 0 = n
    omega
  | succ k ih =>
    have hrest : n / 256 < 256 ^ k := by
      apply Nat.div_lt_of_lt_mul
      rw [← Nat.pow_succ']
      exact h
    rw [littleEndian, ofLittleEndian, ih (n / 256) hrest, UInt8.toNat_ofNat']
    omega

/-! ## Fields -/

namespace Payload

/-- The low bits of the tag. -/
def wireKind : Payload → Nat
  | varint _ => 0
  | fixed64 _ => 1
  | bytes _ => 2
  | part .. => 2
  | fixed32 _ => 5

/-- What follows the tag. -/
def body : Payload → List UInt8
  | varint n => writeVarint n
  | fixed64 n => littleEndian n 8
  | bytes bs => writeVarint bs.length ++ bs
  | part bs missing => writeVarint (bs.length + missing) ++ bs
  | fixed32 n => littleEndian n 4

/-- The numbers are in range, and a part is whole. -/
def Regular (isPart : Bool) : Payload → Prop
  | varint n => n < 2 ^ 64
  | fixed64 n => n < 2 ^ 64
  | bytes _ => isPart = false
  | part _ missing => isPart = true ∧ missing = 0
  | fixed32 n => n < 2 ^ 32

theorem readPayload_body (p : Payload) (isPart : Bool) (missing : Nat) (rest : List UInt8)
    (hp : p.Regular isPart) (hlength : p.body.length < 2 ^ 32) :
    readPayload isPart p.wireKind missing (p.body ++ rest) = some (p, rest) := by
  cases p with
  | varint n =>
    simp only [wireKind, body, readPayload, readVarint_write n rest hp, Option.map_some]
  | fixed64 n =>
    have hsplit := splitBytes?_append (littleEndian n 8) rest
    rw [length_littleEndian] at hsplit
    simp only [wireKind, body, readPayload, hsplit, Option.map_some,
      ofLittleEndian_littleEndian n 8 hp]
  | bytes bs =>
    obtain rfl : isPart = false := hp
    have hbs : bs.length < 2 ^ 32 := by
      simp only [body, List.length_append] at hlength
      omega
    simp only [wireKind, body, readPayload, readBytes, List.append_assoc,
      readVarint32_write _ _ hbs, splitBytes?_append, Option.map_some, Bool.false_eq_true, if_false]
  | part bs lacking =>
    obtain ⟨rfl, rfl⟩ := hp
    have hbs : bs.length < 2 ^ 64 := by
      simp only [body, List.length_append] at hlength
      omega
    simp only [wireKind, body, readPayload, readPart, List.append_assoc, Nat.add_zero,
      readVarint_write _ _ hbs, if_true]
    simp
  | fixed32 n =>
    have hsplit := splitBytes?_append (littleEndian n 4) rest
    rw [length_littleEndian] at hsplit
    simp only [wireKind, body, readPayload, hsplit, Option.map_some,
      ofLittleEndian_littleEndian n 4 hp]

theorem wireKind_cases (p : Payload) :
    p.wireKind = 0 ∨ p.wireKind = 1 ∨ p.wireKind = 2 ∨ p.wireKind = 5 := by
  cases p <;> simp [wireKind]

end Payload

namespace Field

/-- The field can be read back in a message of this shape. -/
def Regular (shape : Shape) (f : Field) : Prop :=
  1 ≤ f.1 ∧ f.1 < 2 ^ 29 ∧ f.2.Regular (shape.isPart f.1)

end Field

theorem writeField_eq (f : Field) : writeField f = writeTag f.1 f.2.wireKind ++ f.2.body := by
  obtain ⟨k, p⟩ := f
  cases p with
  | bytes | part => exact List.append_assoc ..
  | varint | fixed64 | fixed32 => rfl

theorem length_body_le (f : Field) : f.2.body.length ≤ (writeField f).length := by
  rw [writeField_eq, List.length_append]
  omega

theorem writeField_ne_nil (f : Field) : writeField f ≠ [] := by
  intro h
  rw [writeField_eq] at h
  exact writeVarint_ne_nil _ (List.append_eq_nil_iff.mp h).1

section

variable {shape : Shape} {f : Field}

theorem readPiece_writeField (isPart : Nat → Bool) (hpart : isPart f.1 = shape.isPart f.1)
    (missing : Nat) (rest : List UInt8) (hf : f.Regular shape)
    (hlength : (writeField f).length < 2 ^ 32) :
    readPiece isPart missing (writeField f ++ rest) = some (.field f, rest) := by
  obtain ⟨hlow, hhigh, hpayload⟩ := hf
  have hkinds := f.2.wireKind_cases
  have hbody := length_body_le f
  have htag : 8 * f.1 + f.2.wireKind < 2 ^ 32 := by omega
  have hnumber : (8 * f.1 + f.2.wireKind) / 8 = f.1 := by omega
  have hkind : (8 * f.1 + f.2.wireKind) % 8 = f.2.wireKind := by omega
  have hread := f.2.readPayload_body (shape.isPart f.1) missing rest hpayload (by omega)
  rw [readPiece, writeField_eq, writeTag, List.append_assoc, readVarint32_write _ _ htag]
  dsimp only
  rw [if_pos (by omega), hnumber, hkind]
  -- the kinds of groups are not among those of payloads
  have htagged : readTagged isPart f.1 f.2.wireKind missing (f.2.body ++ rest) =
      (readPayload (isPart f.1) f.2.wireKind missing (f.2.body ++ rest)).map fun r =>
        (.field (f.1, r.1), r.2) := by
    unfold readTagged
    split
    · omega
    · omega
    · rfl
  rw [htagged, hpart, hread]
  rfl

end

/-! ## Messages -/

theorem writeFields_cons (f : Field) (fs : List Field) :
    writeFields (f :: fs) = writeField f ++ writeFields fs := List.flatMap_cons

theorem length_writeField_le (f : Field) (fs : List Field) (h : f ∈ fs) :
    (writeField f).length ≤ (writeFields fs).length := by
  obtain ⟨before, after, rfl⟩ := List.append_of_mem h
  simp only [writeFields, List.flatMap_append, List.flatMap_cons, List.length_append]
  omega

/-- A part is no longer than the message that it is in. -/
theorem length_part_le (k : Nat) (bs : List UInt8) (missing : Nat) (fs : List Field)
    (h : (k, .part bs missing) ∈ fs) : bs.length ≤ (writeFields fs).length := by
  have hfield := length_writeField_le _ fs h
  have hbody := length_body_le (k, .part bs missing)
  simp only [Payload.body, List.length_append] at hbody
  omega

theorem readFieldsFrom_writeFields (shape : Shape) (missing : Nat) (fs : List Field) :
    ∀ fuel, (∀ f ∈ fs, f.Regular shape) → (writeFields fs).length < 2 ^ 32 →
      (writeFields fs).length ≤ fuel →
      readFieldsFrom shape missing fuel 0 (writeFields fs) = some fs := by
  induction fs with
  | nil =>
    intro fuel _ _ _
    cases fuel <;> rfl
  | cons f fs ih =>
    intro fuel hregular hlength hfuel
    obtain ⟨hf, hfs⟩ := List.forall_mem_cons.mp hregular
    rw [writeFields_cons, List.length_append] at hlength hfuel
    have hread := readPiece_writeField (fun k => (0 == 0) && shape.isPart k) rfl missing
      (writeFields fs) hf (by omega)
    -- each field has a byte for its tag, so the fuel lasts
    obtain ⟨b, bytes, hbytes⟩ := List.exists_cons_of_ne_nil (writeField_ne_nil f)
    rw [hbytes, List.length_cons] at hlength hfuel
    rw [hbytes, List.cons_append] at hread
    rw [writeFields_cons, hbytes, List.cons_append]
    cases fuel with
    | zero => omega
    | succ fuel =>
      rw [readFieldsFrom, hread]
      dsimp only
      rw [if_pos rfl, ih fuel hfs (by omega) (by omega)]
      rfl

/-- A message is read back. -/
theorem readFields_writeFields (shape : Shape) (missing : Nat) (fs : List Field)
    (hregular : ∀ f ∈ fs, f.Regular shape) (hlength : (writeFields fs).length < 2 ^ 32) :
    readFields shape missing (writeFields fs) = some fs :=
  readFieldsFrom_writeFields shape missing fs _ hregular hlength (Nat.le_refl _)

end NumberPlan
