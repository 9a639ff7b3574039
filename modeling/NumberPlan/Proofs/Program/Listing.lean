import NumberPlan.Program.Listing
import NumberPlan.Proofs.Program.Emission

/-!
# Listings of programs

The instructions of a listing stand one after the other (`Spans`), so their sizes add up to where
reading stopped.  The listing of emitted code has an instruction for each item with bytes
(`listed`), and reaches its end.

    Spans p 0 (disassemble p).1 (disassemble p).2                       (spans_disassemble)
    Laid items → disassemble (bytesOf items) = (listed 0 items, codeSize items)
                                                                     (disassemble_bytesOf)
-/

namespace NumberPlan

theorem Instruction.size_pos (i : Instruction) : 0 < i.size := by
  rw [← i.length_encode]
  cases i with
  | branch offset long => cases long <;> exact Nat.succ_pos _
  | single digit terminal => exact Nat.succ_pos _
  | run count terminal => exact Nat.succ_pos _
  | set mask terminal table => cases table <;> exact Nat.succ_pos _
  | map indices terminal table => exact Nat.succ_pos _

/-! ## Any bytes -/

/-- Instructions of a program that stand one after the other, from one place to another. -/
inductive Spans (program : List UInt8) : Nat → List (Nat × Instruction) → Nat → Prop
  | nil (place : Nat) : Spans program place [] place
  | cons (place : Nat) (i : Instruction) (hd : Instruction.decode (program.drop place) = some i)
      (es : List (Nat × Instruction)) (stop : Nat) (h : Spans program (place + i.size) es stop) :
      Spans program place ((place, i) :: es) stop

theorem spans_disassembleFrom (program : List UInt8) (fuel : Nat) : ∀ place,
    Spans program place (disassembleFrom fuel place (program.drop place)).1
      (disassembleFrom fuel place (program.drop place)).2 := by
  induction fuel with
  | zero => exact Spans.nil
  | succ fuel ih =>
    intro place
    rw [disassembleFrom]
    cases hd : Instruction.decode (program.drop place) with
    | none => exact Spans.nil place
    | some i =>
      dsimp only
      rw [List.drop_drop]
      exact Spans.cons place i hd _ _ (ih (place + i.size))

theorem spans_disassemble (program : List UInt8) :
    Spans program 0 (disassemble program).1 (disassemble program).2 :=
  spans_disassembleFrom program program.length 0

/-- The sizes add up to the distance. -/
theorem Spans.sum_sizes {program : List UInt8} {place stop : Nat} {es : List (Nat × Instruction)}
    (h : Spans program place es stop) : place + (es.map fun e => e.2.size).sum = stop := by
  induction h with
  | nil place => rfl
  | cons place i hd es stop h ih => rw [List.map_cons, List.sum_cons, ← Nat.add_assoc, ih]

theorem Spans.decode_of_mem {program : List UInt8} {place stop : Nat}
    {es : List (Nat × Instruction)} (h : Spans program place es stop) :
    ∀ e ∈ es, Instruction.decode (program.drop e.1) = some e.2 := by
  induction h with
  | nil place =>
    intro e he
    cases he
  | cons place i hd es stop h ih =>
    intro e he
    rcases List.mem_cons.mp he with rfl | he
    · exact hd
    · exact ih e he

/-! ## Emitted code -/

/-- The instruction that an item is emitted as before others, if it has bytes. -/
def CodeItem.instruction? (following : List CodeItem) : CodeItem → Option Instruction
  | label _ => none
  | plain i => some i
  | dispatch head n => some (dispatched head n following)
  | jump _ 0 => none
  | jump t n => some (.branch (gapTo t following) (n == 2))

/-- The instructions of code that stands at a place. -/
def listed (place : Nat) : List CodeItem → List (Nat × Instruction)
  | [] => []
  | i :: items =>
    match i.instruction? items with
    | none => listed place items
    | some j => (place, j) :: listed (place + i.size) items

section

variable (i : CodeItem) (items : List CodeItem)

theorem bytes_of_none (hi : i.instruction? items = none) : i.bytes items = [] := by
  cases i with
  | label s => rfl
  | plain i => cases hi
  | dispatch head n => cases hi
  | jump t n =>
    cases n with
    | zero => rfl
    | succ n =>
      rw [CodeItem.instruction?] at hi
      · cases hi
      · omega

theorem bytes_of_some (j : Instruction) (hi : i.instruction? items = some j) :
    i.bytes items = j.encode := by
  cases i with
  | label s => cases hi
  | plain i =>
    obtain rfl := Option.some.inj hi
    rfl
  | dispatch head n =>
    obtain rfl := Option.some.inj hi
    rfl
  | jump t n =>
    cases n with
    | zero => cases hi
    | succ n =>
      rw [CodeItem.instruction?.eq_5 _ _ _ (by omega)] at hi
      obtain rfl := Option.some.inj hi
      exact CodeItem.bytes.eq_5 _ _ _ (by omega)

variable (h : Laid (i :: items))

include h

theorem size_of_none (hi : i.instruction? items = none) : i.size = 0 := by
  rw [← length_bytes i items h, bytes_of_none i items hi]
  rfl

theorem size_of_some (j : Instruction) (hi : i.instruction? items = some j) : i.size = j.size := by
  rw [← length_bytes i items h, bytes_of_some i items j hi, j.length_encode]

/-- An item's instruction is read back. -/
theorem decode_of_some (j : Instruction) (hi : i.instruction? items = some j) :
    Instruction.decode (bytesOf (i :: items)) = some j := by
  cases i with
  | label s => cases hi
  | plain i =>
    obtain rfl := Option.some.inj hi
    exact decode_plain i items h
  | dispatch head n =>
    obtain rfl := Option.some.inj hi
    exact decode_dispatch head n items h
  | jump t n =>
    cases n with
    | zero => cases hi
    | succ n =>
      rw [bytesOf, bytes_of_some _ items j hi]
      rw [CodeItem.instruction?.eq_5 _ _ _ (by omega)] at hi
      obtain rfl := Option.some.inj hi
      exact Instruction.decode_encode _ (branch_valid t n items h).2 _

end

theorem length_bytesOf (items : List CodeItem) (h : Laid items) :
    (bytesOf items).length = codeSize items := by
  induction items with
  | nil => rfl
  | cons i items ih =>
    rw [bytesOf, List.length_append, length_bytes i items h, ih h.tail, codeSize_cons]

theorem disassembleFrom_bytesOf (items : List CodeItem) (h : Laid items) : ∀ fuel place,
    codeSize items ≤ fuel → disassembleFrom fuel place (bytesOf items) =
      (listed place items, place + codeSize items) := by
  induction items with
  | nil =>
    intro fuel place _
    cases fuel <;> rfl
  | cons i items ih =>
    intro fuel place hfuel
    rw [codeSize_cons] at hfuel
    rw [listed, codeSize_cons]
    cases hi : i.instruction? items with
    | none =>
      rw [size_of_none i items h hi, Nat.zero_add] at hfuel
      rw [bytesOf, bytes_of_none i items hi, size_of_none i items h hi, List.nil_append,
        Nat.zero_add]
      exact ih h.tail fuel place hfuel
    | some j =>
      have hsize := size_of_some i items h j hi
      have hpos := j.size_pos
      obtain ⟨fuel, rfl⟩ : ∃ k, fuel = k + 1 := ⟨fuel - 1, by omega⟩
      have hdrop : (bytesOf (i :: items)).drop j.size = bytesOf items := by
        rw [bytesOf, bytes_of_some i items j hi, ← j.length_encode, List.drop_left]
      rw [disassembleFrom, decode_of_some i items h j hi]
      dsimp only
      rw [hdrop, ih h.tail fuel _ (by omega), hsize, Nat.add_assoc]

/-- The listing of emitted code reaches its end. -/
theorem disassemble_bytesOf (items : List CodeItem) (h : Laid items) :
    disassemble (bytesOf items) = (listed 0 items, codeSize items) := by
  have hlist := disassembleFrom_bytesOf items h (bytesOf items).length 0
    (Nat.le_of_eq (length_bytesOf items h).symm)
  rwa [Nat.zero_add] at hlist

/-- The end of some code is listed as it stands after the rest. -/
theorem mem_listed_append (as bs : List CodeItem) (h : Laid (as ++ bs))
    (e : Nat × Instruction) : ∀ place, e ∈ listed (place + codeSize as) bs →
      e ∈ listed place (as ++ bs) := by
  induction as with
  | nil => exact fun place he => he
  | cons i as ih =>
    intro place he
    rw [codeSize_cons, ← Nat.add_assoc] at he
    have hmem := ih h.tail _ he
    rw [List.cons_append, listed]
    cases hi : i.instruction? (as ++ bs) with
    | none =>
      rw [size_of_none i _ h hi] at hmem
      exact hmem
    | some j => exact List.mem_cons_of_mem _ hmem

end NumberPlan
