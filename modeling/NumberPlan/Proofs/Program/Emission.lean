import Mathlib.Algebra.Order.BigOperators.Group.List
import Mathlib.Algebra.Order.Ring.Nat
import NumberPlan.Proofs.Program.Execution
import NumberPlan.Proofs.Program.Instruction
import NumberPlan.Proofs.Program.Sizing

/-!
# Running code items

Emitted code is the bytes of its items, where a jump says the distance to its label
(`emit_eq_bytesOf`).  A run that stands before an item goes on before another one:

    before a jump         where its label stands            (verdict_jump)
    before a dispatch     before the jump of its entry      (verdict_set, verdict_map)
    before a plain item   before the next one               (verdict_plain)
-/

namespace NumberPlan

/-! ## Bytes -/

/-- The bytes of an item with others following, by the distances between items. -/
def CodeItem.bytes (following : List CodeItem) : CodeItem → List UInt8
  | label _ => []
  | plain i => i.encode
  | dispatch head n => (head.withTable (jumpTable 0 ((following.take n).map CodeItem.size))).encode
  | jump _ 0 => []
  | jump t n => (Instruction.branch (gapTo t following) (n == 2)).encode

def bytesOf : List CodeItem → List UInt8
  | [] => []
  | i :: items => i.bytes items ++ bytesOf items

theorem emitFrom_eq_bytesOf (after : List CodeItem) : ∀ before : List CodeItem,
    (labelsOf (before ++ after)).Nodup → JumpsForward after →
      emitFrom (labelPlaces 0 (before ++ after)) (codeSize before) after = bytesOf after := by
  induction after with
  | nil => exact fun _ _ _ => rfl
  | cons i after ih =>
    intro before hnd hf
    have hsplit : before ++ i :: after = (before ++ [i]) ++ after := by simp
    have hsize : codeSize before + i.size = codeSize (before ++ [i]) := by
      rw [codeSize_append]
      simp [codeSize]
    have hitem : emitItem (labelPlaces 0 (before ++ i :: after)) (codeSize before) after i
        = i.bytes after := by
      cases i with
      | label s => rfl
      | plain i => rfl
      | dispatch d n => rfl
      | jump t n =>
        cases n with
        | zero => rfl
        | succ n =>
          rw [emitItem.eq_5 _ _ _ _ _ (by omega), distanceTo_eq t _ before after hnd hf.1,
            Nat.add_sub_cancel_left, CodeItem.bytes.eq_5 _ _ _ (by omega)]
    rw [emitFrom, bytesOf, hitem, hsize, hsplit, ih _ (hsplit ▸ hnd) hf.tail]

theorem emit_eq_bytesOf (items : List CodeItem) (hnd : (labelsOf items).Nodup)
    (hf : JumpsForward items) : emit items = bytesOf items :=
  emitFrom_eq_bytesOf items [] hnd hf

/-! ## Well-formed code -/

/-- The fields of a dispatch with so many table entries fit. -/
def Dispatch.Fits (entries : Nat) : Dispatch → Prop
  | set mask _ => mask < 1024 ∧ entries = 2
  | map indices _ => indices < fieldLimit ∧ tableLength indices = entries ∧ entries ≤ 10

/-- The item's fields fit, and there is a jump for every table entry. -/
def CodeItem.Formed (following : List CodeItem) : CodeItem → Prop
  | plain i => i.Valid
  | dispatch head n =>
    head.Fits n ∧ n ≤ following.length ∧ ∀ i ∈ following.take n, ∃ t k, i = .jump t k
  | _ => True

def Formed : List CodeItem → Prop
  | [] => True
  | i :: items => i.Formed items ∧ Formed items

/-- Code that can be emitted: jumps lead forward and have the sizes they need. -/
structure Laid (items : List CodeItem) : Prop where
  formed : Formed items
  forward : JumpsForward items
  fit : JumpsFit items

theorem JumpsFit.tail (i : CodeItem) (items : List CodeItem) (h : JumpsFit (i :: items)) :
    JumpsFit items := by
  cases i with
  | label s => exact h
  | plain i => exact h
  | dispatch d n => exact h
  | jump t n => exact h.2

theorem Laid.tail (i : CodeItem) (items : List CodeItem) (h : Laid (i :: items)) : Laid items :=
  ⟨h.formed.2, h.forward.tail, h.fit.tail⟩

theorem Laid.of_append (as bs : List CodeItem) (h : Laid (as ++ bs)) : Laid bs := by
  induction as with
  | nil => exact h
  | cons i as ih => exact ih h.tail

theorem jump_size_le (items : List CodeItem) (h : JumpsFit items) (t n : Nat)
    (hmem : .jump t n ∈ items) : n ≤ 2 := by
  induction items with
  | nil => cases hmem
  | cons i items ih =>
    rcases List.mem_cons.mp hmem with rfl | hmem
    · rw [h.1.2]
      exact needOf_le _
    · exact ih h.tail hmem

/-- Sizing jumps leaves code well formed. -/
theorem formed_unsized (items : List CodeItem) :
    Formed (items.map CodeItem.unsized) ↔ Formed items := by
  induction items with
  | nil => exact Iff.rfl
  | cons i items ih =>
    refine and_congr ?_ ih
    cases i with
    | label s => exact Iff.rfl
    | plain i => exact Iff.rfl
    | jump t n => exact Iff.rfl
    | dispatch d n =>
      refine and_congr Iff.rfl (and_congr (by rw [List.length_map]) ?_)
      rw [← List.map_take]
      constructor
      · intro h i hi
        obtain ⟨t, k, hj⟩ := h _ (List.mem_map_of_mem hi)
        cases i <;> cases hj
        exact ⟨t, _, rfl⟩
      · intro h i hi
        obtain ⟨j, hj, rfl⟩ := List.mem_map.mp hi
        obtain ⟨t, k, rfl⟩ := h j hj
        exact ⟨t, 0, rfl⟩

/-! ## Places -/

theorem length_jumpTable (sizes : List Nat) : ∀ p, (jumpTable p sizes).length = sizes.length := by
  induction sizes with
  | nil => exact fun _ => rfl
  | cons n sizes ih => exact fun p => congrArg Nat.succ (ih _)

theorem getElem?_jumpTable (sizes : List Nat) : ∀ p k, k < sizes.length →
    (jumpTable p sizes)[k]?
      = some (UInt8.ofNat (sizes.length - (k + 1) + (p + (sizes.take k).sum))) := by
  induction sizes with
  | nil => exact fun _ k h => absurd h (Nat.not_lt_zero k)
  | cons n sizes ih =>
    intro p k h
    cases k with
    | zero => simp [jumpTable]
    | succ k =>
      rw [jumpTable, List.getElem?_cons_succ, ih _ k (by simpa using h), List.take_succ_cons,
        List.sum_cons, List.length_cons, Nat.add_assoc, Nat.add_sub_add_right]

theorem length_bytes (i : CodeItem) (items : List CodeItem) (h : Laid (i :: items)) :
    (i.bytes items).length = i.size := by
  cases i with
  | label s => rfl
  | plain i => exact i.length_encode
  | dispatch d n =>
    obtain ⟨hfits, hlen, -⟩ := h.formed.1
    rw [CodeItem.bytes, Instruction.length_encode]
    cases d with
    | set mask terminal =>
      rw [CodeItem.size, hfits.2]
      rfl
    | map indices terminal =>
      show 4 + (jumpTable _ _).length = 4 + n
      rw [length_jumpTable, List.length_map, List.length_take_of_le hlen]
  | jump t n =>
    have hle := jump_size_le _ h.fit t n (List.mem_cons_self ..)
    match n, hle with
    | 0, _ => rfl
    | 1, _ => rfl
    | 2, _ => rfl

/-- The code after some items starts where they end. -/
theorem drop_bytesOf (as bs : List CodeItem) (h : Laid (as ++ bs)) :
    (bytesOf (as ++ bs)).drop (codeSize as) = bytesOf bs := by
  induction as with
  | nil => rfl
  | cons i as ih =>
    have hlen := length_bytes i (as ++ bs) h
    rw [List.cons_append, bytesOf, codeSize_cons, ← hlen, List.drop_append,
      List.drop_eq_nil_of_le (Nat.le_add_right _ _), Nat.add_sub_cancel_left, List.nil_append]
    exact ih h.tail

/-- The items after the label of `t`. -/
def afterLabel (t : Nat) : List CodeItem → List CodeItem
  | [] => []
  | i :: items => if i = .label t then items else afterLabel t items

theorem afterLabel_split (t : Nat) (items : List CodeItem) (h : .label t ∈ items) :
    ∃ as, items = as ++ .label t :: afterLabel t items ∧ codeSize as = gapTo t items := by
  induction items with
  | nil => cases h
  | cons i items ih =>
    rw [afterLabel, gapTo]
    by_cases hi : i = .label t
    · rw [if_pos hi, if_pos hi, hi]
      exact ⟨[], rfl, rfl⟩
    · obtain ⟨as, has, hsize⟩ := ih ((List.mem_cons.mp h).resolve_left fun h => hi h.symm)
      rw [if_neg hi, if_neg hi]
      refine ⟨i :: as, ?_, ?_⟩
      · rw [List.cons_append, ← has]
      · rw [codeSize_cons, hsize]

theorem drop_gapTo (t : Nat) (items : List CodeItem) (hl : Laid items) (h : .label t ∈ items) :
    (bytesOf items).drop (gapTo t items) = bytesOf (afterLabel t items) := by
  obtain ⟨as, has, hsize⟩ := afterLabel_split t items h
  rw [← hsize]
  generalize hb : afterLabel t items = b at has ⊢
  subst has
  exact drop_bytesOf as (.label t :: b) hl

/-! ## Runs -/

/-- A jump without bytes leads to what follows it. -/
theorem gapTo_eq_zero (t : Nat) (items : List CodeItem) (h : Laid (.jump t 0 :: items)) :
    gapTo t items = 0 := by
  obtain ⟨⟨-, hneed⟩, -⟩ := h.fit
  unfold needOf at hneed
  split at hneed
  · assumption
  · split at hneed <;> cases hneed

/-- The offset of a jump with bytes fits them. -/
theorem branch_valid (t n : Nat) (items : List CodeItem) (h : Laid (.jump t (n + 1) :: items)) :
    gapTo t items ≠ 0 ∧ (Instruction.branch (gapTo t items) (n + 1 == 2)).Valid := by
  obtain ⟨⟨hmax, hneed⟩, -⟩ := h.fit
  have hpos : gapTo t items ≠ 0 := by
    intro hzero
    rw [hzero] at hneed
    cases hneed
  refine ⟨hpos, ?_⟩
  unfold needOf at hneed
  rw [if_neg hpos] at hneed
  split at hneed
  · next hshort =>
    cases hneed
    exact hshort
  · cases hneed
    exact hmax

/-- A jump goes to its label. -/
theorem verdict_jump (t n : Nat) (items : List CodeItem) (w : List Digit)
    (h : Laid (.jump t n :: items)) :
    verdict (bytesOf (.jump t n :: items)) w = verdict (bytesOf (afterLabel t items)) w := by
  have hdrop := drop_gapTo t items h.tail h.forward.1
  cases n with
  | zero =>
    rw [gapTo_eq_zero t items h, List.drop_zero] at hdrop
    rw [← hdrop]
    rfl
  | succ n =>
    obtain ⟨hpos, hvalid⟩ := branch_valid t n items h
    have hbytes : (CodeItem.jump t (n + 1)).bytes items
        = (Instruction.branch (gapTo t items) (n + 1 == 2)).encode :=
      CodeItem.bytes.eq_5 _ _ _ (by omega)
    have hstep : (Instruction.branch (gapTo t items) (n + 1 == 2)).step
        (Instruction.branch (gapTo t items) (n + 1 == 2)).size w
        = ⟨.running, (Instruction.branch (gapTo t items) (n + 1 == 2)).size + gapTo t items, w⟩ := by
      rw [Instruction.step, if_neg hpos]
    rw [bytesOf, hbytes, verdict_of_running _ w _ (Instruction.decode_encode _ hvalid _)
      (by rw [hstep]), hstep]
    dsimp only
    rw [← Instruction.length_encode, List.drop_append,
      List.drop_eq_nil_of_le (Nat.le_add_right _ _), Nat.add_sub_cancel_left, List.nil_append,
      hdrop]

theorem decode_plain (i : Instruction) (items : List CodeItem) (h : Laid (.plain i :: items)) :
    Instruction.decode (bytesOf (.plain i :: items)) = some i :=
  Instruction.decode_encode i h.formed.1 _

/-- An instruction that goes on leaves the code after it. -/
theorem verdict_plain (i : Instruction) (items : List CodeItem) (w rest : List Digit)
    (h : Laid (.plain i :: items)) (hstep : i.step i.size w = ⟨.running, i.size, rest⟩) :
    verdict (bytesOf (.plain i :: items)) w = verdict (bytesOf items) rest := by
  rw [verdict_of_running _ w i (decode_plain i items h) (by rw [hstep]), hstep]
  dsimp only
  rw [bytesOf, CodeItem.bytes, ← i.length_encode, List.drop_left]

/-- A branch that goes nowhere ends the program. -/
theorem verdict_stop (items : List CodeItem) (w : List Digit)
    (h : Laid (.plain (.branch 0 false) :: items)) :
    verdict (bytesOf (.plain (.branch 0 false) :: items)) w
      = if w = [] then .matched else .tooLong := by
  rw [verdict, run_of_halting _ w _ (decode_plain _ items h) (by exact nofun)]
  cases w <;> rfl

theorem verdict_single (d : Digit) (terminal : Bool) (items : List CodeItem) (e : Digit)
    (w : List Digit) (h : Laid (.plain (.single d.val terminal) :: items)) :
    verdict (bytesOf (.plain (.single d.val terminal) :: items)) (e :: w)
      = if e = d then verdict (bytesOf items) w else .invalid := by
  by_cases he : e = d
  · rw [if_pos he]
    exact verdict_plain _ items (e :: w) w h (by rw [he, Instruction.step, if_pos rfl])
  · rw [if_neg he]
    refine verdict_of_invalid _ _ _ (decode_plain _ items h) ?_
    rw [Instruction.step, if_neg fun hv => he (Fin.ext hv)]

theorem verdict_run (count : Nat) (terminal : Bool) (items : List CodeItem) (w : List Digit)
    (h : Laid (.plain (.run count terminal) :: items)) :
    verdict (bytesOf (.plain (.run count terminal) :: items)) w
      = if count ≤ w.length then verdict (bytesOf items) (w.drop count)
        else if terminal then .matched else .tooShort := by
  by_cases hc : count ≤ w.length
  · rw [if_pos hc]
    exact verdict_plain _ items w _ h (by rw [Instruction.step, if_pos hc])
  · rw [if_neg hc]
    refine verdict_of_exhausted _ w _ terminal (decode_plain _ items h) ?_ ?_ <;>
      rw [Instruction.step, if_neg hc]

theorem verdict_member (mask : Nat) (terminal : Bool) (items : List CodeItem) (d : Digit)
    (w : List Digit) (h : Laid (.plain (.set mask terminal none) :: items)) :
    verdict (bytesOf (.plain (.set mask terminal none) :: items)) (d :: w)
      = if mask.testBit d.val then verdict (bytesOf items) w else .invalid := by
  cases hd : mask.testBit d.val with
  | true =>
    rw [if_pos rfl]
    exact verdict_plain _ items (d :: w) w h (by rw [Instruction.step, hd, if_pos rfl])
  | false =>
    rw [if_neg (by decide)]
    refine verdict_of_invalid _ _ _ (decode_plain _ items h) ?_
    rw [Instruction.step, hd, if_neg (by decide)]

/-- An instruction that takes one digit, where the input has ended. -/
theorem verdict_plain_nil (i : Instruction) (terminal : Bool) (items : List CodeItem)
    (h : Laid (.plain i :: items))
    (hi : (∃ d, i = .single d terminal) ∨ ∃ mask, i = .set mask terminal none) :
    verdict (bytesOf (.plain i :: items)) [] = if terminal then .matched else .tooShort := by
  refine verdict_of_exhausted _ _ _ terminal (decode_plain i items h) ?_ ?_
  · rcases hi with ⟨d, rfl⟩ | ⟨mask, rfl⟩ <;> rfl
  · rcases hi with ⟨d, rfl⟩ | ⟨mask, rfl⟩ <;> rfl

section

variable (head : Dispatch) (n : Nat) (items : List CodeItem) (h : Laid (.dispatch head n :: items))

/-- The instruction that a dispatch is emitted as. -/
def dispatched : Instruction :=
  head.withTable (jumpTable 0 ((items.take n).map CodeItem.size))

include h

theorem decode_dispatch :
    Instruction.decode (bytesOf (.dispatch head n :: items)) = some (dispatched head n items) := by
  obtain ⟨hfits, hlen, -⟩ := h.formed.1
  refine Instruction.decode_encode _ ?_ _
  cases head with
  | set mask terminal => exact hfits.1
  | map indices terminal =>
    refine ⟨hfits.1, ?_⟩
    rw [length_jumpTable, List.length_map, List.length_take_of_le hlen, hfits.2.1]

theorem entries_le : n ≤ 10 := by
  have hfits := h.formed.1.1
  cases head with
  | set mask terminal => rw [hfits.2]; omega
  | map indices terminal => exact hfits.2.2

/-- The sizes before an entry's jump are small enough for a byte. -/
theorem sum_sizes_le (k : Nat) : (((items.take n).map CodeItem.size).take k).sum ≤ 2 * n := by
  obtain ⟨-, hlen, hjumps⟩ := h.formed.1
  have hall : ∀ m ∈ ((items.take n).map CodeItem.size).take k, m ≤ 2 := by
    intro m hm
    obtain ⟨i, hi, rfl⟩ := List.mem_map.mp (List.mem_of_mem_take hm)
    obtain ⟨t, j, rfl⟩ := hjumps i hi
    exact jump_size_le items h.fit.tail t j (List.mem_of_mem_take hi)
  have hsum := List.sum_le_card_nsmul _ 2 hall
  have hlen' : (((items.take n).map CodeItem.size).take k).length ≤ n := by
    rw [List.length_take, List.length_map, List.length_take]
    omega
  rw [Nat.nsmul_eq_mul] at hsum
  omega

/-- Entry `k` counts the bytes from after it to its jump. -/
theorem entry_eq (k : Nat) (hk : k < n) :
    ∃ b, (jumpTable 0 ((items.take n).map CodeItem.size))[k]? = some b ∧
      b.toNat = n - (k + 1) + codeSize (items.take k) := by
  obtain ⟨-, hlen, -⟩ := h.formed.1
  have hn := entries_le head n items h
  have hsum := sum_sizes_le head n items h k
  have hlength : ((items.take n).map CodeItem.size).length = n := by
    rw [List.length_map, List.length_take_of_le hlen]
  have htake : ((items.take n).map CodeItem.size).take k = (items.take k).map CodeItem.size := by
    rw [← List.map_take, List.take_take, Nat.min_eq_left (Nat.le_of_lt hk)]
  refine ⟨_, getElem?_jumpTable _ 0 k (by rw [hlength]; exact hk), ?_⟩
  rw [htake] at hsum ⊢
  rw [hlength, UInt8.toNat_ofNat']
  unfold codeSize
  omega

/-- The code before entry `k`'s jump. -/
theorem drop_to_entry (k : Nat) :
    (bytesOf (.dispatch head n :: items)).drop (head.headSize + n + codeSize (items.take k))
      = bytesOf (items.drop k) := by
  have hsplit : CodeItem.dispatch head n :: items
      = .dispatch head n :: items.take k ++ items.drop k := by
    rw [List.cons_append, List.take_append_drop]
  have hdrop := drop_bytesOf (.dispatch head n :: items.take k) (items.drop k) (hsplit ▸ h)
  rw [← hsplit, codeSize_cons] at hdrop
  exact hdrop

end

theorem dispatched_set (mask : Nat) (terminal : Bool) (items : List CodeItem)
    (h : Laid (.dispatch (.set mask terminal) 2 :: items)) :
    ∃ a b : UInt8, dispatched (.set mask terminal) 2 items = .set mask terminal (some (a, b)) ∧
      a.toNat = 1 ∧ b.toNat = codeSize (items.take 1) := by
  obtain ⟨a, ha, hva⟩ := entry_eq _ 2 items h 0 (by omega)
  obtain ⟨b, hb, hvb⟩ := entry_eq _ 2 items h 1 (by omega)
  refine ⟨a, b, ?_, ?_, ?_⟩
  · unfold dispatched Dispatch.withTable
    rw [List.getD_eq_getElem?_getD, List.getD_eq_getElem?_getD, ha, hb]
    rfl
  · rw [hva]
    rfl
  · rw [hvb, Nat.sub_self, Nat.zero_add]

/-- The jump that a set with a table goes on before. -/
theorem step_set (mask : Nat) (terminal : Bool) (items : List CodeItem) (d : Digit)
    (w : List Digit) (h : Laid (.dispatch (.set mask terminal) 2 :: items)) :
    (dispatched (.set mask terminal) 2 items).step (dispatched (.set mask terminal) 2 items).size
        (d :: w)
      = ⟨.running, 2 + 2 + codeSize (items.take (if mask.testBit d.val then 0 else 1)), w⟩ := by
  obtain ⟨a, b, heq, ha, hb⟩ := dispatched_set mask terminal items h
  rw [heq, Instruction.step]
  cases hmem : mask.testBit d.val with
  | true =>
    rw [if_pos rfl, if_pos rfl, ha]
    rfl
  | false =>
    rw [if_neg (by decide), if_neg (by decide), hb]
    rfl

/-- A set goes on before its first jump for members and before its second for others. -/
theorem verdict_set (mask : Nat) (terminal : Bool) (items : List CodeItem) (d : Digit)
    (w : List Digit) (h : Laid (.dispatch (.set mask terminal) 2 :: items)) :
    verdict (bytesOf (.dispatch (.set mask terminal) 2 :: items)) (d :: w)
      = verdict (bytesOf (items.drop (if mask.testBit d.val then 0 else 1))) w := by
  have hd := decode_dispatch _ 2 items h
  have hstep := step_set mask terminal items d w h
  rw [verdict_of_running _ _ _ hd (by rw [hstep]), hstep]
  dsimp only
  rw [← drop_to_entry _ 2 items h]
  rfl

/-- The jump that a map goes on before. -/
theorem step_map (indices n k : Nat) (terminal : Bool) (items : List CodeItem) (d : Digit)
    (w : List Digit) (h : Laid (.dispatch (.map indices terminal) n :: items))
    (hk : indexOf indices d = k + 1) (hkn : k < n) :
    (dispatched (.map indices terminal) n items).step
        (dispatched (.map indices terminal) n items).size (d :: w)
      = ⟨.running, 4 + n + codeSize (items.take k), w⟩ := by
  obtain ⟨b, hb, hvb⟩ := entry_eq _ n items h k hkn
  have hlen : (jumpTable 0 ((items.take n).map CodeItem.size)).length = n := by
    rw [length_jumpTable, List.length_map, List.length_take_of_le h.formed.1.2.1]
  have hnext : 4 + n - n + (k + 1) + b.toNat = 4 + n + codeSize (items.take k) := by
    rw [hvb]
    omega
  unfold dispatched Dispatch.withTable Instruction.step
  dsimp only
  rw [hk]
  dsimp only
  rw [hb, hlen, Instruction.size, hlen]
  dsimp only
  rw [hnext]

/-- A map goes on before the jump that a digit's index names. -/
theorem verdict_map (indices n k : Nat) (terminal : Bool) (items : List CodeItem) (d : Digit)
    (w : List Digit) (h : Laid (.dispatch (.map indices terminal) n :: items))
    (hk : indexOf indices d = k + 1) (hkn : k < n) :
    verdict (bytesOf (.dispatch (.map indices terminal) n :: items)) (d :: w)
      = verdict (bytesOf (items.drop k)) w := by
  have hd := decode_dispatch _ n items h
  have hstep := step_map indices n k terminal items d w h hk hkn
  rw [verdict_of_running _ _ _ hd (by rw [hstep]), hstep]
  dsimp only
  rw [← drop_to_entry _ n items h k]
  rfl

theorem verdict_map_invalid (indices n : Nat) (terminal : Bool) (items : List CodeItem) (d : Digit)
    (w : List Digit) (h : Laid (.dispatch (.map indices terminal) n :: items))
    (hk : indexOf indices d = 0) :
    verdict (bytesOf (.dispatch (.map indices terminal) n :: items)) (d :: w) = .invalid := by
  refine verdict_of_invalid _ _ _ (decode_dispatch _ n items h) ?_
  unfold dispatched Dispatch.withTable Instruction.step
  dsimp only
  rw [hk]

/-- A dispatch where the input has ended. -/
theorem verdict_dispatch_nil (head : Dispatch) (n : Nat) (items : List CodeItem) (terminal : Bool)
    (h : Laid (.dispatch head n :: items))
    (hhead : (∃ mask, head = .set mask terminal) ∨ ∃ indices, head = .map indices terminal) :
    verdict (bytesOf (.dispatch head n :: items)) [] = if terminal then .matched else .tooShort := by
  refine verdict_of_exhausted _ _ _ terminal (decode_dispatch head n items h) ?_ ?_
  · rcases hhead with ⟨mask, rfl⟩ | ⟨indices, rfl⟩ <;> rfl
  · rcases hhead with ⟨mask, rfl⟩ | ⟨indices, rfl⟩ <;> rfl

end NumberPlan
