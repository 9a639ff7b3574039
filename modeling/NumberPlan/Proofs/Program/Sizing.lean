import NumberPlan.Program.Layout
import Mathlib.Data.List.Forall2
import Mathlib.Algebra.BigOperators.Group.List.Basic
import Mathlib.Algebra.Ring.Nat

/-!
# Jump sizes

Where every jump leads to a later label, its distance is the size of what lies between
(`distanceTo_eq`), so a round of growing needs no table of places (`grow_eq_resize`).  Sizes never
exceed what their distances need, since distances never shrink, and so the sizes that growing
ends with are exactly the needed ones.

    Settles items (settle items)       the bound on the rounds is never met      (settles_settle)
    Settles items (.ok out) → every jump of out has the size its distance needs
    Settles items (.error e) → ∃ d, e = .programTooLarge d                       (Settles.result)
-/

namespace NumberPlan

/-! ## Labels -/

/-- The state whose block an item begins. -/
def CodeItem.label? : CodeItem → Option Nat
  | label s => some s
  | _ => none

/-- The states whose blocks begin among the items. -/
def labelsOf (items : List CodeItem) : List Nat := items.filterMap CodeItem.label?

theorem label?_eq_some (i : CodeItem) (s : Nat) : i.label? = some s ↔ i = .label s := by
  cases i with
  | label t => simp [CodeItem.label?]
  | plain i => simp [CodeItem.label?]
  | dispatch h n => simp [CodeItem.label?]
  | jump t n => simp [CodeItem.label?]

theorem mem_labelsOf (items : List CodeItem) (s : Nat) :
    s ∈ labelsOf items ↔ .label s ∈ items := by
  unfold labelsOf
  rw [List.mem_filterMap]
  constructor
  · rintro ⟨i, hi, h⟩
    rwa [(label?_eq_some i s).mp h] at hi
  · exact fun h => ⟨_, h, rfl⟩

theorem labelsOf_append (as bs : List CodeItem) :
    labelsOf (as ++ bs) = labelsOf as ++ labelsOf bs := List.filterMap_append ..

/-- Every jump leads to a label after it. -/
def JumpsForward : List CodeItem → Prop
  | [] => True
  | .jump t _ :: items => .label t ∈ items ∧ JumpsForward items
  | _ :: items => JumpsForward items

theorem JumpsForward.tail (i : CodeItem) (items : List CodeItem) (h : JumpsForward (i :: items)) :
    JumpsForward items := by
  cases i with
  | label s => exact h
  | plain i => exact h
  | dispatch d n => exact h
  | jump t n => exact h.2

/-! ## Distances -/

/-- The bytes that some items take. -/
def codeSize (items : List CodeItem) : Nat := (items.map CodeItem.size).sum

theorem codeSize_cons (i : CodeItem) (items : List CodeItem) :
    codeSize (i :: items) = i.size + codeSize items := List.sum_cons

theorem codeSize_append (as bs : List CodeItem) :
    codeSize (as ++ bs) = codeSize as + codeSize bs := by
  unfold codeSize
  rw [List.map_append, List.sum_append]

/-- The bytes before the label of `t`. -/
def gapTo (t : Nat) : List CodeItem → Nat
  | [] => 0
  | i :: items => if i = .label t then 0 else i.size + gapTo t items

theorem gapTo_append (t : Nat) (as bs : List CodeItem) (h : .label t ∉ as) :
    gapTo t (as ++ bs) = codeSize as + gapTo t bs := by
  induction as with
  | nil => exact (Nat.zero_add _).symm
  | cons i as ih =>
    have hi : i ≠ .label t := fun hi => h (by rw [hi]; exact List.mem_cons_self ..)
    rw [List.cons_append, gapTo, if_neg hi, ih fun hm => h (List.mem_cons_of_mem _ hm),
      codeSize_cons, Nat.add_assoc]

theorem labelPlaces_cons (place : Nat) (i : CodeItem) (items : List CodeItem)
    (h : i.label? = none) :
    labelPlaces place (i :: items) = labelPlaces (place + i.size) items := by
  cases i with
  | label s => cases h
  | plain i => rfl
  | dispatch d n => rfl
  | jump t n => rfl

/-- A label's place is that of the first item plus the bytes between. -/
theorem lookup_labelPlaces (t : Nat) (items : List CodeItem) : ∀ place, .label t ∈ items →
    (labelPlaces place items).lookup t = some (place + gapTo t items) := by
  induction items with
  | nil => exact fun _ h => nomatch h
  | cons i items ih =>
    intro place h
    rw [gapTo]
    by_cases hi : i = .label t
    · rw [if_pos hi, hi, labelPlaces, List.lookup_cons_self, Nat.add_zero]
    · have hmem : .label t ∈ items := (List.mem_cons.mp h).resolve_left fun h => hi h.symm
      rw [if_neg hi]
      cases hl : i.label? with
      | none =>
        rw [labelPlaces_cons place i items hl, ih _ hmem, Nat.add_assoc]
      | some s =>
        obtain rfl := (label?_eq_some i s).mp hl
        have hst : (t == s) = false := beq_false_of_ne fun h => hi (by rw [h])
        rw [labelPlaces, List.lookup_cons, hst, ih _ hmem]
        show some (place + gapTo t items) = some (place + (0 + gapTo t items))
        rw [Nat.zero_add]

/-- A jump's distance is the size of what lies between it and its label. -/
theorem distanceTo_eq (t n : Nat) (before after : List CodeItem)
    (hnd : (labelsOf (before ++ .jump t n :: after)).Nodup) (ht : .label t ∈ after) :
    ((labelPlaces 0 (before ++ .jump t n :: after)).lookup t).getD 0
      = codeSize before + n + gapTo t after := by
  have hbefore : .label t ∉ before := by
    intro h
    rw [labelsOf_append] at hnd
    exact (List.nodup_append.mp hnd).2.2 t ((mem_labelsOf _ _).mpr h) t
      ((mem_labelsOf _ _).mpr (List.mem_cons_of_mem _ ht)) rfl
  rw [lookup_labelPlaces t _ 0 (List.mem_append_right _ (List.mem_cons_of_mem _ ht)),
    gapTo_append t _ _ hbefore, gapTo, if_neg (by simp)]
  show 0 + (codeSize before + (n + gapTo t after)) = _
  omega

/-! ## Needed sizes -/

/-- The bytes that a jump over so many bytes needs, if it can be encoded. -/
def needOf (distance : Nat) : Nat :=
  if distance = 0 then 0 else if distance ≤ maxShortBranch then 1 else 2

theorem needOf_le (d : Nat) : needOf d ≤ 2 := by
  unfold needOf
  split
  · omega
  · split <;> omega

theorem needOf_mono (a b : Nat) (h : a ≤ b) : needOf a ≤ needOf b := by
  unfold needOf maxShortBranch
  split <;> split <;> (try split) <;> (try split) <;> omega

theorem neededSize_eq (d : Nat) :
    neededSize d = if d ≤ maxLongBranch then .ok (needOf d) else .error (.programTooLarge d) := by
  unfold neededSize needOf maxShortBranch maxLongBranch
  split
  · rw [if_pos (by omega)]
  · split
    · rw [if_pos (by omega)]
    · rfl

/-! ## One round -/

/-- The item before `following`, grown to what its distance needs. -/
def CodeItem.resize (following : List CodeItem) : CodeItem → Except CompileError CodeItem
  | jump t n =>
    if gapTo t following ≤ maxLongBranch then .ok (jump t (max n (needOf (gapTo t following))))
    else .error (.programTooLarge (gapTo t following))
  | i => .ok i

/-- A round of growing, by the distances between items. -/
def resize : List CodeItem → Except CompileError (List CodeItem)
  | [] => .ok []
  | i :: items =>
    match i.resize items with
    | .error e => .error e
    | .ok j => (resize items).map (j :: ·)

theorem growItem_eq (before after : List CodeItem) (i : CodeItem)
    (hnd : (labelsOf (before ++ i :: after)).Nodup) (h : JumpsForward (i :: after)) :
    growItem (labelPlaces 0 (before ++ i :: after)) (codeSize before) i = i.resize after := by
  cases i with
  | label s => rfl
  | plain i => rfl
  | dispatch d n => rfl
  | jump t n =>
    rw [growItem, distanceTo, distanceTo_eq t n before after hnd h.1, CodeItem.resize]
    rw [if_neg (by omega), Nat.add_sub_cancel_left]
    dsimp only
    rw [neededSize_eq]
    by_cases hd : gapTo t after ≤ maxLongBranch
    · rw [if_pos hd, if_pos hd]
    · rw [if_neg hd, if_neg hd]

theorem growFrom_eq (after : List CodeItem) : ∀ before done : List CodeItem,
    (labelsOf (before ++ after)).Nodup → JumpsForward after →
      growFrom (labelPlaces 0 (before ++ after)) (codeSize before) done after
        = (resize after).map (done.reverse ++ ·) := by
  induction after with
  | nil =>
    intro before done _ _
    rw [growFrom, resize]
    simp [Except.map]
  | cons i after ih =>
    intro before done hnd h
    rw [growFrom, growItem_eq before after i hnd h, resize]
    cases i.resize after with
    | error e => rfl
    | ok j =>
      have hsplit : before ++ i :: after = (before ++ [i]) ++ after := by simp
      have hsize : codeSize before + i.size = codeSize (before ++ [i]) := by
        rw [codeSize_append]
        simp [codeSize]
      dsimp only
      rw [hsplit, hsize, ih (before ++ [i]) (j :: done) (hsplit ▸ hnd) h.tail]
      cases resize after with
      | error e => rfl
      | ok js => simp [Except.map]

theorem grow_eq_resize (items : List CodeItem) (hnd : (labelsOf items).Nodup)
    (h : JumpsForward items) : grow items = resize items := by
  have := growFrom_eq items [] [] hnd h
  rw [show codeSize [] = 0 from rfl, List.nil_append] at this
  rw [grow, this]
  cases resize items with
  | error e => rfl
  | ok js => simp [Except.map]

/-! ## Growing -/

/-- The item with a jump's size left out. -/
def CodeItem.unsized : CodeItem → CodeItem
  | jump t _ => jump t 0
  | i => i

/-- The same items, none of them smaller. -/
def GrownTo : List CodeItem → List CodeItem → Prop :=
  List.Forall₂ fun i j => i.unsized = j.unsized ∧ i.size ≤ j.size

theorem unsized_eq_label (i : CodeItem) (s : Nat) : i.unsized = .label s ↔ i = .label s := by
  cases i <;> simp [CodeItem.unsized]

theorem gapTo_mono (t : Nat) (as bs : List CodeItem) (h : GrownTo as bs) :
    gapTo t as ≤ gapTo t bs := by
  induction h with
  | nil => exact Nat.le_refl _
  | @cons i j as bs hij _ ih =>
    have hiff : i = .label t ↔ j = .label t := by
      rw [← unsized_eq_label, hij.1, unsized_eq_label]
    rw [gapTo, gapTo]
    by_cases hi : i = .label t
    · rw [if_pos hi]
      exact Nat.zero_le _
    · rw [if_neg hi, if_neg (mt hiff.mpr hi)]
      exact Nat.add_le_add hij.2 ih

theorem map_unsized_of_grownTo (as bs : List CodeItem) (h : GrownTo as bs) :
    as.map CodeItem.unsized = bs.map CodeItem.unsized := by
  induction h with
  | nil => rfl
  | cons hij _ ih => rw [List.map_cons, List.map_cons, hij.1, ih]

theorem resize_cons_ok (i : CodeItem) (items out : List CodeItem)
    (h : resize (i :: items) = .ok out) :
    ∃ j js, i.resize items = .ok j ∧ resize items = .ok js ∧ out = j :: js := by
  rw [resize] at h
  cases hi : i.resize items with
  | error e =>
    rw [hi] at h
    cases h
  | ok j =>
    rw [hi] at h
    cases hr : resize items with
    | error e =>
      rw [hr] at h
      cases h
    | ok js =>
      rw [hr] at h
      cases h
      exact ⟨j, js, rfl, rfl, rfl⟩

/-- Only jumps change, to what their distance needs. -/
theorem CodeItem.resize_ok (following : List CodeItem) (i j : CodeItem)
    (h : i.resize following = .ok j) :
    (∃ t n, i = .jump t n ∧ gapTo t following ≤ maxLongBranch ∧
      j = .jump t (max n (needOf (gapTo t following)))) ∨
    ((∀ t n, i ≠ .jump t n) ∧ j = i) := by
  cases i with
  | label s =>
    cases h
    exact Or.inr ⟨fun _ _ h => (nomatch h), rfl⟩
  | plain i =>
    cases h
    exact Or.inr ⟨fun _ _ h => (nomatch h), rfl⟩
  | dispatch d n =>
    cases h
    exact Or.inr ⟨fun _ _ h => (nomatch h), rfl⟩
  | jump t n =>
    rw [CodeItem.resize] at h
    split at h
    · next hd =>
      cases h
      exact Or.inl ⟨t, n, rfl, hd, rfl⟩
    · cases h

theorem resize_grownTo (items : List CodeItem) : ∀ out, resize items = .ok out →
    GrownTo items out := by
  induction items with
  | nil =>
    intro out h
    cases h
    exact List.Forall₂.nil
  | cons i items ih =>
    intro out h
    obtain ⟨j, js, hi, hr, rfl⟩ := resize_cons_ok i items out h
    refine List.Forall₂.cons ?_ (ih js hr)
    rcases i.resize_ok items j hi with ⟨t, n, rfl, -, rfl⟩ | ⟨-, rfl⟩
    · exact ⟨rfl, Nat.le_max_left _ _⟩
    · exact ⟨rfl, Nat.le_refl _⟩

/-- No jump is larger than its distance needs. -/
def NotOversized : List CodeItem → Prop
  | [] => True
  | .jump t n :: items => n ≤ needOf (gapTo t items) ∧ NotOversized items
  | _ :: items => NotOversized items

/-- Every jump has the size its distance needs, and can be encoded. -/
def JumpsFit : List CodeItem → Prop
  | [] => True
  | .jump t n :: items =>
    (gapTo t items ≤ maxLongBranch ∧ n = needOf (gapTo t items)) ∧ JumpsFit items
  | _ :: items => JumpsFit items

theorem notOversized_cons (i : CodeItem) (items : List CodeItem) (hi : ∀ t n, i ≠ .jump t n) :
    NotOversized (i :: items) ↔ NotOversized items := by
  cases i with
  | label s => exact Iff.rfl
  | plain i => exact Iff.rfl
  | dispatch d n => exact Iff.rfl
  | jump t n => exact absurd rfl (hi t n)

/-- A jump that is not too large stays so, since what it jumps over does not shrink. -/
theorem resize_notOversized (items : List CodeItem) : ∀ out, NotOversized items →
    resize items = .ok out → NotOversized out := by
  induction items with
  | nil =>
    intro out _ h
    cases h
    trivial
  | cons i items ih =>
    intro out hn h
    obtain ⟨j, js, hi, hr, rfl⟩ := resize_cons_ok i items out h
    rcases i.resize_ok items j hi with ⟨t, n, rfl, -, rfl⟩ | ⟨hne, rfl⟩
    · refine ⟨?_, ih js hn.2 hr⟩
      rw [Nat.max_eq_right hn.1]
      exact needOf_mono _ _ (gapTo_mono t items js (resize_grownTo items js hr))
    · rw [notOversized_cons j js hne]
      exact ih js ((notOversized_cons j items hne).mp hn) hr

/-- Where a round changes nothing, the sizes are the needed ones. -/
theorem jumpsFit_of_resize (items : List CodeItem) (hn : NotOversized items)
    (h : resize items = .ok items) : JumpsFit items := by
  induction items with
  | nil => trivial
  | cons i items ih =>
    obtain ⟨j, js, hi, hr, heq⟩ := resize_cons_ok i items _ h
    obtain ⟨rfl, rfl⟩ := List.cons.inj heq
    rcases i.resize_ok items i hi with ⟨t, n, rfl, hd, hj⟩ | ⟨hne, -⟩
    · have hsize : n = max n (needOf (gapTo t items)) := (CodeItem.jump.inj hj).2
      exact ⟨⟨hd, by have := hn.1; omega⟩, ih hn.2 hr⟩
    · have := ih ((notOversized_cons i items hne).mp hn) hr
      cases i with
      | label s => exact this
      | plain i => exact this
      | dispatch d n => exact this
      | jump t n => exact absurd rfl (hne t n)

theorem resize_error (items : List CodeItem) : ∀ e, resize items = .error e →
    ∃ d, e = .programTooLarge d := by
  induction items with
  | nil => exact fun e h => nomatch h
  | cons i items ih =>
    intro e h
    rw [resize] at h
    cases hi : i.resize items with
    | error e' =>
      rw [hi] at h
      cases h
      cases i with
      | label s => cases hi
      | plain i => cases hi
      | dispatch d n => cases hi
      | jump t n =>
        rw [CodeItem.resize] at hi
        split at hi
        · cases hi
        · cases hi
          exact ⟨_, rfl⟩
    | ok j =>
      rw [hi] at h
      cases hr : resize items with
      | error e' =>
        rw [hr] at h
        cases h
        exact ih e hr
      | ok js =>
        rw [hr] at h
        cases h

/-! ## All rounds -/

/-- The bytes of the jumps. -/
def jumpSize (items : List CodeItem) : Nat :=
  (items.map fun i => match i with | .jump _ n => n | _ => 0).sum

theorem jumpSize_le (items : List CodeItem) (h : NotOversized items) :
    jumpSize items ≤ 2 * items.length := by
  induction items with
  | nil => exact Nat.le_refl _
  | cons i items ih =>
    unfold jumpSize at ih ⊢
    rw [List.map_cons, List.sum_cons, List.length_cons]
    cases i with
    | label s => have := ih h; dsimp only; omega
    | plain i => have := ih h; dsimp only; omega
    | dispatch d n => have := ih h; dsimp only; omega
    | jump t n =>
      have := ih h.2
      have := h.1
      have := needOf_le (gapTo t items)
      dsimp only
      omega

/-- A round that changes something adds a byte. -/
theorem jumpSize_of_grownTo (as bs : List CodeItem) (h : GrownTo as bs) :
    jumpSize as ≤ jumpSize bs ∧ (jumpSize as = jumpSize bs → as = bs) := by
  unfold jumpSize
  induction h with
  | nil => exact ⟨Nat.le_refl _, fun _ => rfl⟩
  | @cons i j as bs hij _ ih =>
    rw [List.map_cons, List.map_cons, List.sum_cons, List.sum_cons]
    cases i with
    | label s =>
      obtain rfl := (unsized_eq_label j s).mp hij.1.symm
      exact ⟨Nat.add_le_add_left ih.1 _, fun h => by rw [ih.2 (Nat.add_left_cancel h)]⟩
    | plain i =>
      cases j <;> cases hij.1
      exact ⟨Nat.add_le_add_left ih.1 _, fun h => by rw [ih.2 (Nat.add_left_cancel h)]⟩
    | dispatch d n =>
      cases j <;> cases hij.1
      exact ⟨Nat.add_le_add_left ih.1 _, fun h => by rw [ih.2 (Nat.add_left_cancel h)]⟩
    | jump t n =>
      cases j <;> cases hij.1
      have hle := hij.2
      dsimp only [CodeItem.size] at hle ⊢
      refine ⟨Nat.add_le_add hle ih.1, fun h => ?_⟩
      have h1 := ih.1
      rw [ih.2 (by omega)]
      congr 2
      omega

theorem jumpsForward_unsized (items : List CodeItem) :
    JumpsForward (items.map CodeItem.unsized) ↔ JumpsForward items := by
  induction items with
  | nil => exact Iff.rfl
  | cons i items ih =>
    cases i with
    | label s => exact ih
    | plain i => exact ih
    | dispatch d n => exact ih
    | jump t n =>
      refine and_congr ?_ ih
      rw [List.mem_map]
      constructor
      · rintro ⟨i, hi, h⟩
        rwa [(unsized_eq_label i t).mp h] at hi
      · exact fun h => ⟨_, h, rfl⟩

theorem labelsOf_unsized (items : List CodeItem) :
    labelsOf (items.map CodeItem.unsized) = labelsOf items := by
  unfold labelsOf
  rw [List.filterMap_map]
  congr 1
  funext i
  cases i <;> rfl

/-- What rounds keep: labels are distinct, jumps lead forward, and none is larger than needed. -/
structure Growing (items : List CodeItem) : Prop where
  nodup : (labelsOf items).Nodup
  forward : JumpsForward items
  notOversized : NotOversized items

theorem Growing.grow {items : List CodeItem} (h : Growing items) :
    NumberPlan.grow items = resize items := grow_eq_resize items h.nodup h.forward

theorem Growing.resize {items grown : List CodeItem} (h : Growing items)
    (hr : NumberPlan.resize items = .ok grown) : Growing grown := by
  have hmap := map_unsized_of_grownTo items grown (resize_grownTo items grown hr)
  refine ⟨?_, ?_, resize_notOversized items grown h.notOversized hr⟩
  · rw [← labelsOf_unsized, ← hmap, labelsOf_unsized]
    exact h.nodup
  · rw [← jumpsForward_unsized, ← hmap, jumpsForward_unsized]
    exact h.forward

/-- Growing round by round, however many there are, comes to this end. -/
inductive Settles : List CodeItem → Except CompileError (List CodeItem) → Prop
  | stable (items : List CodeItem) (h : grow items = .ok items) : Settles items (.ok items)
  | fails (items : List CodeItem) (e : CompileError) (h : grow items = .error e) :
    Settles items (.error e)
  | grows (items grown : List CodeItem) (r : Except CompileError (List CodeItem))
    (h : grow items = .ok grown) (hne : grown ≠ items) (hr : Settles grown r) : Settles items r

/-- With a round for every byte that jumps may still grow by, and one more, growing comes to its
end. -/
theorem settles_growUntil (rounds : Nat) : ∀ items : List CodeItem, Growing items →
    2 * items.length < jumpSize items + rounds → Settles items (growUntil rounds items) := by
  induction rounds with
  | zero =>
    intro items h hrounds
    exact absurd (jumpSize_le items h.notOversized) (by omega)
  | succ rounds ih =>
    intro items h hrounds
    rw [growUntil]
    cases hg : grow items with
    | error e => exact Settles.fails items e hg
    | ok grown =>
      dsimp only
      by_cases heq : grown = items
      · rw [if_pos heq]
        exact Settles.stable items (by rw [hg, heq])
      · rw [if_neg heq]
        have hr : resize items = .ok grown := by rw [← h.grow, hg]
        have hgrown := resize_grownTo items grown hr
        have hlen := hgrown.length_eq
        obtain ⟨hle, hlt⟩ := jumpSize_of_grownTo items grown hgrown
        have hne : jumpSize items ≠ jumpSize grown := fun h => heq (hlt h).symm
        exact Settles.grows items grown _ hg heq (ih grown (h.resize hr) (by omega))

/-- The end is the same items with jumps of the sizes that they need, or a jump that is too long. -/
theorem Settles.result {items : List CodeItem} {r : Except CompileError (List CodeItem)}
    (h : Settles items r) (hitems : Growing items) :
    (∀ out, r = .ok out → out.map CodeItem.unsized = items.map CodeItem.unsized ∧ JumpsFit out) ∧
      ∀ e, r = .error e → ∃ d, e = .programTooLarge d := by
  induction h with
  | stable items h =>
    rw [hitems.grow] at h
    refine ⟨fun out hout => ?_, fun e he => nomatch he⟩
    cases hout
    exact ⟨rfl, jumpsFit_of_resize items hitems.notOversized h⟩
  | fails items e h =>
    rw [hitems.grow] at h
    refine ⟨fun out hout => (nomatch hout), fun e' he => ?_⟩
    cases he
    exact resize_error items e h
  | grows items grown r h hne hr ih =>
    rw [hitems.grow] at h
    rw [map_unsized_of_grownTo items grown (resize_grownTo items grown h)]
    exact ih (hitems.resize h)

theorem notOversized_of_unsized (items : List CodeItem)
    (h : items.map CodeItem.unsized = items) : NotOversized items := by
  induction items with
  | nil => trivial
  | cons i items ih =>
    obtain ⟨hi, his⟩ := List.cons.inj h
    cases i with
    | label s => exact ih his
    | plain i => exact ih his
    | dispatch d n => exact ih his
    | jump t n =>
      obtain rfl : 0 = n := (CodeItem.jump.inj hi).2
      exact ⟨Nat.zero_le _, ih his⟩

theorem settles_settle (items : List CodeItem) (h : Growing items) :
    Settles items (settle items) := settles_growUntil (2 * items.length + 1) items h (by omega)

end NumberPlan
