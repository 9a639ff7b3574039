import NumberPlan.Automaton.Subset

/-!
# Words of slots and of the tape

A pattern's words are those read through its slots, and those read from the tape at the
beginning of an alternative.

    Spells (slots a) w ↔ SequenceDenotes a w                          (spells_slots)
    PlacesSpell (tapeOf as) (beginnings 0 as) w
      ↔ ∃ a ∈ as, Spells a w                                         (placesSpell_beginnings)

A tape whose slots all take some digit, and whose last cell is a stop, has a word from
every place (`TapeReadable`).
-/

namespace NumberPlan

/-! ## Patterns that can be read -/

/-- The counts of an item allow a digit, and its set has one. -/
structure Item.Proper (i : Item) : Prop where
  least_le_most : i.least ≤ i.most
  most_pos : 1 ≤ i.most
  digits_ne_empty : i.digits ≠ DigitSet.empty

/-- Every alternative has an item, and all items are proper. -/
structure Pattern.Proper (p : Pattern) : Prop where
  ne_nil : p ≠ []
  alternative_ne_nil : ∀ a ∈ p, a ≠ []
  item_proper : ∀ a ∈ p, ∀ i ∈ a, i.Proper

theorem DigitSet.exists_mem_of_ne_empty (s : DigitSet) (h : s ≠ DigitSet.empty) :
    ∃ d, s.mem d = true := by
  apply Classical.byContradiction
  intro hn
  refine h (DigitSet.ext_mem fun d => ?_)
  rw [DigitSet.mem_empty]
  exact Bool.eq_false_iff.mpr fun hd => hn ⟨d, hd⟩

/-! ## Slots -/

theorem spells_append (a b : List Slot) (w : List Digit) :
    Spells (a ++ b) w ↔ ∃ u v, w = u ++ v ∧ Spells a u ∧ Spells b v := by
  induction a generalizing w with
  | nil =>
    constructor
    · intro h
      exact ⟨[], w, rfl, rfl, h⟩
    · rintro ⟨u, v, rfl, hu, hv⟩
      rw [show u = [] from hu]
      exact hv
  | cons s r ih =>
    show (_ ∧ Spells (r ++ b) w ∨ _) ↔ _
    constructor
    · rintro (⟨ho, h⟩ | ⟨d, x, rfl, hd, h⟩)
      · obtain ⟨u, v, rfl, hu, hv⟩ := (ih w).mp h
        exact ⟨u, v, rfl, Or.inl ⟨ho, hu⟩, hv⟩
      · obtain ⟨u, v, rfl, hu, hv⟩ := (ih x).mp h
        exact ⟨d :: u, v, rfl, Or.inr ⟨d, u, rfl, hd, hu⟩, hv⟩
    · rintro ⟨u, v, rfl, ⟨ho, hu⟩ | ⟨d, x, rfl, hd, hu⟩, hv⟩
      · exact Or.inl ⟨ho, (ih _).mpr ⟨u, v, rfl, hu, hv⟩⟩
      · exact Or.inr ⟨d, x ++ v, rfl, hd, (ih _).mpr ⟨x, v, rfl, hu, hv⟩⟩

theorem spells_required (digits : DigitSet) (n : Nat) (w : List Digit) :
    Spells (List.replicate n ⟨digits, false⟩) w ↔
      w.length = n ∧ ∀ d ∈ w, digits.mem d = true := by
  induction n generalizing w with
  | zero =>
    show w = [] ↔ _
    constructor
    · rintro rfl
      exact ⟨rfl, fun d hd => by cases hd⟩
    · rintro ⟨h, -⟩
      exact List.length_eq_zero_iff.mp h
  | succ n ih =>
    rw [List.replicate_succ]
    constructor
    · rintro (⟨h, -⟩ | ⟨d, v, rfl, hd, h⟩)
      · cases h
      · obtain ⟨hl, hm⟩ := (ih v).mp h
        refine ⟨by rw [List.length_cons, hl], fun e he => ?_⟩
        rcases List.mem_cons.mp he with rfl | he
        · exact hd
        · exact hm e he
    · rintro ⟨hl, hm⟩
      cases w with
      | nil => cases hl
      | cons d v =>
        refine Or.inr ⟨d, v, rfl, hm d (List.mem_cons_self ..), (ih v).mpr ⟨?_, ?_⟩⟩
        · simpa using hl
        · exact fun e he => hm e (List.mem_cons_of_mem _ he)

theorem spells_optional (digits : DigitSet) (n : Nat) (w : List Digit) :
    Spells (List.replicate n ⟨digits, true⟩) w ↔
      w.length ≤ n ∧ ∀ d ∈ w, digits.mem d = true := by
  induction n generalizing w with
  | zero =>
    show w = [] ↔ _
    constructor
    · rintro rfl
      exact ⟨Nat.le_refl _, fun d hd => by cases hd⟩
    · rintro ⟨h, -⟩
      exact List.length_eq_zero_iff.mp (Nat.le_zero.mp h)
  | succ n ih =>
    rw [List.replicate_succ]
    constructor
    · rintro (⟨-, h⟩ | ⟨d, v, rfl, hd, h⟩)
      · obtain ⟨hl, hm⟩ := (ih w).mp h
        exact ⟨by omega, hm⟩
      · obtain ⟨hl, hm⟩ := (ih v).mp h
        refine ⟨by rw [List.length_cons]; omega, fun e he => ?_⟩
        rcases List.mem_cons.mp he with rfl | he
        · exact hd
        · exact hm e he
    · rintro ⟨hl, hm⟩
      cases w with
      | nil => exact Or.inl ⟨rfl, (ih []).mpr ⟨Nat.zero_le _, hm⟩⟩
      | cons d v =>
        rw [List.length_cons] at hl
        exact Or.inr ⟨d, v, rfl, hm d (List.mem_cons_self ..), (ih v).mpr
          ⟨by omega, fun e he => hm e (List.mem_cons_of_mem _ he)⟩⟩

/-- The positions of an item take exactly its runs of digits. -/
theorem spells_itemSlots (i : Item) (h : i.least ≤ i.most) (w : List Digit) :
    Spells i.slots w ↔ i.Denotes w := by
  unfold Item.slots Item.Denotes
  rw [spells_append]
  constructor
  · rintro ⟨u, v, rfl, hu, hv⟩
    obtain ⟨hlu, hmu⟩ := (spells_required _ _ u).mp hu
    obtain ⟨hlv, hmv⟩ := (spells_optional _ _ v).mp hv
    rw [List.length_append]
    refine ⟨by omega, by omega, fun d hd => ?_⟩
    exact (List.mem_append.mp hd).elim (hmu d) (hmv d)
  · rintro ⟨hl, hm, hd⟩
    refine ⟨w.take i.least, w.drop i.least, (List.take_append_drop _ _).symm, ?_, ?_⟩
    · refine (spells_required _ _ _).mpr ⟨?_, fun d h => hd d (List.mem_of_mem_take h)⟩
      rw [List.length_take]
      omega
    · refine (spells_optional _ _ _).mpr ⟨?_, fun d h => hd d (List.mem_of_mem_drop h)⟩
      rw [List.length_drop]
      omega

theorem spells_slots (a : List Item) (h : ∀ i ∈ a, i.least ≤ i.most) (w : List Digit) :
    Spells (slots a) w ↔ SequenceDenotes a w := by
  induction a generalizing w with
  | nil => exact Iff.rfl
  | cons i is ih =>
    rw [slots, List.flatMap_cons, spells_append]
    show _ ↔ ∃ u v, w = u ++ v ∧ i.Denotes u ∧ SequenceDenotes is v
    have hi := h i (List.mem_cons_self ..)
    have his : ∀ j ∈ is, j.least ≤ j.most := fun j hj => h j (List.mem_cons_of_mem _ hj)
    constructor
    · rintro ⟨u, v, rfl, hu, hv⟩
      exact ⟨u, v, rfl, (spells_itemSlots i hi u).mp hu, (ih his v).mp hv⟩
    · rintro ⟨u, v, rfl, hu, hv⟩
      exact ⟨u, v, rfl, (spells_itemSlots i hi u).mpr hu, (ih his v).mpr hv⟩

theorem Pattern.denotes_iff_spells (p : Pattern) (h : p.Proper) (w : List Digit) :
    p.Denotes w ↔ ∃ a ∈ p.slots, Spells a w := by
  unfold Pattern.Denotes Pattern.slots
  constructor
  · rintro ⟨a, ha, hw⟩
    refine ⟨_, List.mem_map_of_mem ha, (spells_slots a (fun i hi => ?_) w).mpr hw⟩
    exact (h.item_proper a ha i hi).least_le_most
  · rintro ⟨s, hs, hw⟩
    obtain ⟨a, ha, rfl⟩ := List.mem_map.mp hs
    refine ⟨a, ha, (spells_slots a (fun i hi => ?_) w).mp hw⟩
    exact (h.item_proper a ha i hi).least_le_most

/-! ## The tape -/

theorem tapeSpells_slots (a : List Slot) (r : Tape) (w : List Digit) :
    TapeSpells (a.map Cell.slot ++ Cell.stop :: r) w ↔ Spells a w := by
  induction a generalizing w with
  | nil => exact Iff.rfl
  | cons s a ih =>
    show (_ ∧ TapeSpells (a.map Cell.slot ++ Cell.stop :: r) w ∨ _) ↔ (_ ∧ Spells a w ∨ _)
    constructor
    · rintro (⟨ho, h⟩ | ⟨d, v, rfl, hd, h⟩)
      · exact Or.inl ⟨ho, (ih w).mp h⟩
      · exact Or.inr ⟨d, v, rfl, hd, (ih v).mp h⟩
    · rintro (⟨ho, h⟩ | ⟨d, v, rfl, hd, h⟩)
      · exact Or.inl ⟨ho, (ih w).mpr h⟩
      · exact Or.inr ⟨d, v, rfl, hd, (ih v).mpr h⟩

theorem tapeOf_cons (a : List Slot) (as : List (List Slot)) :
    tapeOf (a :: as) = a.map Cell.slot ++ Cell.stop :: tapeOf as := by
  simp [tapeOf, List.flatMap_cons]

/-- `w` can be read from one of the places. -/
def PlacesSpell (tape : Tape) (places : List Nat) (w : List Digit) : Prop :=
  ∃ i ∈ places, TapeSpells (tape.drop i) w

theorem placesSpell_beginnings_after (before : Tape) (as : List (List Slot)) (w : List Digit) :
    PlacesSpell (before ++ tapeOf as) (beginnings before.length as) w ↔ ∃ a ∈ as, Spells a w := by
  induction as generalizing before with
  | nil => simp [PlacesSpell, beginnings]
  | cons a as ih =>
    have hrest : before ++ tapeOf (a :: as)
        = (before ++ a.map Cell.slot ++ [Cell.stop]) ++ tapeOf as := by
      simp [tapeOf_cons]
    have hlen : (before ++ a.map Cell.slot ++ [Cell.stop]).length = before.length + a.length + 1 := by
      simp [Nat.add_assoc]
    have hnext := ih (before ++ a.map Cell.slot ++ [Cell.stop])
    rw [← hrest, hlen] at hnext
    have hhere : TapeSpells ((before ++ tapeOf (a :: as)).drop before.length) w ↔ Spells a w := by
      rw [List.drop_left, tapeOf_cons, tapeSpells_slots]
    unfold PlacesSpell at hnext ⊢
    rw [beginnings]
    simp only [List.mem_cons, exists_eq_or_imp, hhere, hnext]

theorem placesSpell_beginnings (as : List (List Slot)) (w : List Digit) :
    PlacesSpell (tapeOf as) (beginnings 0 as) w ↔ ∃ a ∈ as, Spells a w :=
  placesSpell_beginnings_after [] as w

/-! ## Tapes with a word from every place -/

/-- From the head of the tape a stop can be reached, each slot on the way taking a digit. -/
def TapeReadable : Tape → Prop
  | [] => False
  | .stop :: _ => True
  | .slot s :: r => s.digits ≠ DigitSet.empty ∧ TapeReadable r

theorem TapeReadable.exists_word : ∀ tape : Tape, TapeReadable tape → ∃ w, TapeSpells tape w
  | [], h => h.elim
  | .stop :: _, _ => ⟨[], rfl⟩
  | .slot s :: r, h => by
    obtain ⟨d, hd⟩ := s.digits.exists_mem_of_ne_empty h.1
    obtain ⟨w, hw⟩ := TapeReadable.exists_word r h.2
    exact ⟨d :: w, Or.inr ⟨d, w, rfl, hd, hw⟩⟩

theorem tapeReadable_slots (a : List Slot) (r : Tape) (h : ∀ s ∈ a, s.digits ≠ DigitSet.empty) :
    TapeReadable (a.map Cell.slot ++ Cell.stop :: r) := by
  induction a with
  | nil => trivial
  | cons s a ih =>
    exact ⟨h s (List.mem_cons_self ..), ih fun t ht => h t (List.mem_cons_of_mem _ ht)⟩

/-- Every slot takes some digit. -/
def SlotsProper (as : List (List Slot)) : Prop := ∀ a ∈ as, ∀ s ∈ a, s.digits ≠ DigitSet.empty

theorem tapeReadable_drop (as : List (List Slot)) (h : SlotsProper as) (i : Nat)
    (hi : i < (tapeOf as).length) : TapeReadable ((tapeOf as).drop i) := by
  induction as generalizing i with
  | nil => simp [tapeOf] at hi
  | cons a as ih =>
    have ha := h a (List.mem_cons_self ..)
    rw [tapeOf_cons] at hi ⊢
    rw [List.length_append, List.length_map, List.length_cons] at hi
    rcases Nat.lt_or_ge a.length i with hlt | hge
    · obtain ⟨k, rfl⟩ : ∃ k, i = a.length + (k + 1) := ⟨i - a.length - 1, by omega⟩
      rw [← List.drop_drop, List.drop_left' (by rw [List.length_map]), List.drop_succ_cons]
      exact ih (fun b hb => h b (List.mem_cons_of_mem _ hb)) k (by omega)
    · rw [List.drop_append_of_le_length (by rw [List.length_map]; exact hge), ← List.map_drop]
      exact tapeReadable_slots _ _ fun s hs => ha s (List.mem_of_mem_drop hs)

theorem Pattern.slotsProper (p : Pattern) (h : p.Proper) : SlotsProper p.slots := by
  intro b hb s hs
  obtain ⟨a, ha, rfl⟩ := List.mem_map.mp hb
  obtain ⟨i, hi, hs⟩ := List.mem_flatMap.mp hs
  have hd := (h.item_proper a ha i hi).digits_ne_empty
  rcases List.mem_append.mp hs with hs | hs
  · rw [(List.mem_replicate.mp hs).2]
    exact hd
  · rw [(List.mem_replicate.mp hs).2]
    exact hd

theorem Item.Proper.exists_word (i : Item) (h : i.Proper) : ∃ w, i.Denotes w ∧ w ≠ [] := by
  obtain ⟨d, hd⟩ := i.digits.exists_mem_of_ne_empty h.digits_ne_empty
  have hpos := h.most_pos
  refine ⟨List.replicate i.most d, ⟨?_, ?_, ?_⟩, ?_⟩
  · rw [List.length_replicate]
    exact h.least_le_most
  · exact Nat.le_of_eq List.length_replicate
  · intro e he
    rw [(List.mem_replicate.mp he).2]
    exact hd
  · intro h0
    have := congrArg List.length h0
    rw [List.length_replicate, List.length_nil] at this
    omega

/-- A proper pattern has a word that is not empty. -/
theorem Pattern.Proper.exists_word (p : Pattern) (h : p.Proper) : ∃ w, p.Denotes w ∧ w ≠ [] := by
  have hseq : ∀ a : List Item, (∀ i ∈ a, i.Proper) → ∃ w, SequenceDenotes a w ∧ (a ≠ [] → w ≠ []) := by
    intro a
    induction a with
    | nil => exact fun _ => ⟨[], rfl, fun h => absurd rfl h⟩
    | cons i is ih =>
      intro ha
      obtain ⟨u, hu, hne⟩ := (ha i (List.mem_cons_self ..)).exists_word
      obtain ⟨v, hv, -⟩ := ih fun j hj => ha j (List.mem_cons_of_mem _ hj)
      refine ⟨u ++ v, ⟨u, v, rfl, hu, hv⟩, fun _ h0 => hne ?_⟩
      exact (List.append_eq_nil_iff.mp h0).1
  obtain ⟨a, ha⟩ := List.exists_mem_of_ne_nil p h.ne_nil
  obtain ⟨w, hw, hne⟩ := hseq a (h.item_proper a ha)
  exact ⟨w, ⟨a, ha, hw⟩, hne (h.alternative_ne_nil a ha)⟩

end NumberPlan
