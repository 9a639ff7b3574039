import NumberPlan.Proofs.Pattern.Slots

/-!
# States of places

`after tape places d` is the state that digit `d` leads to.  Its words are what is left, after
`d`, of the words of `places`; it is empty where no word goes on with `d`.

    PlacesSpell tape (after tape places d) v ↔ PlacesSpell tape places (d :: v)   (after_spells)

`reachable` begins with the state of all beginnings, is closed under `after`, each state before
those it leads to, and holds only states led to from there (`reachable_explored`).
-/

namespace NumberPlan

/-- The state that digit `d` leads to. -/
def after (tape : Tape) (places : List Nat) (d : Digit) : List Nat :=
  sweep d (places.headD 0) places false (tape.drop (places.headD 0))

theorem successors_eq (tape : Tape) (places : List Nat) :
    successors tape places = Digit.all.map (after tape places) := rfl

/-- Some places of a tape, ascending. -/
structure PlacesIn (tape : Tape) (places : List Nat) : Prop where
  ne_nil : places ≠ []
  ascending : places.Pairwise (· < ·)
  inside : ∀ i ∈ places, i < tape.length

/-! ## Acceptance -/

theorem canStop_iff : ∀ tape : Tape, canStop tape = true ↔ TapeSpells tape []
  | [] => by simp [canStop, TapeSpells]
  | .stop :: _ => by simp [canStop, TapeSpells]
  | .slot s :: r => by simp [canStop, TapeSpells, canStop_iff r]

theorem placesAccept_iff (tape : Tape) (places : List Nat) :
    placesAccept tape places = true ↔ PlacesSpell tape places [] := by
  simp [placesAccept, PlacesSpell, List.any_eq_true, canStop_iff]

/-! ## One digit -/

theorem placesSpell_cons (tape : Tape) (i : Nat) (places : List Nat) (w : List Digit) :
    PlacesSpell tape (i :: places) w ↔ TapeSpells (tape.drop i) w ∨ PlacesSpell tape places w := by
  simp [PlacesSpell]

theorem not_placesSpell_nil (tape : Tape) (w : List Digit) : ¬ PlacesSpell tape [] w := by
  simp [PlacesSpell]

theorem drop_succ_of_drop_eq_cons {α : Type} (l : List α) (i : Nat) (a : α) (r : List α)
    (h : l.drop i = a :: r) : l.drop (i + 1) = r := by
  rw [← List.drop_drop, h]
  rfl

/-- The places left after the head of the tape, and whether the head is among them. -/
theorem places_at (place : Nat) (places : List Nat) (hasc : places.Pairwise (· < ·))
    (hge : ∀ i ∈ places, place ≤ i) :
    ∃ rest, (if places.head? == some place then places.tail else places) = rest ∧
      rest.Pairwise (· < ·) ∧ (∀ i ∈ rest, place + 1 ≤ i) ∧
      ((places.head? == some place) = true ∧ places = place :: rest ∨
        (places.head? == some place) = false ∧ places = rest) := by
  cases places with
  | nil => exact ⟨[], rfl, List.Pairwise.nil, by simp, Or.inr ⟨rfl, rfl⟩⟩
  | cons p ps =>
    obtain ⟨hp, hps⟩ := List.pairwise_cons.mp hasc
    have hple := hge p (List.mem_cons_self ..)
    by_cases h : p = place
    · subst h
      exact ⟨ps, by simp, hps, fun i hi => hp i hi, Or.inl ⟨by simp, rfl⟩⟩
    · refine ⟨p :: ps, by simp [h], hasc, fun i hi => ?_, Or.inr ⟨by simp [h], rfl⟩⟩
      rcases List.mem_cons.mp hi with rfl | hi
      · omega
      · have := hp i hi
        omega

/-- One cell of the sweep: `rest` are the places behind the head, `here` says that the head is a
place or is reached by skipping. -/
theorem sweep_cons (d : Digit) (place : Nat) (places : List Nat) (carried : Bool) (c : Cell)
    (r : Tape) (hasc : places.Pairwise (· < ·)) (hge : ∀ i ∈ places, place ≤ i) :
    ∃ here rest, rest.Pairwise (· < ·) ∧ (∀ i ∈ rest, place + 1 ≤ i) ∧
      (∀ full w, (here = true ∧ TapeSpells (full.drop place) w ∨ PlacesSpell full rest w) ↔
        (carried = true ∧ TapeSpells (full.drop place) w ∨ PlacesSpell full places w)) ∧
      sweep d place places carried (c :: r) =
        if !here && rest.isEmpty then []
        else
          match c with
          | .stop => sweep d (place + 1) rest false r
          | .slot s =>
            let later := sweep d (place + 1) rest (here && s.optional) r
            if here && s.digits.mem d then (place + 1) :: later else later := by
  obtain ⟨rest, hrest, hrasc, hrge, hcase⟩ := places_at place places hasc hge
  refine ⟨carried || (places.head? == some place), rest, hrasc, hrge, fun full w => ?_, ?_⟩
  · rcases hcase with ⟨hb, hp⟩ | ⟨hb, hp⟩
    · rw [hp, placesSpell_cons, ← hp, hb]
      cases carried <;> simp
    · rw [hb, hp]
      cases carried <;> simp
  · subst hrest
    cases c <;> rfl

theorem tapeSpells_slot_cons (s : Slot) (r : Tape) (d : Digit) (v : List Digit) :
    TapeSpells (Cell.slot s :: r) (d :: v) ↔
      s.optional = true ∧ TapeSpells r (d :: v) ∨ s.digits.mem d = true ∧ TapeSpells r v := by
  refine or_congr_right ⟨?_, fun h => ⟨d, v, rfl, h⟩⟩
  rintro ⟨e, x, he, hm, hx⟩
  cases he
  exact ⟨hm, hx⟩

/-- A slot at the head: it is skipped, or takes the digit, or the words come from places behind. -/
theorem placesSpell_slot (full : Tape) (d : Digit) (v : List Digit) (place : Nat)
    (rest later : List Nat) (here : Bool) (s : Slot) (r : Tape) (hr : full.drop (place + 1) = r)
    (hlater : PlacesSpell full later v ↔
      (here && s.optional) = true ∧ TapeSpells r (d :: v) ∨ PlacesSpell full rest (d :: v)) :
    PlacesSpell full (if here && s.digits.mem d then (place + 1) :: later else later) v ↔
      here = true ∧ TapeSpells (Cell.slot s :: r) (d :: v) ∨ PlacesSpell full rest (d :: v) := by
  rw [tapeSpells_slot_cons]
  split
  · next htake =>
    rw [placesSpell_cons, hr, hlater]
    simp only [Bool.and_eq_true] at htake ⊢
    simp only [htake, true_and]
    constructor
    · rintro (h | h | h)
      · exact Or.inl (Or.inr h)
      · exact Or.inl (Or.inl h)
      · exact Or.inr h
    · rintro ((h | h) | h)
      · exact Or.inr (Or.inl h)
      · exact Or.inl h
      · exact Or.inr (Or.inr h)
  · next htake =>
    rw [hlater]
    simp only [Bool.and_eq_true] at htake ⊢
    constructor
    · rintro (⟨⟨h1, h2⟩, h3⟩ | h)
      · exact Or.inl ⟨h1, Or.inl ⟨h2, h3⟩⟩
      · exact Or.inr h
    · rintro (⟨h1, ⟨h2, h3⟩ | ⟨h2, -⟩⟩ | h)
      · exact Or.inl ⟨⟨h1, h2⟩, h3⟩
      · exact absurd ⟨h1, h2⟩ htake
      · exact Or.inr h

theorem sweep_spells (full : Tape) (d : Digit) (v : List Digit) :
    ∀ (tape : Tape) (place : Nat) (places : List Nat) (carried : Bool),
      full.drop place = tape → places.Pairwise (· < ·) → (∀ i ∈ places, place ≤ i) →
      (PlacesSpell full (sweep d place places carried tape) v ↔
        carried = true ∧ TapeSpells tape (d :: v) ∨ PlacesSpell full places (d :: v)) := by
  intro tape
  induction tape with
  | nil =>
    intro place places carried hdrop _ hge
    have hnone : ¬ PlacesSpell full places (d :: v) := by
      rintro ⟨i, hi, hw⟩
      have hlen := List.drop_eq_nil_iff.mp hdrop
      rw [List.drop_eq_nil_iff.mpr (Nat.le_trans hlen (hge i hi))] at hw
      exact hw
    simp [sweep, hnone, TapeSpells, not_placesSpell_nil]
  | cons c r ih =>
    intro place places carried hdrop hasc hge
    have hr := drop_succ_of_drop_eq_cons full place c r hdrop
    obtain ⟨here, rest, hrasc, hrge, hwords, heq⟩ := sweep_cons d place places carried c r hasc hge
    rw [← hdrop, ← hwords full (d :: v), hdrop, heq]
    split
    · next hstop =>
      simp only [Bool.and_eq_true, Bool.not_eq_true', List.isEmpty_iff] at hstop
      simp [hstop.1, hstop.2, not_placesSpell_nil]
    · cases c with
      | stop =>
        dsimp only
        rw [ih (place + 1) rest false hr hrasc hrge]
        simp [TapeSpells]
      | slot s =>
        have hlater := ih (place + 1) rest (here && s.optional) hr hrasc hrge
        exact placesSpell_slot full d v place rest _ here s r hr hlater

/-- What a sweep finds stands behind the head, ascending, and inside a tape that every slot is
followed by some cell. -/
theorem sweep_places (d : Digit) :
    ∀ (tape : Tape) (place : Nat) (places : List Nat) (carried : Bool),
      places.Pairwise (· < ·) → (∀ i ∈ places, place ≤ i) →
      (∀ i < tape.length, TapeReadable (tape.drop i)) →
      (sweep d place places carried tape).Pairwise (· < ·) ∧
        ∀ j ∈ sweep d place places carried tape, place + 1 ≤ j ∧ j < place + tape.length := by
  intro tape
  induction tape with
  | nil =>
    intro place places carried _ _ _
    exact ⟨List.Pairwise.nil, fun j hj => by cases hj⟩
  | cons c r ih =>
    intro place places carried hasc hge hread
    obtain ⟨here, rest, hrasc, hrge, -, heq⟩ := sweep_cons d place places carried c r hasc hge
    have hreadr : ∀ i < r.length, TapeReadable (r.drop i) := fun i hi =>
      hread (i + 1) (by rw [List.length_cons]; omega)
    have hlen : (c :: r).length = r.length + 1 := List.length_cons ..
    rw [heq]
    split
    · exact ⟨List.Pairwise.nil, fun j hj => by cases hj⟩
    · cases c with
      | stop =>
        obtain ⟨hp, hb⟩ := ih (place + 1) rest false hrasc hrge hreadr
        refine ⟨hp, fun j hj => ?_⟩
        have := hb j hj
        omega
      | slot s =>
        obtain ⟨hp, hb⟩ := ih (place + 1) rest (here && s.optional) hrasc hrge hreadr
        have hrne : r ≠ [] := by
          rintro rfl
          exact (hread 0 (Nat.succ_pos _)).2
        have hrpos : 0 < r.length := List.length_pos_iff.mpr hrne
        dsimp only
        split
        · refine ⟨List.pairwise_cons.mpr ⟨fun j hj => (hb j hj).1, hp⟩, fun j hj => ?_⟩
          rcases List.mem_cons.mp hj with rfl | hj
          · omega
          · have := hb j hj
            omega
        · refine ⟨hp, fun j hj => ?_⟩
          have := hb j hj
          omega

/-- No place of a state stands before the first. -/
theorem PlacesIn.head_le (tape : Tape) (places : List Nat) (h : PlacesIn tape places) :
    ∀ i ∈ places, places.headD 0 ≤ i := by
  intro i hi
  cases places with
  | nil => cases hi
  | cons p ps =>
    rcases List.mem_cons.mp hi with rfl | hi
    · exact Nat.le_refl _
    · exact Nat.le_of_lt ((List.pairwise_cons.mp h.ascending).1 i hi)

theorem after_spells (tape : Tape) (places : List Nat) (h : PlacesIn tape places) (d : Digit)
    (v : List Digit) :
    PlacesSpell tape (after tape places d) v ↔ PlacesSpell tape places (d :: v) := by
  rw [after, sweep_spells tape d v _ _ _ _ rfl h.ascending h.head_le]
  simp

/-- A state that a digit leads to has its places behind the first one it comes from. -/
theorem after_places (tape : Tape) (hread : ∀ i < tape.length, TapeReadable (tape.drop i))
    (places : List Nat) (h : PlacesIn tape places) (d : Digit) (hne : after tape places d ≠ []) :
    PlacesIn tape (after tape places d) ∧ places.headD 0 < (after tape places d).headD 0 := by
  have hhead : places.headD 0 < tape.length := by
    obtain ⟨p, ps, rfl⟩ := List.exists_cons_of_ne_nil h.ne_nil
    exact h.inside p (List.mem_cons_self ..)
  obtain ⟨hp, hb⟩ := sweep_places d (tape.drop (places.headD 0)) (places.headD 0) places false
    h.ascending h.head_le fun i hi => by
      rw [List.drop_drop]
      rw [List.length_drop] at hi
      exact hread _ (by omega)
  have hb' : ∀ j ∈ after tape places d, places.headD 0 < j ∧ j < tape.length := by
    intro j hj
    obtain ⟨h1, h2⟩ := hb j hj
    rw [List.length_drop] at h2
    omega
  refine ⟨⟨hne, hp, fun j hj => (hb' j hj).2⟩, ?_⟩
  obtain ⟨q, qs, hq⟩ := List.exists_cons_of_ne_nil hne
  rw [hq] at hb' ⊢
  exact (hb' q (List.mem_cons_self ..)).1

theorem PlacesIn.exists_word (tape : Tape)
    (hread : ∀ i < tape.length, TapeReadable (tape.drop i)) (places : List Nat)
    (h : PlacesIn tape places) : ∃ w, PlacesSpell tape places w := by
  obtain ⟨i, hi⟩ := List.exists_mem_of_ne_nil _ h.ne_nil
  obtain ⟨w, hw⟩ := (hread i (h.inside i hi)).exists_word
  exact ⟨w, i, hi, hw⟩

/-! ## All states -/

/-- Each state stands before those it leads to. -/
def ClosedUnderAfter (tape : Tape) : List (List Nat) → Prop
  | [] => True
  | s :: ss => (∀ d, after tape s d = [] ∨ after tape s d ∈ ss) ∧ ClosedUnderAfter tape ss

theorem closedUnderAfter_append (tape : Tape) (a b : List (List Nat))
    (hab : ∀ s ∈ a, ∀ d, after tape s d = [] ∨ after tape s d ∈ b) (hb : ClosedUnderAfter tape b) :
    ClosedUnderAfter tape (a ++ b) := by
  induction a with
  | nil => exact hb
  | cons s a ih =>
    refine ⟨fun d => ?_, ih fun t ht => hab t (List.mem_cons_of_mem _ ht)⟩
    exact (hab s (List.mem_cons_self ..) d).imp id (List.mem_append_right a)

/-- The words of `s` are what some word of digits leaves of the words of `p`. -/
def LedFrom (tape : Tape) (p s : List Nat) : Prop :=
  ∃ u, ∀ v, PlacesSpell tape s v ↔ PlacesSpell tape p (u ++ v)

theorem LedFrom.refl (tape : Tape) (s : List Nat) : LedFrom tape s s := ⟨[], fun _ => Iff.rfl⟩

theorem LedFrom.of_after (tape : Tape) (p s : List Nat) (hp : PlacesIn tape p) (d : Digit)
    (h : LedFrom tape (after tape p d) s) : LedFrom tape p s := by
  obtain ⟨u, hu⟩ := h
  exact ⟨d :: u, fun v => (hu v).trans (after_spells tape p hp d (u ++ v))⟩

/-! ## Exploring -/

/-- States that wait to be explored, none before `first`. -/
def Waiting (tape : Tape) (first : Nat) (pending : List (List Nat)) : Prop :=
  ∀ s ∈ pending, PlacesIn tape s ∧ first ≤ s.headD 0

/-- What exploring the pending states finds. -/
structure Explored (tape : Tape) (first : Nat) (pending found : List (List Nat)) : Prop where
  pending_mem : ∀ s ∈ pending, s ∈ found
  places : ∀ s ∈ found, PlacesIn tape s ∧ first ≤ s.headD 0
  closed : ClosedUnderAfter tape found
  led : ∀ s ∈ found, ∃ p ∈ pending, LedFrom tape p s

/-- Explored in this round. -/
def hereOf (first : Nat) (pending : List (List Nat)) : List (List Nat) :=
  (pending.filter fun s => s.head? == some first).eraseDups

/-- Waiting for the next round. -/
def nextOf (tape : Tape) (first : Nat) (pending : List (List Nat)) : List (List Nat) :=
  (((hereOf first pending).flatMap (successors tape)).filter fun s => !s.isEmpty).eraseDups
    ++ pending.filter fun s => s.head? != some first

section

variable (tape : Tape) (first : Nat) (pending : List (List Nat))

theorem mem_hereOf (s : List Nat) : s ∈ hereOf first pending ↔ s ∈ pending ∧ s.head? = some first := by
  rw [hereOf, List.mem_eraseDups, List.mem_filter, beq_iff_eq]

theorem mem_nextOf (s : List Nat) : s ∈ nextOf tape first pending ↔
    (s ≠ [] ∧ ∃ p ∈ hereOf first pending, ∃ d, after tape p d = s) ∨
      s ∈ pending ∧ s.head? ≠ some first := by
  rw [nextOf, List.mem_append, List.mem_eraseDups, List.mem_filter, List.mem_filter, bne_iff_ne]
  refine or_congr_left ?_
  simp only [List.mem_flatMap, successors_eq, List.mem_map, DigitSet.mem_all,
    true_and, Bool.not_eq_true', List.isEmpty_eq_false_iff]
  exact and_comm

variable (hpending : Waiting tape first pending)

include hpending

theorem waiting_next (hread : ∀ i < tape.length, TapeReadable (tape.drop i)) :
    Waiting tape (first + 1) (nextOf tape first pending) := by
  intro s hs
  rcases (mem_nextOf tape first pending s).mp hs with ⟨hne, p, hp, d, rfl⟩ | ⟨hs, hhead⟩
  · obtain ⟨hin, hfirst⟩ := hpending p ((mem_hereOf first pending p).mp hp).1
    obtain ⟨hin', hlt⟩ := after_places tape hread p hin d hne
    exact ⟨hin', by omega⟩
  · obtain ⟨hin, hfirst⟩ := hpending s hs
    obtain ⟨i, is, rfl⟩ := List.exists_cons_of_ne_nil hin.ne_nil
    refine ⟨hin, ?_⟩
    have hne : i ≠ first := fun h => hhead (by rw [List.head?_cons, h])
    have hle : first ≤ i := hfirst
    show first + 1 ≤ i
    omega

/-- The states of this round go before those found in the next ones. -/
theorem Explored.step (found : List (List Nat))
    (h : Explored tape (first + 1) (nextOf tape first pending) found) :
    Explored tape first pending (hereOf first pending ++ found) where
  pending_mem s hs := by
    by_cases hhead : s.head? = some first
    · exact List.mem_append_left _ ((mem_hereOf first pending s).mpr ⟨hs, hhead⟩)
    · refine List.mem_append_right _ (h.pending_mem s ?_)
      exact (mem_nextOf tape first pending s).mpr (Or.inr ⟨hs, hhead⟩)
  places s hs := by
    rcases List.mem_append.mp hs with hs | hs
    · exact hpending s ((mem_hereOf first pending s).mp hs).1
    · obtain ⟨hin, hle⟩ := h.places s hs
      exact ⟨hin, by omega⟩
  closed := by
    refine closedUnderAfter_append tape _ _ (fun s hs d => ?_) h.closed
    by_cases h0 : after tape s d = []
    · exact Or.inl h0
    · refine Or.inr (h.pending_mem _ ?_)
      exact (mem_nextOf tape first pending _).mpr (Or.inl ⟨h0, s, hs, d, rfl⟩)
  led s hs := by
    rcases List.mem_append.mp hs with hs | hs
    · exact ⟨s, ((mem_hereOf first pending s).mp hs).1, LedFrom.refl tape s⟩
    · obtain ⟨p, hp, hled⟩ := h.led s hs
      rcases (mem_nextOf tape first pending p).mp hp with ⟨-, q, hq, d, rfl⟩ | ⟨hp, -⟩
      · have hq := ((mem_hereOf first pending q).mp hq).1
        exact ⟨q, hq, hled.of_after tape q s (hpending q hq).1 d⟩
      · exact ⟨p, hp, hled⟩

end

theorem explore_explored (tape : Tape) (hread : ∀ i < tape.length, TapeReadable (tape.drop i)) :
    ∀ (rounds first : Nat) (pending : List (List Nat)), Waiting tape first pending →
      tape.length ≤ first + rounds →
      Explored tape first pending (explore tape rounds first pending) := by
  intro rounds
  induction rounds with
  | zero =>
    intro first pending hpending hlen
    have hnone : ∀ s ∈ pending, False := by
      intro s hs
      obtain ⟨hin, hfirst⟩ := hpending s hs
      obtain ⟨i, is, rfl⟩ := List.exists_cons_of_ne_nil hin.ne_nil
      have h1 := hin.inside i (List.mem_cons_self ..)
      have h2 : first ≤ i := hfirst
      omega
    exact ⟨fun s hs => (hnone s hs).elim, fun s hs => (nomatch hs), trivial, fun s hs => (nomatch hs)⟩
  | succ rounds ih =>
    intro first pending hpending hlen
    have hnext := waiting_next tape first pending hpending hread
    exact (ih (first + 1) _ hnext (by omega)).step tape first pending hpending

/-! ## Reachable states -/

theorem beginnings_places (place : Nat) (as : List (List Slot)) :
    (beginnings place as).Pairwise (· < ·) ∧
      ∀ i ∈ beginnings place as, place ≤ i ∧ i < place + (tapeOf as).length := by
  induction as generalizing place with
  | nil => exact ⟨List.Pairwise.nil, fun i hi => by cases hi⟩
  | cons a as ih =>
    obtain ⟨hasc, hin⟩ := ih (place + a.length + 1)
    have hlen : (tapeOf (a :: as)).length = a.length + 1 + (tapeOf as).length := by
      rw [tapeOf_cons, List.length_append, List.length_map, List.length_cons]
      omega
    refine ⟨List.pairwise_cons.mpr ⟨fun i hi => ?_, hasc⟩, fun i hi => ?_⟩
    · have := hin i hi
      omega
    · rcases List.mem_cons.mp hi with rfl | hi
      · omega
      · have := hin i hi
        omega

theorem beginnings_placesIn (as : List (List Slot)) (hne : as ≠ []) :
    PlacesIn (tapeOf as) (beginnings 0 as) := by
  obtain ⟨hasc, hin⟩ := beginnings_places 0 as
  refine ⟨?_, hasc, fun i hi => ?_⟩
  · obtain ⟨a, as, rfl⟩ := List.exists_cons_of_ne_nil hne
    exact List.cons_ne_nil _ _
  · have := hin i hi
    omega

theorem reachable_explored (as : List (List Slot)) (hne : as ≠ []) (hslots : SlotsProper as) :
    Explored (tapeOf as) 0 [beginnings 0 as] (reachable as) := by
  refine explore_explored (tapeOf as) (tapeReadable_drop as hslots) _ 0 _ (fun s hs => ?_) (by omega)
  rw [List.mem_singleton.mp hs]
  exact ⟨beginnings_placesIn as hne, Nat.zero_le _⟩

/-- The state of all beginnings comes first. -/
theorem reachable_head (as : List (List Slot)) (hne : as ≠ []) :
    ∃ rest, reachable as = beginnings 0 as :: rest := by
  obtain ⟨a, as, rfl⟩ := List.exists_cons_of_ne_nil hne
  have hlen : (tapeOf (a :: as)).length = (tapeOf (a :: as)).length - 1 + 1 := by
    rw [tapeOf_cons, List.length_append, List.length_cons]
    omega
  show ∃ rest, explore _ _ 0 _ = _
  rw [hlen, explore]
  simp [beginnings, List.eraseDups_cons]

end NumberPlan
