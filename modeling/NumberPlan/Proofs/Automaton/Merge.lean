import Mathlib.Data.List.Nodup
import NumberPlan.Automaton.Merge
import NumberPlan.Proofs.Automaton.Minimal
import NumberPlan.Proofs.Automaton.Subset
import NumberPlan.Proofs.Text.Entries

/-!
# Merged automata are minimal

Visiting a state gives it a class that accepts its words (`Merging.Sound.visit`); so do all
visits together, where each state is visited after those it leads to (`Merging.sound_foldr`).

    m = merge tape (s :: ss) → m.Minimal ∧ (m.accepts m.start w ↔ PlacesSpell tape s w)
                                                                          (merge_minimal)
-/

namespace NumberPlan

namespace Merging

/-- The automaton of the classes found so far. -/
def built (g : Merging) (start : Nat) : Automaton :=
  ⟨(g.classes.map (·.1)).reverse.toArray, start⟩

/-- What holds once `sets` are visited. -/
structure Sound (tape : Tape) (sets : List (List Nat)) (g : Merging) : Prop where
  keys : g.classOf.map (·.1) = sets
  numbered : g.classes.map (·.2) = (List.range g.classes.length).reverse
  nodup : (g.classes.map (·.1)).Nodup
  descends : ∀ s d t, ((g.built 0).state s).next d = some t → t < s
  spells : ∀ s c, (s, c) ∈ g.classOf →
    c < g.classes.length ∧ ∀ w, (g.built 0).accepts c w = true ↔ PlacesSpell tape s w
  covered : ∀ c < g.classes.length, ∃ s, (s, c) ∈ g.classOf

theorem size_built (g : Merging) (start : Nat) : (g.built start).size = g.classes.length := by
  simp [built, Automaton.size]

theorem state_built (g : Merging) (start s : Nat) :
    (g.built start).state s = (g.classes.map (·.1)).reverse.getD s State.sink := by
  simp [built, Automaton.state]

theorem next_view (g : Merging) (tape : Tape) (places : List Nat) (d : Digit) :
    (g.view tape places).next d =
      if (after tape places d).isEmpty then none else g.classOf.lookup (after tape places d) := by
  have hall : Digit.all[d.val]? = some d := by revert d; decide
  simp [view, State.next, successors_eq, List.getElem?_map, hall]

/-- The number of a class is its place among the classes. -/
theorem state_of_mem (g : Merging)
    (hnum : g.classes.map (·.2) = (List.range g.classes.length).reverse) (st : State) (c : Nat)
    (h : (st, c) ∈ g.classes) : c < g.classes.length ∧ (g.built 0).state c = st := by
  obtain ⟨i, hi, hget⟩ := List.mem_iff_getElem.mp h
  have hi' : i < (g.classes.map (·.2)).length := by
    rw [List.length_map]
    exact hi
  have hc : (g.classes.map (·.2))[i] = c := by
    rw [List.getElem_map, hget]
  have hc' : c = g.classes.length - 1 - i := by
    rw [← hc]
    simp [hnum]
  have hlt : c < g.classes.length := by omega
  refine ⟨hlt, ?_⟩
  have hrev : g.classes.length - 1 - c = i := by omega
  rw [state_built, List.getD_eq_getElem?_getD, List.getElem?_reverse (by rw [List.length_map]; exact hlt)]
  simp [hrev, hi, hget]

/-- A class accepts the words of the places it is the view of. -/
theorem accepts_view (g : Merging) (m : Automaton) (tape : Tape) (places : List Nat) (c : Nat)
    (hplaces : PlacesIn tape places) (hstate : m.state c = g.view tape places)
    (hafter : ∀ d, after tape places d = [] ∨ after tape places d ∈ g.classOf.map (·.1))
    (hclass : ∀ s t, (s, t) ∈ g.classOf → ∀ w, m.accepts t w = true ↔ PlacesSpell tape s w)
    (w : List Digit) : m.accepts c w = true ↔ PlacesSpell tape places w := by
  cases w with
  | nil =>
    rw [Automaton.accepts_nil, hstate]
    exact placesAccept_iff tape places
  | cons d w =>
    have hnext := next_view g tape places d
    rw [← hstate] at hnext
    rw [← after_spells tape places hplaces d w]
    by_cases h0 : after tape places d = []
    · rw [h0] at hnext ⊢
      rw [m.accepts_cons_none c d w hnext]
      simp [not_placesSpell_nil]
    · rw [if_neg (by simpa using h0)] at hnext
      obtain ⟨e, he, hkey⟩ := List.mem_map.mp ((hafter d).resolve_left h0)
      cases hl : g.classOf.lookup (after tape places d) with
      | none =>
        have := List.lookup_eq_none_iff.mp hl e he
        simp [hkey] at this
      | some t =>
        rw [hl] at hnext
        rw [m.accepts_cons_some c t d w hnext]
        exact hclass _ t (mem_of_lookup _ _ _ hl) w

/-- With a new class. -/
def extend (g : Merging) (places : List Nat) (st : State) : Merging :=
  ⟨(places, g.classes.length) :: g.classOf, (st, g.classes.length) :: g.classes⟩

theorem state_extend_lt (g : Merging) (places : List Nat) (st : State) (c : Nat)
    (hc : c < g.classes.length) :
    ((g.extend places st).built 0).state c = (g.built 0).state c := by
  rw [state_built, state_built, extend, List.map_cons, List.reverse_cons,
    List.getD_eq_getElem?_getD, List.getD_eq_getElem?_getD,
    List.getElem?_append_left (by simpa using hc)]

/-- A new class leaves the words of the others as they are. -/
theorem accepts_extend (g : Merging) (places : List Nat) (st : State)
    (hdesc : ∀ s d t, ((g.built 0).state s).next d = some t → t < s) (w : List Digit) :
    ∀ c < g.classes.length,
      ((g.extend places st).built 0).accepts c w = (g.built 0).accepts c w := by
  refine Automaton.accepts_congr _ _ g.classes.length (fun s hs => ?_) (fun s hs d t ht => ?_) w
  · exact g.state_extend_lt places st s hs
  · exact Nat.lt_trans (hdesc s d t ht) hs

theorem sound_empty (tape : Tape) : Sound tape [] empty where
  keys := rfl
  numbered := rfl
  nodup := List.nodup_nil
  descends := fun s d t h => by
    rw [(empty.built 0).state_of_size_le s (Nat.zero_le s), State.next_sink] at h
    cases h
  spells := fun s c h => (nomatch h)
  covered := fun c h => (nomatch h)

section

variable (tape : Tape) (sets : List (List Nat)) (g : Merging) (h : Sound tape sets g)
  (places : List Nat) (hplaces : PlacesIn tape places)
  (hafter : ∀ d, after tape places d = [] ∨ after tape places d ∈ g.classOf.map (·.1))

include h

/-- The edges of a view lead to classes that exist. -/
theorem Sound.view_next_lt (d : Digit) (t : Nat) (ht : (g.view tape places).next d = some t) :
    t < g.classes.length := by
  rw [next_view] at ht
  split at ht
  · cases ht
  · exact (h.spells _ t (mem_of_lookup _ _ _ ht)).1

include hplaces hafter

theorem Sound.visit_known (c : Nat) (hl : g.classes.lookup (g.view tape places) = some c) :
    Sound tape (places :: sets) ⟨(places, c) :: g.classOf, g.classes⟩ := by
  obtain ⟨hc, hstate⟩ := state_of_mem g h.numbered _ c (mem_of_lookup _ _ _ hl)
  refine ⟨by rw [List.map_cons, h.keys], h.numbered, h.nodup, h.descends, fun s t hs => ?_,
    fun t ht => ?_⟩
  · rcases List.mem_cons.mp hs with he | hs
    · cases he
      exact ⟨hc, accepts_view g _ tape places c hplaces hstate hafter fun s t hs =>
        (h.spells s t hs).2⟩
    · exact h.spells s t hs
  · obtain ⟨s, hs⟩ := h.covered t ht
    exact ⟨s, List.mem_cons_of_mem _ hs⟩

theorem Sound.visit_new (hl : g.classes.lookup (g.view tape places) = none) :
    Sound tape (places :: sets) (g.extend places (g.view tape places)) := by
  generalize hv : g.view tape places = st at hl
  have hnumbered : (g.extend places st).classes.map (·.2) =
      (List.range (g.extend places st).classes.length).reverse := by
    rw [extend, List.map_cons, h.numbered, List.length_cons, List.range_succ, List.reverse_append]
    rfl
  have hlen : (g.extend places st).classes.length = g.classes.length + 1 := rfl
  have hstate : ((g.extend places st).built 0).state g.classes.length = st :=
    (state_of_mem _ hnumbered st _ (List.mem_cons_self ..)).2
  have hold : ∀ s c, (s, c) ∈ g.classOf → c < g.classes.length ∧
      ∀ w, ((g.extend places st).built 0).accepts c w = true ↔ PlacesSpell tape s w := by
    intro s c hs
    obtain ⟨hc, hw⟩ := h.spells s c hs
    exact ⟨hc, fun w => by rw [accepts_extend g places st h.descends w c hc, hw w]⟩
  refine ⟨?_, hnumbered, ?_, fun s d t ht => ?_, fun s t hs => ?_, fun t ht => ?_⟩
  · rw [extend, List.map_cons, h.keys]
  · refine List.nodup_cons.mpr ⟨fun hmem => ?_, h.nodup⟩
    obtain ⟨e, he, hkey⟩ := List.mem_map.mp hmem
    have := List.lookup_eq_none_iff.mp hl e he
    simp [hkey] at this
  · have hs := ((g.extend places st).built 0).lt_size_of_next s d t ht
    rw [size_built, hlen] at hs
    by_cases hlt : s < g.classes.length
    · rw [state_extend_lt g places st s hlt] at ht
      exact h.descends s d t ht
    · obtain rfl : s = g.classes.length := by omega
      rw [hstate, ← hv] at ht
      exact h.view_next_lt tape sets g places d t ht
  · rcases List.mem_cons.mp hs with he | hs
    · cases he
      exact ⟨by omega, accepts_view g _ tape places _ hplaces (hstate.trans hv.symm) hafter
        fun s t hs => (hold s t hs).2⟩
    · obtain ⟨hc, hw⟩ := hold s t hs
      exact ⟨by omega, hw⟩
  · by_cases hlt : t < g.classes.length
    · obtain ⟨s, hs⟩ := h.covered t hlt
      exact ⟨s, List.mem_cons_of_mem _ hs⟩
    · obtain rfl : t = g.classes.length := by omega
      exact ⟨places, List.mem_cons_self ..⟩

end

/-- Visiting a state after all those it leads to. -/
theorem Sound.visit (tape : Tape) (sets : List (List Nat)) (g : Merging) (h : Sound tape sets g)
    (places : List Nat) (hplaces : PlacesIn tape places)
    (hafter : ∀ d, after tape places d = [] ∨ after tape places d ∈ sets) :
    Sound tape (places :: sets) (g.visit tape places) := by
  rw [← h.keys] at hafter
  unfold Merging.visit
  dsimp only
  split
  · next c hl => exact h.visit_known tape sets g places hplaces hafter c hl
  · next hl => exact h.visit_new tape sets g places hplaces hafter hl

/-- Visiting all states, each after those it leads to. -/
theorem sound_foldr (tape : Tape) :
    ∀ sets : List (List Nat), (∀ s ∈ sets, PlacesIn tape s) → ClosedUnderAfter tape sets →
      Sound tape sets (sets.foldr (Merging.visit tape) empty)
  | [], _, _ => sound_empty tape
  | s :: ss, hin, hclosed =>
    (sound_foldr tape ss (fun t ht => hin t (List.mem_cons_of_mem _ ht)) hclosed.2).visit tape ss _ s
      (hin s (List.mem_cons_self ..)) hclosed.1

end Merging

/-! ## The merged automaton -/

theorem Merging.accepts_built (g : Merging) (start c : Nat) (w : List Digit) :
    (g.built start).accepts c w = (g.built 0).accepts c w := by
  induction w generalizing c with
  | nil => rfl
  | cons d w ih =>
    cases h : ((g.built 0).state c).next d with
    | none => rw [(g.built 0).accepts_cons_none c d w h, (g.built start).accepts_cons_none c d w h]
    | some t =>
      rw [(g.built 0).accepts_cons_some c t d w h, (g.built start).accepts_cons_some c t d w h, ih]

/-- The start is the class of the first state. -/
theorem merge_eq_built (tape : Tape) (s : List Nat) (ss : List (List Nat)) (g : Merging)
    (hg : (s :: ss).foldr (Merging.visit tape) Merging.empty = g)
    (h : Merging.Sound tape (s :: ss) g) :
    ∃ start, (s, start) ∈ g.classOf ∧ merge tape (s :: ss) = g.built start := by
  have hkeys := h.keys
  unfold merge
  rw [hg]
  cases hc : g.classOf with
  | nil =>
    rw [hc] at hkeys
    cases hkeys
  | cons e es =>
    obtain ⟨k, c⟩ := e
    rw [hc, List.map_cons] at hkeys
    cases (List.cons.inj hkeys).1
    exact ⟨c, List.mem_cons_self .., by simp [Merging.built, hc]⟩

namespace Merging.Sound

variable (tape : Tape) (sets : List (List Nat)) (g : Merging) (h : Sound tape sets g) (start : Nat)

include h

theorem words (s : List Nat) (c : Nat) (hs : (s, c) ∈ g.classOf) (w : List Digit) :
    (g.built start).accepts c w = true ↔ PlacesSpell tape s w := by
  rw [g.accepts_built, (h.spells s c hs).2 w]

theorem mem_sets (s : List Nat) (c : Nat) (hs : (s, c) ∈ g.classOf) : s ∈ sets := by
  rw [← h.keys]
  exact List.mem_map_of_mem hs

theorem next_lt_size (c : Nat) (d : Digit) (t : Nat) (ht : ((g.built start).state c).next d = some t) :
    t < (g.built start).size := by
  have hlt := h.descends c d t ht
  have hsize := (g.built start).lt_size_of_next c d t ht
  omega

/-- Classes of one state are equal. -/
theorem state_injective (c : Nat) (hc : c < (g.built start).size) (c' : Nat)
    (hc' : c' < (g.built start).size)
    (hcc : (g.built start).state c = (g.built start).state c') : c = c' := by
  rw [g.size_built] at hc hc'
  have hnd := List.nodup_reverse.mpr h.nodup
  rw [g.state_built, g.state_built, List.getD_eq_getElem?_getD, List.getD_eq_getElem?_getD,
    List.getElem?_eq_getElem (by simpa using hc), List.getElem?_eq_getElem (by simpa using hc')]
    at hcc
  exact (List.Nodup.getElem_inj_iff hnd).mp hcc

variable (hread : ∀ i < tape.length, TapeReadable (tape.drop i)) (hin : ∀ s ∈ sets, PlacesIn tape s)

include hread hin

theorem live (c : Nat) (hc : c < (g.built start).size) :
    ∃ w, (g.built start).accepts c w = true := by
  rw [g.size_built] at hc
  obtain ⟨s, hs⟩ := h.covered c hc
  obtain ⟨w, hw⟩ := (hin s (h.mem_sets tape sets g s c hs)).exists_word tape hread
  exact ⟨w, (h.words tape sets g start s c hs w).mpr hw⟩

/-- Classes of one future are equal. -/
theorem distinct : ∀ c < (g.built start).size, ∀ c' < (g.built start).size,
    (∀ w, (g.built start).accepts c w = (g.built start).accepts c' w) → c = c' :=
  (g.built start).distinct_of_state_injective h.descends (h.live tape sets g start hread hin)
    (h.state_injective tape sets g start)

/-- A word that leads to the places of a class leads to the class. -/
theorem reached (s : List Nat) (hs : (s, start) ∈ g.classOf) (hled : ∀ t ∈ sets, LedFrom tape s t)
    (c : Nat) (hc : c < (g.built start).size) : ∃ u, (g.built start).go start u = some c := by
  have hc' := hc
  rw [g.size_built] at hc'
  obtain ⟨t, ht⟩ := h.covered c hc'
  obtain ⟨u, hu⟩ := hled t (h.mem_sets tape sets g t c ht)
  have hsplit : ∀ v, (g.built start).accepts c v =
      ((g.built start).go start u).any fun q => (g.built start).accepts q v := by
    intro v
    rw [← Automaton.accepts_append, Bool.eq_iff_iff, h.words tape sets g start t c ht,
      h.words tape sets g start s start hs]
    exact hu v
  refine ⟨u, ?_⟩
  cases hgo : (g.built start).go start u with
  | none =>
    obtain ⟨v, hv⟩ := h.live tape sets g start hread hin c hc
    rw [hsplit v, hgo] at hv
    cases hv
  | some q =>
    rw [hgo] at hsplit
    have hlt : start < (g.built start).size := by
      rw [g.size_built]
      exact (h.spells s start hs).1
    have hq := (g.built start).go_lt_size (h.next_lt_size tape sets g start) u start q hlt hgo
    rw [h.distinct tape sets g start hread hin c hc q hq hsplit]

end Merging.Sound

/-- The automaton of states that are all led to from the first has its words and is minimal. -/
theorem merge_minimal (tape : Tape) (hread : ∀ i < tape.length, TapeReadable (tape.drop i))
    (s : List Nat) (ss : List (List Nat)) (hin : ∀ t ∈ s :: ss, PlacesIn tape t)
    (hclosed : ClosedUnderAfter tape (s :: ss)) (hled : ∀ t ∈ s :: ss, LedFrom tape s t) :
    (merge tape (s :: ss)).Minimal ∧
      ∀ w, (merge tape (s :: ss)).accepts (merge tape (s :: ss)).start w = true ↔
        PlacesSpell tape s w := by
  have h := Merging.sound_foldr tape (s :: ss) hin hclosed
  generalize hg : (s :: ss).foldr (Merging.visit tape) Merging.empty = g at h
  obtain ⟨start, hstart, heq⟩ := merge_eq_built tape s ss g hg h
  rw [heq]
  refine ⟨⟨?_, h.next_lt_size tape _ g start, ⟨fun c => (g.built start).size - c, ?_⟩,
    h.live tape _ g start hread hin, ?_, h.distinct tape _ g start hread hin⟩,
    h.words tape _ g start s start hstart⟩
  · show start < (g.built start).size
    rw [g.size_built]
    exact (h.spells s start hstart).1
  · intro c d t ht
    have hlt := h.descends c d t ht
    have hsize := (g.built start).lt_size_of_next c d t ht
    show (g.built start).size - c < (g.built start).size - t
    omega
  · exact h.reached tape _ g start hread hin s hstart hled

/-- The automaton of some alternatives is minimal and has their words. -/
theorem merge_reachable_minimal (as : List (List Slot)) (hne : as ≠ []) (hslots : SlotsProper as) :
    (merge (tapeOf as) (reachable as)).Minimal ∧
      ∀ w, (merge (tapeOf as) (reachable as)).accepts (merge (tapeOf as) (reachable as)).start w
        = true ↔ ∃ a ∈ as, Spells a w := by
  have hexp := reachable_explored as hne hslots
  obtain ⟨rest, hrest⟩ := reachable_head as hne
  rw [hrest] at hexp ⊢
  obtain ⟨hmin, hwords⟩ := merge_minimal (tapeOf as) (tapeReadable_drop as hslots)
    (beginnings 0 as) rest (fun t ht => (hexp.places t ht).1) hexp.closed fun t ht => by
      obtain ⟨p, hp, hled⟩ := hexp.led t ht
      rw [List.mem_singleton.mp hp] at hled
      exact hled
  exact ⟨hmin, fun w => (hwords w).trans (placesSpell_beginnings as w)⟩

end NumberPlan
