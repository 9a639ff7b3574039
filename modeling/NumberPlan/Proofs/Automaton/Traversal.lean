import Mathlib.Data.List.Nodup
import Mathlib.Data.List.Perm.Subperm
import NumberPlan.Automaton.Numbering
import NumberPlan.Proofs.Automaton.Minimal

/-!
# The topological traversal

The queue and the states listed before are together the states all of whose sources are listed
(`Traversal`).  A step keeps this (`Traversal.step`), so the traversal of an automaton without
cycles lists every state once, after all its sources.

    m.Minimal → m.Topological m.topologicalOrder              (topologicalOrder_topological)
-/

namespace NumberPlan

/-! ## Edges -/

theorem State.mem_targets (s : State) (t : Nat) : t ∈ s.targets ↔ ∃ d, s.next d = some t := by
  unfold State.targets
  rw [List.mem_eraseDups, List.mem_filterMap]
  constructor
  · rintro ⟨d, -, h⟩
    exact ⟨d, h⟩
  · rintro ⟨d, h⟩
    exact ⟨d, DigitSet.mem_all d, h⟩

theorem State.isSink_iff (s : State) : s.isSink = true ↔ ∀ d, s.next d = none := by
  rw [State.isSink, List.isEmpty_iff, List.eq_nil_iff_forall_not_mem]
  constructor
  · intro h d
    cases hd : s.next d with
    | none => rfl
    | some t => exact absurd ((s.mem_targets t).mpr ⟨d, hd⟩) (h t)
  · intro h t ht
    obtain ⟨d, hd⟩ := (s.mem_targets t).mp ht
    simp [h d] at hd

theorem nodup_eraseDups {α : Type} [BEq α] [LawfulBEq α] : ∀ (n : Nat) (l : List α),
    l.length ≤ n → l.eraseDups.Nodup
  | _, [], _ => List.nodup_nil
  | 0, a :: l, h => absurd h (by simp)
  | n + 1, a :: l, h => by
    rw [List.eraseDups_cons]
    refine List.nodup_cons.mpr ⟨fun hmem => ?_, nodup_eraseDups n _ ?_⟩
    · have := (List.mem_filter.mp (List.mem_eraseDups.mp hmem)).2
      simp at this
    · have := List.length_filter_le (fun b => !b == a) l
      rw [List.length_cons] at h
      omega

theorem State.nodup_targets (s : State) : s.targets.Nodup := nodup_eraseDups _ _ (Nat.le_refl _)

namespace Automaton

/-- Some digit leads from `s` to `t`. -/
def Edge (m : Automaton) (s t : Nat) : Prop := ∃ d, (m.state s).next d = some t

theorem mem_targets_state (m : Automaton) (s t : Nat) : t ∈ (m.state s).targets ↔ m.Edge s t :=
  State.mem_targets _ t

theorem Edge.lt_size (m : Automaton) (s t : Nat) (h : m.Edge s t) : s < m.size := by
  obtain ⟨d, hd⟩ := h
  exact m.lt_size_of_next s d t hd

theorem targetTable_getD (m : Automaton) (s : Nat) :
    m.targetTable.getD s [] = (m.state s).targets := by
  unfold targetTable state
  rw [Array.getD_eq_getD_getElem?, Array.getD_eq_getD_getElem?, Array.getElem?_map]
  cases m.states[s]? with
  | none => decide
  | some st => rfl

theorem size_targetTable (m : Automaton) : m.targetTable.size = m.size := Array.size_map ..

theorem mem_sourcesIn (m : Automaton) (s t : Nat) : s ∈ sourcesIn m.targetTable t ↔ m.Edge s t := by
  unfold sourcesIn
  rw [List.mem_filter, List.mem_range, size_targetTable, targetTable_getD, List.contains_iff_mem,
    mem_targets_state]
  exact and_iff_right_of_imp (Edge.lt_size m s t)

theorem sources_getD (m : Automaton) (t : Nat) (ht : t < m.size) :
    ((Array.range m.size).map (sourcesIn m.targetTable)).getD t [] = sourcesIn m.targetTable t := by
  rw [Array.getD_eq_getD_getElem?, Array.getElem?_map, Array.getElem?_eq_getElem (by simpa using ht)]
  simp

/-! ## Steps -/

/-- The states listed and those waiting are the ones whose sources are all listed; no edge leads
back. -/
structure Traversal (m : Automaton) (queue visited : List Nat) : Prop where
  nodup : (visited ++ queue).Nodup
  ready : ∀ t, t ∈ visited ++ queue ↔ t < m.size ∧ ∀ s, m.Edge s t → s ∈ visited
  forward : visited.Pairwise fun a b => ¬ m.Edge a b

/-- The states that become ready once `s` is listed. -/
def readyAfter (m : Automaton) (s : Nat) (visited : List Nat) : List Nat :=
  (m.state s).targets.filter fun t =>
    (((Array.range m.size).map (sourcesIn m.targetTable)).getD t []).all (s :: visited).contains

theorem mem_readyAfter (m : Automaton) (hm : m.Minimal) (s t : Nat) (visited : List Nat) :
    t ∈ m.readyAfter s visited ↔ m.Edge s t ∧ ∀ q, m.Edge q t → q ∈ s :: visited := by
  unfold readyAfter
  rw [List.mem_filter, mem_targets_state]
  refine and_congr_right fun ⟨d, hd⟩ => ?_
  rw [m.sources_getD t (hm.next_lt s d t hd), List.all_eq_true]
  simp only [mem_sourcesIn, List.contains_iff_mem]

theorem not_edge_self (m : Automaton) (hm : m.Minimal) (s : Nat) : ¬ m.Edge s s := by
  obtain ⟨depth, hdepth⟩ := hm.acyclic
  rintro ⟨d, hd⟩
  exact Nat.lt_irrefl _ (hdepth s d s hd)

theorem Traversal.step (m : Automaton) (hm : m.Minimal) (s : Nat) (queue visited : List Nat)
    (h : m.Traversal (s :: queue) visited) :
    m.Traversal (queue ++ m.readyAfter s visited) (s :: visited) := by
  have hmem : ∀ t, t ∈ s :: visited ++ (queue ++ m.readyAfter s visited) ↔
      t ∈ visited ++ s :: queue ∨ t ∈ m.readyAfter s visited := by
    intro t
    simp only [List.cons_append, List.mem_cons, List.mem_append]
    tauto
  have hsnew : s ∉ visited := by
    have := (List.nodup_append.mp h.nodup).2.2
    exact fun hs => this s hs s (List.mem_cons_self ..) rfl
  have hsready := ((h.ready s).mp (List.mem_append_right _ (List.mem_cons_self ..))).2
  -- what becomes ready had the source `s`, so it was not ready before
  have hfresh : ∀ t ∈ m.readyAfter s visited, t ∉ visited ++ s :: queue := by
    intro t ht hold
    exact hsnew (((h.ready t).mp hold).2 s ((m.mem_readyAfter hm s t visited).mp ht).1)
  refine ⟨?_, fun t => ?_, List.pairwise_cons.mpr ⟨fun t ht he => ?_, h.forward⟩⟩
  · have hperm : (visited ++ s :: queue ++ m.readyAfter s visited).Perm
        (s :: visited ++ (queue ++ m.readyAfter s visited)) := by
      rw [List.append_assoc, List.cons_append, List.cons_append]
      exact List.perm_middle
    refine hperm.nodup_iff.mp (List.nodup_append.mpr ⟨h.nodup, ?_, fun a ha b hb hab => ?_⟩)
    · exact (State.nodup_targets _).filter _
    · exact hfresh b hb (hab ▸ ha)
  · rw [hmem]
    constructor
    · rintro (ht | ht)
      · obtain ⟨hlt, hall⟩ := (h.ready t).mp ht
        exact ⟨hlt, fun q hq => List.mem_cons_of_mem _ (hall q hq)⟩
      · obtain ⟨⟨d, hd⟩, hall⟩ := (m.mem_readyAfter hm s t visited).mp ht
        exact ⟨hm.next_lt s d t hd, hall⟩
    · rintro ⟨hlt, hall⟩
      by_cases he : m.Edge s t
      · exact Or.inr ((m.mem_readyAfter hm s t visited).mpr ⟨he, hall⟩)
      · refine Or.inl ((h.ready t).mpr ⟨hlt, fun q hq => ?_⟩)
        rcases List.mem_cons.mp (hall q hq) with rfl | hv
        · exact absurd hq he
        · exact hv
  · exact hsnew (((h.ready t).mp (List.mem_append_left _ ht)).2 s he)

/-- Without waiting states all are listed, by induction on the depth. -/
theorem Traversal.complete (m : Automaton) (hm : m.Minimal) (visited : List Nat)
    (h : m.Traversal [] visited) : ∀ t < m.size, t ∈ visited := by
  obtain ⟨depth, hdepth⟩ := hm.acyclic
  have hall : ∀ n t, depth t < n → t < m.size → t ∈ visited := by
    intro n
    induction n with
    | zero => exact fun t ht => absurd ht (Nat.not_lt_zero _)
    | succ n ih =>
      intro t hdt ht
      have hready := (h.ready t).mpr ⟨ht, fun s hs => ?_⟩
      · rwa [List.append_nil] at hready
      · have hlt := hs.lt_size
        obtain ⟨d, hd⟩ := hs
        exact ih s (by have := hdepth s d t hd; omega) hlt
  exact fun t ht => hall (depth t + 1) t (Nat.lt_succ_self _) ht

/-- A list of all states in which no edge leads back. -/
structure Topological (m : Automaton) (order : List Nat) : Prop where
  nodup : order.Nodup
  mem_iff : ∀ t, t ∈ order ↔ t < m.size
  forward : order.Pairwise fun a b => ¬ m.Edge b a

theorem Topological.perm {m : Automaton} {order : List Nat} (h : m.Topological order) :
    order.Perm (List.range m.size) :=
  (List.perm_ext_iff_of_nodup h.nodup List.nodup_range).mpr fun t => by
    rw [h.mem_iff, List.mem_range]

/-- No edge leads on from the last state. -/
theorem Topological.not_edge_last (m : Automaton) (hm : m.Minimal) (front : List Nat) (last : Nat)
    (h : m.Topological (front ++ [last])) (t : Nat) : ¬ m.Edge last t := by
  intro he
  obtain ⟨d, hd⟩ := he
  have hlast : last ∈ [last] := List.mem_singleton_self last
  rcases List.mem_append.mp ((h.mem_iff t).mpr (hm.next_lt last d t hd)) with hfront | ht
  · exact (List.pairwise_append.mp h.forward).2.2 t hfront last hlast ⟨d, hd⟩
  · obtain rfl := List.mem_singleton.mp ht
    exact m.not_edge_self hm _ ⟨d, hd⟩

theorem Traversal.topological (m : Automaton) (visited : List Nat) (queue : List Nat)
    (h : m.Traversal queue visited) (hall : ∀ t < m.size, t ∈ visited) :
    m.Topological visited.reverse := by
  refine ⟨List.nodup_reverse.mpr (List.nodup_append.mp h.nodup).1, fun t => ?_,
    List.pairwise_reverse.mpr h.forward⟩
  rw [List.mem_reverse]
  exact ⟨fun ht => ((h.ready t).mp (List.mem_append_left _ ht)).1, hall t⟩

theorem traverse_topological (m : Automaton) (hm : m.Minimal) :
    ∀ (fuel : Nat) (queue visited : List Nat), m.Traversal queue visited →
      fuel + visited.length = m.size →
      m.Topological (traverse m.targetTable ((Array.range m.size).map (sourcesIn m.targetTable))
        fuel queue visited) := by
  intro fuel
  induction fuel with
  | zero =>
    intro queue visited h hlen
    rw [traverse.eq_2 _ _ _ _ _ (fun _ _ _ h => by simp at h)]
    refine h.topological m visited queue fun t ht => ?_
    -- as many distinct states as there are
    have hnd := (List.nodup_append.mp h.nodup).1
    have hsub : visited ⊆ List.range m.size := fun a ha =>
      List.mem_range.mpr ((h.ready a).mp (List.mem_append_left _ ha)).1
    have hperm := (hnd.subperm hsub).perm_of_length_le (by rw [List.length_range]; omega)
    exact hperm.mem_iff.mpr (List.mem_range.mpr ht)
  | succ fuel ih =>
    intro queue visited h hlen
    cases queue with
    | nil =>
      rw [traverse.eq_2 _ _ _ _ _ (fun _ _ _ _ h => by simp at h)]
      exact h.topological m visited [] (h.complete m hm)
    | cons s queue =>
      rw [traverse]
      have hstep := h.step m hm s queue visited
      unfold readyAfter at hstep
      rw [targetTable_getD]
      exact ih _ _ hstep (by rw [List.length_cons]; omega)

/-! ## The traversal from the start -/

theorem depth_le_of_go (m : Automaton) (depth : Nat → Nat)
    (hdepth : ∀ s d t, (m.state s).next d = some t → depth s < depth t) (u : List Digit) :
    ∀ s t, m.go s u = some t → depth s ≤ depth t := by
  induction u with
  | nil =>
    intro s t h
    cases h
    exact Nat.le_refl _
  | cons d u ih =>
    intro s t h
    rw [go] at h
    split at h
    · cases h
    · next q hq => exact Nat.le_trans (Nat.le_of_lt (hdepth s d q hq)) (ih q t h)

theorem not_edge_start (m : Automaton) (hm : m.Minimal) (s : Nat) : ¬ m.Edge s m.start := by
  obtain ⟨depth, hdepth⟩ := hm.acyclic
  rintro ⟨d, hd⟩
  obtain ⟨u, hu⟩ := hm.reached s (m.lt_size_of_next s d _ hd)
  have h1 := m.depth_le_of_go depth hdepth u _ _ hu
  have h2 := hdepth s d _ hd
  omega

theorem exists_edge_of_ne_start (m : Automaton) (hm : m.Minimal) (t : Nat) (ht : t < m.size)
    (hne : t ≠ m.start) : ∃ s, m.Edge s t := by
  obtain ⟨u, hu⟩ := hm.reached t ht
  rcases List.eq_nil_or_concat u with rfl | ⟨v, d, rfl⟩
  · cases hu
    exact absurd rfl hne
  · rw [List.concat_eq_append, go_append] at hu
    obtain ⟨s, -, hs⟩ := Option.bind_eq_some_iff.mp hu
    refine ⟨s, d, ?_⟩
    rw [go] at hs
    split at hs
    · cases hs
    · next q hq =>
      cases hs
      exact hq

theorem traversal_start (m : Automaton) (hm : m.Minimal) : m.Traversal [m.start] [] := by
  refine ⟨List.nodup_singleton _, fun t => ?_, List.Pairwise.nil⟩
  rw [List.nil_append, List.mem_singleton]
  constructor
  · rintro rfl
    exact ⟨hm.start_lt, fun s hs => absurd hs (m.not_edge_start hm s)⟩
  · rintro ⟨ht, hnone⟩
    apply Classical.byContradiction
    intro hne
    obtain ⟨s, hs⟩ := m.exists_edge_of_ne_start hm t ht hne
    cases hnone s hs

theorem topologicalOrder_topological (m : Automaton) (hm : m.Minimal) :
    m.Topological m.topologicalOrder :=
  m.traverse_topological hm m.size [m.start] [] (m.traversal_start hm) rfl

end Automaton

end NumberPlan
