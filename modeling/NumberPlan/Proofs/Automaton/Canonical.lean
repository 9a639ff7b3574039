import NumberPlan.Proofs.Automaton.Merge
import NumberPlan.Proofs.Automaton.Traversal

/-!
# Canonical numbers

Renumbering by any order of all states that begins with the start keeps an automaton minimal
and its words (`renumber_minimal`, `accepts_renumber`).  The canonical order puts the only state
without edges second, so the layout order is topological.

    m.Minimal → m.canonical.Minimal                                       (canonical_minimal)
    m.Minimal → m.canonical.Topological m.canonical.layoutOrder           (layoutOrder_topological)
-/

namespace NumberPlan

namespace Automaton

/-! ## Renumbering -/

/-- Every state once, the start first. -/
structure Numbering (m : Automaton) (order : List Nat) : Prop where
  nodup : order.Nodup
  mem_iff : ∀ t, t ∈ order ↔ t < m.size
  head : order.head? = some m.start

section

variable (m : Automaton) (order : List Nat) (ho : m.Numbering order)

include ho

theorem Numbering.length_eq : order.length = m.size := by
  have hperm : order.Perm (List.range m.size) :=
    (List.perm_ext_iff_of_nodup ho.nodup List.nodup_range).mpr fun t => by
      rw [ho.mem_iff, List.mem_range]
  rw [hperm.length_eq, List.length_range]

theorem Numbering.size_renumber : (m.renumber order).size = m.size := by
  rw [← ho.length_eq]
  simp [renumber, size]

theorem Numbering.idxOf_lt (s : Nat) (hs : s < m.size) : order.idxOf s < m.size := by
  rw [← ho.length_eq]
  exact List.idxOf_lt_length_iff.mpr ((ho.mem_iff s).mpr hs)

theorem Numbering.idxOf_inj (s t : Nat) (hs : s < m.size)
    (h : order.idxOf s = order.idxOf t) : s = t :=
  (List.idxOf_inj ((ho.mem_iff s).mpr hs)).mp h

/-- Every number is that of a state. -/
theorem Numbering.exists_idxOf (i : Nat) (hi : i < m.size) :
    ∃ s < m.size, order.idxOf s = i := by
  rw [← ho.length_eq] at hi
  refine ⟨order[i], (ho.mem_iff _).mp (List.getElem_mem hi), ?_⟩
  exact ho.nodup.idxOf_getElem i hi

theorem Numbering.idxOf_start : order.idxOf m.start = initial := by
  have hhead := ho.head
  cases order with
  | nil => cases hhead
  | cons a as =>
    rw [List.head?_cons, Option.some.injEq] at hhead
    rw [hhead, List.idxOf_cons_self]
    rfl

theorem Numbering.state_renumber (s : Nat) (hs : s < m.size) :
    ((m.renumber order).state (order.idxOf s)).accepting = (m.state s).accepting ∧
      ∀ d, ((m.renumber order).state (order.idxOf s)).next d
        = ((m.state s).next d).map order.idxOf := by
  have hmem := (ho.mem_iff s).mpr hs
  have hi := List.idxOf_lt_length_iff.mpr hmem
  have hget : order[order.idxOf s] = s := List.getElem_idxOf hi
  have hstate : (m.renumber order).state (order.idxOf s)
      = ⟨(m.state s).accepting, (m.state s).edges.map fun t => t.map order.idxOf⟩ := by
    unfold renumber
    rw [state, Array.getD_eq_getD_getElem?, List.getElem?_toArray, List.getElem?_map,
      List.getElem?_eq_getElem hi, hget]
    rfl
  rw [hstate]
  refine ⟨rfl, fun d => ?_⟩
  simp [State.next]

theorem Numbering.edge_renumber (s t : Nat) (hs : s < m.size) (ht : t < m.size) :
    (m.renumber order).Edge (order.idxOf s) (order.idxOf t) ↔ m.Edge s t := by
  unfold Edge
  simp only [(ho.state_renumber m order s hs).2, Option.map_eq_some_iff]
  constructor
  · rintro ⟨d, q, hq, hqt⟩
    exact ⟨d, ho.idxOf_inj m order t q ht hqt.symm ▸ hq⟩
  · rintro ⟨d, hd⟩
    exact ⟨d, t, hd, rfl⟩

theorem Numbering.topological_renumber (l : List Nat) (hl : m.Topological l) :
    (m.renumber order).Topological (l.map order.idxOf) := by
  have hin : ∀ s ∈ l, s < m.size := fun s hs => (hl.mem_iff s).mp hs
  refine ⟨?_, fun i => ?_, ?_⟩
  · exact List.Nodup.map_on (fun s hs t _ h => ho.idxOf_inj m order s t (hin s hs) h) hl.nodup
  · rw [ho.size_renumber, List.mem_map]
    constructor
    · rintro ⟨s, hs, rfl⟩
      exact ho.idxOf_lt m order s (hin s hs)
    · intro hi
      obtain ⟨s, hs, rfl⟩ := ho.exists_idxOf m order i hi
      exact ⟨s, (hl.mem_iff s).mpr hs, rfl⟩
  · rw [List.pairwise_map]
    refine hl.forward.imp_of_mem fun {a b} ha hb hab => ?_
    rw [ho.edge_renumber m order b a (hin b hb) (hin a ha)]
    exact hab

variable (hm : m.Minimal)

include hm

theorem Numbering.accepts_renumber (w : List Digit) :
    ∀ s < m.size, (m.renumber order).accepts (order.idxOf s) w = m.accepts s w := by
  induction w with
  | nil => exact fun s hs => (ho.state_renumber m order s hs).1
  | cons d w ih =>
    intro s hs
    have hnext := (ho.state_renumber m order s hs).2 d
    cases h : (m.state s).next d with
    | none => rw [m.accepts_cons_none s d w h, accepts_cons_none _ _ d w (by rw [hnext, h]; rfl)]
    | some t =>
      rw [m.accepts_cons_some s t d w h, accepts_cons_some _ _ _ d w (by rw [hnext, h]; rfl),
        ih t (hm.next_lt s d t h)]

theorem Numbering.go_renumber (u : List Digit) :
    ∀ s t, s < m.size → m.go s u = some t →
      (m.renumber order).go (order.idxOf s) u = some (order.idxOf t) := by
  induction u with
  | nil =>
    intro s t _ h
    cases h
    rfl
  | cons d u ih =>
    intro s t hs h
    rw [go] at h ⊢
    rw [(ho.state_renumber m order s hs).2 d]
    split at h
    · cases h
    · next q hq =>
      rw [hq]
      exact ih q t (hm.next_lt s d q hq) h

theorem Numbering.renumber_minimal : (m.renumber order).Minimal := by
  have hsize := ho.size_renumber
  have hstart : (m.renumber order).start = order.idxOf m.start := ho.idxOf_start.symm
  refine ⟨?_, fun i d j h => ?_, ?_, fun i hi => ?_, fun i hi => ?_, fun i hi j hj h => ?_⟩
  · rw [hsize, hstart]
    exact ho.idxOf_lt m order m.start hm.start_lt
  · have hi := (m.renumber order).lt_size_of_next i d j h
    rw [hsize] at hi ⊢
    obtain ⟨s, hs, rfl⟩ := ho.exists_idxOf m order i hi
    rw [(ho.state_renumber m order s hs).2] at h
    obtain ⟨t, ht, rfl⟩ := Option.map_eq_some_iff.mp h
    exact ho.idxOf_lt m order t (hm.next_lt s d t ht)
  · obtain ⟨depth, hdepth⟩ := hm.acyclic
    refine ⟨fun i => depth (order.getD i 0), fun i d j h => ?_⟩
    have hi := (m.renumber order).lt_size_of_next i d j h
    rw [hsize] at hi
    obtain ⟨s, hs, rfl⟩ := ho.exists_idxOf m order i hi
    rw [(ho.state_renumber m order s hs).2] at h
    obtain ⟨t, ht, rfl⟩ := Option.map_eq_some_iff.mp h
    have hget : ∀ a < m.size, order.getD (order.idxOf a) 0 = a := by
      intro a ha
      have hlt := List.idxOf_lt_length_iff.mpr ((ho.mem_iff a).mpr ha)
      rw [List.getD_eq_getElem?_getD, List.getElem?_eq_getElem hlt]
      exact List.getElem_idxOf hlt
    show depth (order.getD _ 0) < depth (order.getD _ 0)
    rw [hget s hs, hget t (hm.next_lt s d t ht)]
    exact hdepth s d t ht
  · rw [hsize] at hi
    obtain ⟨s, hs, rfl⟩ := ho.exists_idxOf m order i hi
    obtain ⟨w, hw⟩ := hm.live s hs
    exact ⟨w, by rw [ho.accepts_renumber m order hm w s hs, hw]⟩
  · rw [hsize] at hi
    obtain ⟨s, hs, rfl⟩ := ho.exists_idxOf m order i hi
    obtain ⟨u, hu⟩ := hm.reached s hs
    exact ⟨u, by rw [hstart, ho.go_renumber m order hm u _ s hm.start_lt hu]⟩
  · rw [hsize] at hi hj
    obtain ⟨s, hs, rfl⟩ := ho.exists_idxOf m order i hi
    obtain ⟨t, ht, rfl⟩ := ho.exists_idxOf m order j hj
    rw [hm.distinct s hs t ht fun w => ?_]
    rw [← ho.accepts_renumber m order hm w s hs, ← ho.accepts_renumber m order hm w t ht, h w]

end

/-! ## The state without edges -/

theorem not_edge_of_isSink (m : Automaton) (s t : Nat) (h : (m.state s).isSink = true) :
    ¬ m.Edge s t := by
  rintro ⟨d, hd⟩
  rw [(State.isSink_iff _).mp h d] at hd
  cases hd

theorem next_of_isSink (m : Automaton) (s : Nat) (h : (m.state s).isSink = true) (d : Digit) :
    (m.state s).next d = none :=
  (State.isSink_iff _).mp h d

theorem accepts_of_isSink (m : Automaton) (hm : m.Minimal) (s : Nat) (hs : s < m.size)
    (h : (m.state s).isSink = true) (w : List Digit) : m.accepts s w = w.isEmpty := by
  cases w with
  | cons d w => exact m.accepts_cons_none s d w (m.next_of_isSink s h d)
  | nil =>
    obtain ⟨v, hv⟩ := hm.live s hs
    cases v with
    | nil => exact hv
    | cons d v =>
      rw [m.accepts_cons_none s d v (m.next_of_isSink s h d)] at hv
      cases hv

theorem isSink_unique (m : Automaton) (hm : m.Minimal) (s t : Nat) (hs : s < m.size)
    (ht : t < m.size) (hss : (m.state s).isSink = true) (hts : (m.state t).isSink = true) :
    s = t :=
  hm.distinct s hs t ht fun w => by
    rw [m.accepts_of_isSink hm s hs hss, m.accepts_of_isSink hm t ht hts]

/-- The last state of a topological order has no edges. -/
theorem exists_isSink (m : Automaton) (hm : m.Minimal) :
    ∃ s < m.size, (m.state s).isSink = true := by
  have htop := m.topologicalOrder_topological hm
  have hne : m.topologicalOrder ≠ [] :=
    List.ne_nil_of_mem ((htop.mem_iff m.start).mpr hm.start_lt)
  refine ⟨m.topologicalOrder.getLast hne, (htop.mem_iff _).mp (List.getLast_mem hne), ?_⟩
  rw [← List.dropLast_append_getLast hne] at htop
  rw [State.isSink_iff]
  intro d
  cases hd : (m.state (m.topologicalOrder.getLast hne)).next d with
  | none => rfl
  | some t => exact absurd ⟨d, hd⟩ (htop.not_edge_last m hm _ _ t)

/-- The states that are neither the start nor without edges, in topological order. -/
def innerOrder (m : Automaton) : List Nat :=
  (m.topologicalOrder.filter (· != m.start)).filter fun s => !(m.state s).isSink

theorem mem_innerOrder (m : Automaton) (hm : m.Minimal) (t : Nat) :
    t ∈ m.innerOrder ↔ t < m.size ∧ t ≠ m.start ∧ (m.state t).isSink = false := by
  unfold innerOrder
  rw [List.mem_filter, List.mem_filter, (m.topologicalOrder_topological hm).mem_iff]
  simp [and_assoc]

theorem nodup_innerOrder (m : Automaton) (hm : m.Minimal) : m.innerOrder.Nodup :=
  ((m.topologicalOrder_topological hm).nodup.filter _).filter _

theorem order_of_start_sink (m : Automaton) (hm : m.Minimal)
    (hsink : (m.state m.start).isSink = true) : m.size = 1 ∧ m.canonicalOrder = [m.start] := by
  -- nothing is reached from a start without edges
  have hone : ∀ t < m.size, t = m.start := by
    intro t ht
    apply Classical.byContradiction
    intro hne
    obtain ⟨u, hu⟩ := hm.reached t ht
    cases u with
    | nil =>
      cases hu
      exact hne rfl
    | cons d u =>
      rw [go, m.next_of_isSink m.start hsink d] at hu
      cases hu
  have htop := m.topologicalOrder_topological hm
  have hrest : m.topologicalOrder.filter (· != m.start) = [] := by
    rw [List.filter_eq_nil_iff]
    intro t ht
    rw [hone t ((htop.mem_iff t).mp ht)]
    simp
  refine ⟨?_, by simp [canonicalOrder, hrest]⟩
  have h0 := hm.start_lt
  apply Classical.byContradiction
  intro hsize
  have h1 := hone 0 (by omega)
  have h2 := hone 1 (by omega)
  omega

theorem order_of_sink (m : Automaton) (hm : m.Minimal) (q : Nat) (hq : q < m.size)
    (hqs : q ≠ m.start) (hsink : (m.state q).isSink = true) :
    m.canonicalOrder = m.start :: q :: m.innerOrder := by
  have htop := m.topologicalOrder_topological hm
  have hsinks : (m.topologicalOrder.filter (· != m.start)).filter (fun s => (m.state s).isSink)
      = [q] := by
    have hnd := (htop.nodup.filter (· != m.start)).filter fun s => (m.state s).isSink
    have hmem : ∀ t, t ∈ (m.topologicalOrder.filter (· != m.start)).filter
        (fun s => (m.state s).isSink) ↔ t = q := by
      intro t
      rw [List.mem_filter, List.mem_filter, htop.mem_iff]
      constructor
      · rintro ⟨⟨ht, -⟩, hts⟩
        exact m.isSink_unique hm t q ht hq hts hsink
      · rintro rfl
        exact ⟨⟨hq, by simpa using hqs⟩, hsink⟩
    exact List.perm_singleton.mp ((List.perm_ext_iff_of_nodup hnd (List.nodup_singleton q)).mpr
      fun t => by rw [hmem t, List.mem_singleton])
  unfold canonicalOrder innerOrder
  dsimp only
  rw [hsinks]
  rfl

/-- The start is alone, or another state is the one without edges. -/
theorem start_cases (m : Automaton) (hm : m.Minimal) :
    (m.size = 1 ∧ m.canonicalOrder = [m.start]) ∨
      ∃ q, q < m.size ∧ q ≠ m.start ∧ (m.state q).isSink = true ∧
        m.canonicalOrder = m.start :: q :: m.innerOrder := by
  obtain ⟨q, hq, hsink⟩ := m.exists_isSink hm
  by_cases hqs : q = m.start
  · rw [hqs] at hsink
    exact Or.inl (m.order_of_start_sink hm hsink)
  · exact Or.inr ⟨q, hq, hqs, hsink, m.order_of_sink hm q hq hqs hsink⟩

theorem canonicalOrder_numbering (m : Automaton) (hm : m.Minimal) :
    m.Numbering m.canonicalOrder := by
  rcases m.start_cases hm with ⟨hsize, heq⟩ | ⟨q, hq, hqs, hsink, heq⟩
  · have h0 := hm.start_lt
    rw [heq]
    refine ⟨List.nodup_singleton _, fun t => ?_, rfl⟩
    rw [List.mem_singleton]
    omega
  · rw [heq]
    refine ⟨?_, fun t => ?_, rfl⟩
    · refine List.nodup_cons.mpr ⟨fun h => ?_, List.nodup_cons.mpr ⟨fun h => ?_, m.nodup_innerOrder hm⟩⟩
      · rcases List.mem_cons.mp h with h | h
        · exact hqs h.symm
        · exact ((m.mem_innerOrder hm _).mp h).2.1 rfl
      · have := ((m.mem_innerOrder hm _).mp h).2.2
        rw [hsink] at this
        cases this
    · rw [List.mem_cons, List.mem_cons, m.mem_innerOrder hm]
      constructor
      · rintro (rfl | rfl | h)
        · exact hm.start_lt
        · exact hq
        · exact h.1
      · intro ht
        by_cases h1 : t = m.start
        · exact Or.inl h1
        · cases h2 : (m.state t).isSink with
          | true => exact Or.inr (Or.inl (m.isSink_unique hm t q ht hq h2 hsink))
          | false => exact Or.inr (Or.inr ⟨ht, h1, rfl⟩)

theorem canonical_minimal (m : Automaton) (hm : m.Minimal) : m.canonical.Minimal :=
  (m.canonicalOrder_numbering hm).renumber_minimal m _ hm

theorem size_canonical (m : Automaton) (hm : m.Minimal) : m.canonical.size = m.size :=
  (m.canonicalOrder_numbering hm).size_renumber

theorem accepts_canonical (m : Automaton) (hm : m.Minimal) (w : List Digit) :
    m.canonical.accepts m.canonical.start w = m.accepts m.start w := by
  have ho := m.canonicalOrder_numbering hm
  rw [← ho.accepts_renumber m _ hm w m.start hm.start_lt, ho.idxOf_start]
  rfl

/-! ## The layout -/

theorem map_idxOf_self (l : List Nat) (h : l.Nodup) : l.map l.idxOf = List.range l.length := by
  apply List.ext_getElem
  · simp
  · intro i h1 h2
    rw [List.getElem_map, List.getElem_range]
    exact h.idxOf_getElem i (by simpa using h1)

theorem layoutOrder_topological (m : Automaton) (hm : m.Minimal) :
    m.canonical.Topological m.canonical.layoutOrder := by
  have ho := m.canonicalOrder_numbering hm
  have hlen := ho.length_eq
  have htop := m.topologicalOrder_topological hm
  unfold layoutOrder
  rw [m.size_canonical hm]
  rcases m.start_cases hm with ⟨hsize, heq⟩ | ⟨q, hq, hqs, hsink, heq⟩
  · rw [if_pos hsize]
    refine ⟨List.nodup_singleton _, fun t => ?_, List.pairwise_singleton _ _⟩
    rw [m.size_canonical hm, hsize, List.mem_singleton, initial]
    omega
  · have hsize : m.size ≠ 1 := by
      have := hm.start_lt
      omega
    rw [if_neg hsize]
    have hl : m.Topological (m.start :: m.innerOrder ++ [q]) := by
      have hperm : (m.start :: m.innerOrder ++ [q]).Perm m.canonicalOrder := by
        rw [heq, List.cons_append]
        exact List.Perm.cons _ List.perm_append_comm
      refine ⟨hperm.nodup_iff.mpr ho.nodup, fun t => by rw [hperm.mem_iff, ho.mem_iff], ?_⟩
      refine List.pairwise_append.mpr ⟨List.pairwise_cons.mpr ⟨fun t _ => ?_, ?_⟩,
        List.pairwise_singleton _ _, fun a _ b hb => ?_⟩
      · exact m.not_edge_start hm t
      · exact (htop.forward.filter _).filter _
      · rw [List.mem_singleton.mp hb]
        exact m.not_edge_of_isSink q a hsink
    have hmap := map_idxOf_self m.canonicalOrder ho.nodup
    rw [hlen] at hmap
    have hinner : m.innerOrder.map m.canonicalOrder.idxOf = (List.range m.size).drop 2 := by
      rw [← hmap, ← List.map_drop]
      congr 1
      rw [heq]
      rfl
    have hlayout : initial :: (List.range m.size).drop 2 ++ [terminal]
        = (m.start :: m.innerOrder ++ [q]).map m.canonicalOrder.idxOf := by
      rw [List.map_append, List.map_cons, hinner, ho.idxOf_start, List.map_singleton]
      congr 2
      rw [heq, List.idxOf_cons_ne _ (Ne.symm hqs), List.idxOf_cons_self]
      rfl
    rw [hlayout]
    exact ho.topological_renumber m _ _ hl

end Automaton

/-! ## The automaton of some alternatives -/

theorem automatonOf_minimal (as : List (List Slot)) (hne : as ≠ []) (hslots : SlotsProper as) :
    (automatonOf as).Minimal :=
  Automaton.canonical_minimal _ (merge_reachable_minimal as hne hslots).1

theorem automatonOf_accepts (as : List (List Slot)) (hne : as ≠ []) (hslots : SlotsProper as)
    (w : List Digit) :
    (automatonOf as).accepts (automatonOf as).start w = true ↔ ∃ a ∈ as, Spells a w := by
  obtain ⟨hmin, hwords⟩ := merge_reachable_minimal as hne hslots
  unfold automatonOf
  rw [Automaton.accepts_canonical _ hmin]
  exact hwords w

theorem automatonOf_layoutOrder (as : List (List Slot)) (hne : as ≠ []) (hslots : SlotsProper as) :
    (automatonOf as).Topological (automatonOf as).layoutOrder :=
  Automaton.layoutOrder_topological _ (merge_reachable_minimal as hne hslots).1

end NumberPlan
