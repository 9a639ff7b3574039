import NumberPlan.Proofs.Program.Compile

/-!
# The automaton of a pattern

The canonical order begins with the start and the state without edges, and every edge leads on in
the layout (`Topological.idxOf_lt`).  So a way that follows edges as long as there are any ends in
state 1 (`exists_go_isSink`).

    m.Minimal → the start has an edge → m.canonical.Numbered             (canonical_numbered)
    readPattern s = .ok p → (automatonOf p.slots).Numbered         (readPattern_automatonOf)
-/

namespace NumberPlan

namespace Automaton

/-- The start is state 0, state 1 accepts and is the only one without edges, every state is on a
way from the one to the other, no two accept the same words, and edges lead on in the layout. -/
structure Numbered (m : Automaton) : Prop where
  start_eq : m.start = initial
  terminal_lt : terminal < m.size
  terminal_accepting : (m.state terminal).accepting = true
  sink_iff : ∀ s < m.size, (∀ d, (m.state s).next d = none) ↔ s = terminal
  next_lt : ∀ s d t, (m.state s).next d = some t → t < m.size
  reached : ∀ s < m.size, ∃ u, m.go initial u = some s
  ends : ∀ s < m.size, ∃ u, m.go s u = some terminal
  distinct : ∀ s < m.size, ∀ t < m.size, (∀ w, m.accepts s w = m.accepts t w) → s = t
  layout_perm : m.layoutOrder.Perm (List.range m.size)
  forward : ∀ s d t, (m.state s).next d = some t →
    m.layoutOrder.idxOf s < m.layoutOrder.idxOf t

section

variable (m : Automaton) (hm : m.Minimal)

include hm

/-- An edge leads to a later place. -/
theorem Topological.idxOf_lt {order : List Nat} (h : m.Topological order) (s t : Nat)
    (he : m.Edge s t) : order.idxOf s < order.idxOf t := by
  have hs : s ∈ order := (h.mem_iff s).mpr he.lt_size
  have hne : s ≠ t := by
    rintro rfl
    exact m.not_edge_self hm s he
  apply Classical.byContradiction
  intro hle
  have hidx : order.idxOf t ≠ order.idxOf s := fun heq =>
    hne ((List.idxOf_inj hs).mp heq.symm)
  have hlt : order.idxOf t < order.idxOf s := by omega
  have hs' : order.idxOf s < order.length := List.idxOf_lt_length_iff.mpr hs
  have hback := List.pairwise_iff_getElem.mp h.forward _ _ (by omega) hs' hlt
  rw [List.getElem_idxOf hs', List.getElem_idxOf] at hback
  exact hback he

/-- Every state leads to one without edges, by induction on how many stand after it. -/
theorem exists_go_isSink {order : List Nat} (h : m.Topological order) (n : Nat) :
    ∀ s < m.size, m.size ≤ order.idxOf s + n →
      ∃ u t, m.go s u = some t ∧ t < m.size ∧ (m.state t).isSink = true := by
  have hlen : order.length = m.size := by
    rw [h.perm.length_eq, List.length_range]
  induction n with
  | zero =>
    intro s hs hplace
    have := List.idxOf_lt_length_iff.mpr ((h.mem_iff s).mpr hs)
    omega
  | succ n ih =>
    intro s hs hplace
    by_cases hsink : (m.state s).isSink = true
    · exact ⟨[], s, rfl, hs, hsink⟩
    · rw [State.isSink_iff, not_forall] at hsink
      obtain ⟨d, hd⟩ := hsink
      obtain ⟨t, ht⟩ := Option.ne_none_iff_exists'.mp hd
      have hlater := h.idxOf_lt m hm s t ⟨d, ht⟩
      obtain ⟨u, q, hu, hq⟩ := ih t (hm.next_lt s d t ht) (by omega)
      exact ⟨d :: u, q, by rw [go, ht]; exact hu, hq⟩

variable (hstart : (m.state m.start).isSink = false)

include hstart

theorem isSink_terminal :
    terminal < m.canonical.size ∧ (m.canonical.state terminal).isSink = true := by
  have ho := m.canonicalOrder_numbering hm
  rcases m.start_cases hm with ⟨hsize, -⟩ | ⟨q, hq, hqs, hsink, heq⟩
  · -- a lone start would have no edges
    obtain ⟨q, hq, hsink⟩ := m.exists_isSink hm
    have hlt := hm.start_lt
    have hqs : q = m.start := by omega
    rw [hqs, hstart] at hsink
    cases hsink
  · have hidx : m.canonicalOrder.idxOf q = terminal := by
      rw [heq, List.idxOf_cons_ne _ (Ne.symm hqs), List.idxOf_cons_self]
      rfl
    rw [m.size_canonical hm, State.isSink_iff, ← hidx]
    refine ⟨ho.idxOf_lt m _ q hq, fun d => ?_⟩
    show ((m.renumber m.canonicalOrder).state _).next d = none
    rw [(ho.state_renumber m _ q hq).2 d, m.next_of_isSink q hsink d]
    rfl

theorem canonical_numbered : m.canonical.Numbered := by
  obtain ⟨hlt, hsink⟩ := m.isSink_terminal hm hstart
  have hmin := m.canonical_minimal hm
  have hlayout := m.layoutOrder_topological hm
  have hunique : ∀ s < m.canonical.size, (m.canonical.state s).isSink = true → s = terminal :=
    fun s hs h => m.canonical.isSink_unique hmin s terminal hs hlt h hsink
  refine ⟨rfl, hlt, ?_, fun s hs => ?_, hmin.next_lt, hmin.reached, fun s hs => ?_, hmin.distinct,
    hlayout.perm, fun s d t h => hlayout.idxOf_lt _ hmin s t ⟨d, h⟩⟩
  · rw [← accepts_nil, m.canonical.accepts_of_isSink hmin terminal hlt hsink]
    rfl
  · rw [← State.isSink_iff]
    constructor
    · exact hunique s hs
    · rintro rfl
      exact hsink
  · obtain ⟨u, t, hu, ht, htsink⟩ := exists_go_isSink _ hmin hlayout m.canonical.size s hs (by omega)
    rw [hunique t ht htsink] at hu
    exact ⟨u, hu⟩

end

end Automaton

/-! ## Patterns -/

/-- A pattern has a word with a first digit, so its automaton does not end where it starts. -/
theorem isSink_start (p : Pattern) (h : p.Proper) (m : Automaton) (hm : m.Minimal)
    (hwords : ∀ w, m.accepts m.start w = true ↔ ∃ a ∈ p.slots, Spells a w) :
    (m.state m.start).isSink = false := by
  obtain ⟨w, hw, hne⟩ := h.exists_word
  rw [p.denotes_iff_spells h, ← hwords] at hw
  cases hsink : (m.state m.start).isSink with
  | false => rfl
  | true =>
    rw [m.accepts_of_isSink hm m.start hm.start_lt hsink, List.isEmpty_iff] at hw
    exact absurd hw hne

/-- The automaton of a pattern that can be read is minimal and trim, with the start numbered 0 and
the one state without edges 1; it accepts what the slots of the pattern spell, and no jump of its
code leads back. -/
theorem readPattern_automatonOf (s : String) (p : Pattern) (h : readPattern s = .ok p) :
    (automatonOf p.slots).Numbered ∧
      (∀ w, (automatonOf p.slots).accepts Automaton.initial w = true ↔
        ∃ a ∈ p.slots, Spells a w) ∧
      ∀ a b, settle (blocks (automatonOf p.slots)) ≠ .error (.backwardJump a b) := by
  have hp := readPattern_proper s p h
  have hne := p.slots_ne_nil hp
  have hslots := p.slotsProper hp
  obtain ⟨hmin, hwords⟩ := merge_reachable_minimal _ hne hslots
  refine ⟨Automaton.canonical_numbered _ hmin (isSink_start p hp _ hmin hwords),
    automatonOf_accepts _ hne hslots, fun a b herror => ?_⟩
  obtain ⟨distance, hd⟩ := (settle_blocks _ (automatonOf_slots_minimal p hp)
    (automatonOf_layoutOrder _ hne hslots)).2 _ herror
  cases hd

/-- Two ways of different lengths, with the end laid last. -/
theorem readPattern_automatonOf_twoLengths :
    readPattern "1\\d{2}|2" = .ok [[⟨DigitSet.single 1, 1, 1⟩, ⟨DigitSet.full, 2, 2⟩],
        [⟨DigitSet.single 2, 1, 1⟩]] ∧
      (automatonOf (Pattern.slots [[⟨DigitSet.single 1, 1, 1⟩, ⟨DigitSet.full, 2, 2⟩],
        [⟨DigitSet.single 2, 1, 1⟩]])).Numbered ∧
      (automatonOf (Pattern.slots [[⟨DigitSet.single 1, 1, 1⟩, ⟨DigitSet.full, 2, 2⟩],
        [⟨DigitSet.single 2, 1, 1⟩]])).layoutOrder = [0, 2, 3, 1] := by
  have hread : readPattern "1\\d{2}|2" = .ok [[⟨DigitSet.single 1, 1, 1⟩, ⟨DigitSet.full, 2, 2⟩],
      [⟨DigitSet.single 2, 1, 1⟩]] := by cbv
  exact ⟨hread, (readPattern_automatonOf "1\\d{2}|2" _ hread).1, by decide +kernel⟩

end NumberPlan
