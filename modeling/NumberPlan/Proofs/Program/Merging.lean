import NumberPlan.Proofs.Program.PatternAutomaton

/-!
# States in runs

The code of an automaton is one block after the other (`blocksIn_eq_flatMap`).  A run takes in
states to come that no run before it took in, since each of them is reached from nowhere else
(`Pending.taken_fresh`).  So every state has a block or is in a run, and none is both.

    states of blocks ++ states in runs  ~  all states                          (placedIn_perm)
    a state in a run does not accept and has one source                (Automaton.Run.inner)
    a block with a run is that run and a jump to its exit                   (BlockShape.of_run)
    the label of every jump has its place                                         (lookup_jump)
-/

namespace NumberPlan

/-! ## Blocks apart -/

/-- A state with its code and the states that its run takes in. -/
structure Block where
  state : Nat
  items : List CodeItem
  taken : List Nat

/-- The blocks of the states in `order` that no run has taken in. -/
def placedIn (m : Automaton) : (order absorbed : List Nat) → List Block
  | [], _ => []
  | s :: order, absorbed =>
    if s ∈ absorbed then placedIn m order absorbed
    else
      let b := blockOf m m.inDegrees s
      ⟨s, b.1, b.2⟩ :: placedIn m order (b.2 ++ absorbed)

/-- The blocks of an automaton. -/
def placed (m : Automaton) : List Block := placedIn m m.layoutOrder []

section

variable (m : Automaton)

theorem placedIn_skip (s : Nat) (order absorbed : List Nat) (h : s ∈ absorbed) :
    placedIn m (s :: order) absorbed = placedIn m order absorbed :=
  if_pos h

theorem placedIn_cons (s : Nat) (order absorbed : List Nat) (h : s ∉ absorbed) :
    placedIn m (s :: order) absorbed
      = ⟨s, (blockOf m m.inDegrees s).1, (blockOf m m.inDegrees s).2⟩
        :: placedIn m order ((blockOf m m.inDegrees s).2 ++ absorbed) :=
  if_neg h

/-- The code is that of the blocks, each after its label. -/
theorem blocksIn_eq_flatMap (order : List Nat) : ∀ absorbed,
    blocksIn m m.inDegrees order absorbed
      = (placedIn m order absorbed).flatMap fun b => .label b.state :: b.items := by
  induction order with
  | nil => exact fun _ => rfl
  | cons s order ih =>
    intro absorbed
    by_cases hs : s ∈ absorbed
    · rw [blocksIn_skip m s order absorbed hs, placedIn_skip m s order absorbed hs, ih]
    · rw [blocksIn_cons m s order absorbed hs, placedIn_cons m s order absorbed hs, ih]
      simp

theorem placedIn_shape (hm : m.Minimal) (order : List Nat) : ∀ absorbed,
    ∀ b ∈ placedIn m order absorbed, BlockShape m b.state b.items b.taken := by
  induction order with
  | nil => exact fun _ _ hb => nomatch hb
  | cons s order ih =>
    intro absorbed b hb
    by_cases hs : s ∈ absorbed
    · rw [placedIn_skip m s order absorbed hs] at hb
      exact ih absorbed b hb
    · rw [placedIn_cons m s order absorbed hs] at hb
      rcases List.mem_cons.mp hb with rfl | hb
      · exact blockOf_shape m hm s
      · exact ih _ b hb

end

/-! ## What a run takes in -/

section

variable {m : Automaton}

theorem Automaton.Run.inner {p t : Nat} {cs : List Nat} (h : m.Run p cs t) :
    ∀ c ∈ cs, (m.state c).accepting = false ∧ ∃! q, m.Edge q c := by
  induction cs generalizing p with
  | nil => exact fun c hc => nomatch hc
  | cons c cs ih =>
    obtain ⟨hp, hsource, haccept, hrun⟩ := h
    intro a ha
    rcases List.mem_cons.mp ha with rfl | ha
    · exact ⟨haccept, p, ⟨0, hp 0⟩, hsource⟩
    · exact ih hrun a ha

variable {s : Nat} {b : List CodeItem} {cs : List Nat}

/-- A block with a run holds nothing else, and only a run of one step ends early. -/
theorem BlockShape.of_run (h : BlockShape m s b cs) (count : Nat) (terminal : Bool)
    (hrun : .plain (.run count terminal) ∈ b) :
    ∃ t, b = [.plain (.run count terminal), .jump t 0] ∧ m.Run s cs t ∧
      count = cs.length + 1 ∧ count ≤ maxRun ∧ terminal = (m.state s).accepting ∧
      (terminal = true → count = 1) := by
  cases h with
  | run _ t hrun' hlen haccept =>
    obtain ⟨rfl, rfl⟩ : count = cs.length + 1 ∧ terminal = (m.state s).accepting := by
      simpa using hrun
    refine ⟨t, rfl, hrun', rfl, Nat.succ_le_succ hlen, rfl, fun hterminal => ?_⟩
    rw [haccept hterminal]
    rfl
  | stop => simp at hrun
  | single => simp at hrun
  | member => simp at hrun
  | split => simp [jumpsTo] at hrun
  | table => simp [jumpsTo] at hrun

/-- Only runs take states in. -/
theorem BlockShape.run_of_taken (h : BlockShape m s b cs) (hne : cs ≠ []) :
    ∃ count terminal, .plain (.run count terminal) ∈ b := by
  cases h with
  | run => exact ⟨_, _, List.mem_cons_self ..⟩
  | stop => exact absurd rfl hne
  | single => exact absurd rfl hne
  | member => exact absurd rfl hne
  | split => exact absurd rfl hne
  | table => exact absurd rfl hne

variable {order absorbed : List Nat}

theorem Pending.taken_fresh (h : Pending m (s :: order) absorbed) (hm : m.Minimal)
    (hb : BlockShape m s b cs) (hs : s ∉ absorbed) :
    cs.Nodup ∧ ∀ c ∈ cs, c ∈ order ∧ c ∉ absorbed := by
  rcases hb.absorbed_run with rfl | ⟨t, hrun⟩
  · exact ⟨List.nodup_nil, fun c hc => nomatch hc⟩
  · exact ⟨(List.nodup_append.mp (hrun.nodup hm)).1,
      (h.run_fresh hm t cs s (List.mem_cons_self ..) hs hrun).1⟩

end

/-! ## All states -/

/-- What is to come less what a run takes in, and that, are all that is to come. -/
theorem filter_taken_perm (order absorbed cs : List Nat) (hnd : order.Nodup) (hcs : cs.Nodup)
    (hfresh : ∀ c ∈ cs, c ∈ order ∧ c ∉ absorbed) :
    (cs ++ order.filter (· ∉ cs ++ absorbed)).Perm (order.filter (· ∉ absorbed)) := by
  refine (List.perm_ext_iff_of_nodup (List.nodup_append.mpr ⟨hcs, hnd.filter _, ?_⟩)
    (hnd.filter _)).mpr fun c => ?_
  · rintro c hc a ha rfl
    simp [hc] at ha
  · have := hfresh c
    by_cases hc : c ∈ cs
    · simp [hc, this hc]
    · simp [hc]

/-- Every state to come has a block or is in a run, and only once. -/
theorem placedIn_perm (m : Automaton) (hm : m.Minimal) (order : List Nat) : ∀ absorbed,
    Pending m order absorbed →
      ((placedIn m order absorbed).map (·.state) ++ (placedIn m order absorbed).flatMap (·.taken)).Perm
        (order.filter (· ∉ absorbed)) := by
  induction order with
  | nil => exact fun _ _ => List.Perm.nil
  | cons s order ih =>
    intro absorbed h
    by_cases hs : s ∈ absorbed
    · rw [placedIn_skip m s order absorbed hs, List.filter_cons_of_neg (by simpa using hs)]
      exact ih absorbed h.skip
    · have hshape := blockOf_shape m hm s
      obtain ⟨hnd, hfresh⟩ := h.taken_fresh hm hshape hs
      have hrest := ih _ (h.block hshape)
      have hsplit := filter_taken_perm order absorbed _ h.skip.nodup hnd hfresh
      rw [placedIn_cons m s order absorbed hs, List.filter_cons_of_pos (by simpa using hs)]
      generalize (blockOf m m.inDegrees s).2 = cs at *
      generalize placedIn m order (cs ++ absorbed) = bs at *
      show (s :: (bs.map (·.state) ++ (cs ++ bs.flatMap (·.taken)))).Perm _
      refine List.Perm.cons s ?_
      calc (bs.map (·.state) ++ (cs ++ bs.flatMap (·.taken))).Perm
            (cs ++ (bs.map (·.state) ++ bs.flatMap (·.taken))) := by
              rw [← List.append_assoc, ← List.append_assoc]
              exact List.perm_append_comm.append_right _
        _ |>.Perm (cs ++ order.filter (· ∉ cs ++ absorbed)) := hrest.append_left cs
        _ |>.Perm (order.filter (· ∉ absorbed)) := hsplit

theorem JumpsForward.label_mem {items : List CodeItem} (h : JumpsForward items) (t n : Nat)
    (hj : .jump t n ∈ items) : .label t ∈ items := by
  induction items with
  | nil => cases hj
  | cons i items ih =>
    rcases List.mem_cons.mp hj with rfl | hj
    · exact List.mem_cons_of_mem _ h.1
    · exact List.mem_cons_of_mem _ (ih (h.tail i items) hj)

/-- How the states of an automaton are spread over blocks and their runs. -/
structure Merged (m : Automaton) (bs : List Block) : Prop where
  /-- every state has a block or is in a run, only once -/
  once : (bs.map (·.state) ++ bs.flatMap (·.taken)).Perm (List.range m.size)
  /-- a state in a run does not accept and has one source -/
  inner : ∀ b ∈ bs, ∀ c ∈ b.taken, (m.state c).accepting = false ∧ ∃! q, m.Edge q c
  /-- only runs take states in -/
  taken : ∀ b ∈ bs, b.taken ≠ [] → ∃ count terminal, .plain (.run count terminal) ∈ b.items
  /-- a run passes the states taken in, any digit at each, and ends early only if it is one step -/
  run : ∀ b ∈ bs, ∀ count terminal, .plain (.run count terminal) ∈ b.items →
    ∃ t, b.items = [.plain (.run count terminal), .jump t 0] ∧ m.Run b.state b.taken t ∧
      count = b.taken.length + 1 ∧ count ≤ maxRun ∧ terminal = (m.state b.state).accepting ∧
      (terminal = true → count = 1)
  /-- jumps lead to blocks and into no run -/
  jump : ∀ b ∈ bs, ∀ t n, .jump t n ∈ b.items →
    (∃ c ∈ bs, c.state = t) ∧ ∀ c ∈ bs, t ∉ c.taken

section

variable (m : Automaton) (hm : m.Minimal)

include hm

theorem label_mem_blocks (t : Nat) :
    .label t ∈ blocks m ↔ ∃ b ∈ placed m, b.state = t := by
  show .label t ∈ blocksIn m m.inDegrees m.layoutOrder [] ↔ _
  rw [blocksIn_eq_flatMap, List.mem_flatMap]
  constructor
  · rintro ⟨b, hb, h⟩
    rcases List.mem_cons.mp h with h | h
    · cases h
      exact ⟨b, hb, rfl⟩
    · exact absurd h ((placedIn_shape m hm _ _ b hb).no_label t)
  · rintro ⟨b, hb, rfl⟩
    exact ⟨b, hb, List.mem_cons_self ..⟩

variable (hlayout : m.Topological m.layoutOrder)

include hlayout

theorem placed_perm :
    ((placed m).map (·.state) ++ (placed m).flatMap (·.taken)).Perm (List.range m.size) := by
  have hperm := placedIn_perm m hm m.layoutOrder [] (pending_layout m hm hlayout)
  have hall : m.layoutOrder.filter (· ∉ ([] : List Nat)) = m.layoutOrder := by simp
  rw [hall] at hperm
  exact hperm.trans hlayout.perm

theorem placed_merged : Merged m (placed m) := by
  have hshape := placedIn_shape m hm m.layoutOrder []
  have hperm := placed_perm m hm hlayout
  refine ⟨hperm, fun b hb c hc => ?_, fun b hb => (hshape b hb).run_of_taken,
    fun b hb => (hshape b hb).of_run, fun b hb t n hj => ?_⟩
  · rcases (hshape b hb).absorbed_run with hnil | ⟨t, hrun⟩
    · rw [hnil] at hc
      cases hc
    · exact hrun.inner c hc
  · have hmem : .jump t n ∈ blocks m := by
      show _ ∈ blocksIn m m.inDegrees m.layoutOrder []
      rw [blocksIn_eq_flatMap]
      exact List.mem_flatMap.mpr ⟨b, hb, List.mem_cons_of_mem _ hj⟩
    have hlabel := (growing_blocks m hm hlayout).forward.label_mem t n hmem
    obtain ⟨c, hc, rfl⟩ := (label_mem_blocks m hm t).mp hlabel
    refine ⟨⟨c, hc, rfl⟩, fun a ha hta => ?_⟩
    -- a state with a block is in no run, since no state is listed twice
    have hnd := List.nodup_append.mp (hperm.nodup_iff.mpr List.nodup_range)
    exact hnd.2.2 _ (List.mem_map_of_mem hc) _ (List.mem_flatMap.mpr ⟨a, ha, hta⟩) rfl

/-- Whatever sizes the jumps have, the label of each has its place. -/
theorem lookup_jump (items : List CodeItem) (h : items.map CodeItem.unsized = blocks m) (t n : Nat)
    (hj : .jump t n ∈ items) : ∃ place, (labelPlaces 0 items).lookup t = some place := by
  have hforward : JumpsForward items := by
    rw [← jumpsForward_unsized, h]
    exact (growing_blocks m hm hlayout).forward
  exact ⟨_, lookup_labelPlaces t items 0 (hforward.label_mem t n hj)⟩

end

/-- The code of a pattern consists of blocks, with every state in just one of them or in one run;
the states in runs do not accept and have one source, no jump leads to them, so that the place of
every jump's target is known whatever sizes jumps have, and a run of some steps takes any digit at
each of them. -/
theorem readPattern_merged (s : String) (p : Pattern) (h : readPattern s = .ok p) :
    blocks (automatonOf p.slots) =
        ((placed (automatonOf p.slots)).flatMap fun b => .label b.state :: b.items) ∧
      Merged (automatonOf p.slots) (placed (automatonOf p.slots)) ∧
      ∀ items, items.map CodeItem.unsized = blocks (automatonOf p.slots) →
        ∀ t n, .jump t n ∈ items → ∃ place, (labelPlaces 0 items).lookup t = some place := by
  have hp := readPattern_proper s p h
  have hmin := automatonOf_slots_minimal p hp
  have hlayout := automatonOf_layoutOrder _ (p.slots_ne_nil hp) (p.slotsProper hp)
  exact ⟨blocksIn_eq_flatMap _ _ [], placed_merged _ hmin hlayout, lookup_jump _ hmin hlayout⟩

/-- Twenty digits, in a run of sixteen and one of four. -/
theorem readPattern_merged_twoRuns :
    readPattern "\\d{20}" = .ok [[⟨DigitSet.full, 20, 20⟩]] ∧
      Merged (automatonOf (Pattern.slots [[⟨DigitSet.full, 20, 20⟩]]))
        (placed (automatonOf (Pattern.slots [[⟨DigitSet.full, 20, 20⟩]]))) ∧
      (placed (automatonOf (Pattern.slots [[⟨DigitSet.full, 20, 20⟩]]))).map
        (fun b => (b.state, b.taken.length)) = [(0, 15), (17, 3), (1, 0)] := by
  have hread : readPattern "\\d{20}" = .ok [[⟨DigitSet.full, 20, 20⟩]] := by cbv
  exact ⟨hread, (readPattern_merged "\\d{20}" _ hread).2.1, by decide +kernel⟩

end NumberPlan
