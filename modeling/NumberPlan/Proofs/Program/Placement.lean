import NumberPlan.Proofs.Program.BlockShape
import NumberPlan.Proofs.Program.Emission

/-!
# Where blocks stand

Blocks stand in an order in which no edge leads back, less the states that runs have taken in.
A state that a run takes in has one source, whose block was emitted or taken in itself; so a
state with a jump to it is never taken in (`Protected`), and every jump finds its label later.

    m.Minimal → m.Topological m.layoutOrder →
      labels are distinct, jumps lead forward, and the block of s follows the label of s
                             (labelsOf_blocksIn, blocksIn_forward, label_block)
-/

namespace NumberPlan

/-! ## Runs -/

section

variable {m : Automaton}

theorem Automaton.Run.sources {p t : Nat} {cs : List Nat} (h : m.Run p cs t) :
    ∀ c ∈ cs, ∀ q, m.Edge q c → q = p ∨ q ∈ cs := by
  induction cs generalizing p with
  | nil => exact fun c hc => nomatch hc
  | cons c cs ih =>
    obtain ⟨-, hsource, -, hrun⟩ := h
    intro a ha q hq
    rcases List.mem_cons.mp ha with rfl | ha
    · exact Or.inl (hsource q hq)
    · rcases ih hrun a ha q hq with rfl | hq
      · exact Or.inr (List.mem_cons_self ..)
      · exact Or.inr (List.mem_cons_of_mem _ hq)

/-- The exit is reached from the run's last state. -/
theorem Automaton.Run.exit {p t : Nat} {cs : List Nat} (h : m.Run p cs t) :
    ∃ q, (q = p ∨ q ∈ cs) ∧ m.Edge q t := by
  induction cs generalizing p with
  | nil => exact ⟨p, Or.inl rfl, 0, h 0⟩
  | cons c cs ih =>
    obtain ⟨q, hq, he⟩ := ih h.2.2.2
    refine ⟨q, Or.inr ?_, he⟩
    rcases hq with rfl | hq
    · exact List.mem_cons_self ..
    · exact List.mem_cons_of_mem _ hq

/-- A run goes ever deeper. -/
theorem Automaton.Run.ascends {depth : Nat → Nat}
    (hdepth : ∀ s d t, (m.state s).next d = some t → depth s < depth t)
    {p t : Nat} {cs : List Nat} (h : m.Run p cs t) :
    (p :: (cs ++ [t])).Pairwise fun a b => depth a < depth b := by
  induction cs generalizing p with
  | nil => simpa using hdepth p 0 t (h 0)
  | cons c cs ih =>
    obtain ⟨hp, -, -, hrun⟩ := h
    have hrest := ih hrun
    have hc := hdepth p 0 c (hp 0)
    refine List.pairwise_cons.mpr ⟨fun a ha => ?_, hrest⟩
    rcases List.mem_cons.mp ha with rfl | ha
    · exact hc
    · exact Nat.lt_trans hc ((List.pairwise_cons.mp hrest).1 a ha)

/-- No state of a run is met twice, nor is its exit. -/
theorem Automaton.Run.nodup {p t : Nat} {cs : List Nat} (h : m.Run p cs t) (hm : m.Minimal) :
    (cs ++ [t]).Nodup := by
  obtain ⟨depth, hdepth⟩ := hm.acyclic
  refine (List.pairwise_cons.mp (h.ascends hdepth)).2.imp ?_
  rintro a _ hlt rfl
  exact Nat.lt_irrefl _ hlt

/-! ## Blocks to come -/

/-- The states whose blocks are to come, in order, and those that runs have taken in: edges lead
on within the order, and what is taken in is reached only from what is. -/
structure Pending (m : Automaton) (order absorbed : List Nat) : Prop where
  nodup : order.Nodup
  forward : order.Pairwise fun a b => ¬ m.Edge b a
  closed : ∀ p ∈ order, ∀ t, m.Edge p t → t ∈ order
  sealed : ∀ u ∈ absorbed, ∀ p ∈ order, m.Edge p u → p ∈ absorbed

/-- A state not taken in, with a source whose block was emitted or taken in. -/
def Protected (m : Automaton) (order absorbed : List Nat) (t : Nat) : Prop :=
  t ∉ absorbed ∧ ∃ p, m.Edge p t ∧ (p ∉ order ∨ p ∈ absorbed)

variable {s : Nat} {order absorbed : List Nat} (h : Pending m (s :: order) absorbed)

include h

theorem Pending.closed_tail : ∀ p ∈ order, ∀ t, m.Edge p t → t ∈ order := by
  intro p hp t ht
  rcases List.mem_cons.mp (h.closed p (List.mem_cons_of_mem _ hp) t ht) with rfl | hmem
  · exact absurd ht ((List.pairwise_cons.mp h.forward).1 p hp)
  · exact hmem

theorem Pending.skip : Pending m order absorbed where
  nodup := (List.nodup_cons.mp h.nodup).2
  forward := (List.pairwise_cons.mp h.forward).2
  closed := h.closed_tail
  sealed := fun u hu p hp => h.sealed u hu p (List.mem_cons_of_mem _ hp)

/-- The block of `s` with its run emitted. -/
theorem Pending.emit (t : Nat) (cs : List Nat) (hrun : m.Run s cs t) :
    Pending m order (cs ++ absorbed) := by
  have hskip := h.skip
  refine ⟨hskip.nodup, hskip.forward, hskip.closed, fun u hu p hp hpu => ?_⟩
  rcases List.mem_append.mp hu with hu | hu
  · rcases hrun.sources u hu p hpu with rfl | hmem
    · exact absurd hp (List.nodup_cons.mp h.nodup).1
    · exact List.mem_append_left _ hmem
  · exact List.mem_append_right _ (hskip.sealed u hu p hp hpu)

variable (hm : m.Minimal)

include hm

theorem Pending.mem_tail (t : Nat) (ht : m.Edge s t) : t ∈ order := by
  rcases List.mem_cons.mp (h.closed s (List.mem_cons_self ..) t ht) with rfl | hmem
  · exact absurd ht (m.not_edge_self hm t)
  · exact hmem

/-- A run from a state to come meets only states to come that were not taken in. -/
theorem Pending.run_fresh (t : Nat) (cs : List Nat) : ∀ p, p ∈ s :: order → p ∉ absorbed →
    m.Run p cs t → (∀ c ∈ cs, c ∈ order ∧ c ∉ absorbed) ∧ t ∈ order ∧ t ∉ absorbed := by
  have hnext : ∀ p c, p ∈ s :: order → p ∉ absorbed → m.Edge p c → c ∈ order ∧ c ∉ absorbed := by
    refine fun p c hp hpa hpc => ⟨?_, fun hc => hpa (h.sealed c hc p hp hpc)⟩
    rcases List.mem_cons.mp hp with rfl | hp
    · exact h.mem_tail hm c hpc
    · exact h.closed_tail p hp c hpc
  induction cs with
  | nil => exact fun p hp hpa hrun => ⟨fun c hc => (nomatch hc), hnext p t hp hpa ⟨0, hrun 0⟩⟩
  | cons c cs ih =>
    rintro p hp hpa ⟨hpc, -, -, hrun⟩
    have hc := hnext p c hp hpa ⟨0, hpc 0⟩
    obtain ⟨hcs, ht⟩ := ih c (List.mem_cons_of_mem _ hc.1) hc.2 hrun
    refine ⟨fun a ha => ?_, ht⟩
    rcases List.mem_cons.mp ha with rfl | ha
    · exact hc
    · exact hcs a ha

/-- The exit of the run is protected. -/
theorem Pending.exit_protected (hs : s ∉ absorbed) (t : Nat) (cs : List Nat)
    (hrun : m.Run s cs t) : Protected m order (cs ++ absorbed) t := by
  obtain ⟨-, -, ht⟩ := h.run_fresh hm t cs s (List.mem_cons_self ..) hs hrun
  refine ⟨fun hmem => ?_, ?_⟩
  · rcases List.mem_append.mp hmem with hmem | hmem
    · exact (List.nodup_append.mp (hrun.nodup hm)).2.2 t hmem t (List.mem_singleton_self t) rfl
    · exact ht hmem
  · obtain ⟨q, hq, he⟩ := hrun.exit
    refine ⟨q, he, ?_⟩
    rcases hq with rfl | hq
    · exact Or.inl (List.nodup_cons.mp h.nodup).1
    · exact Or.inr (List.mem_append_left _ hq)

/-- What is protected is not taken in by the block of another state. -/
theorem Protected.emit (hs : s ∉ absorbed) (t u : Nat) (cs : List Nat) (hrun : m.Run s cs u)
    (ht : Protected m (s :: order) absorbed t) : Protected m order (cs ++ absorbed) t := by
  obtain ⟨hta, p, he, hp⟩ := ht
  refine ⟨fun hmem => ?_, p, he, ?_⟩
  · rcases List.mem_append.mp hmem with hmem | hmem
    · have hfresh := (h.run_fresh hm u cs s (List.mem_cons_self ..) hs hrun).1
      have hpending : p ∈ s :: order ∧ p ∉ absorbed := by
        rcases hrun.sources t hmem p he with rfl | hpc
        · exact ⟨List.mem_cons_self .., hs⟩
        · exact ⟨List.mem_cons_of_mem _ (hfresh p hpc).1, (hfresh p hpc).2⟩
      rcases hp with hp | hp
      · exact hp hpending.1
      · exact hpending.2 hp
    · exact hta hmem
  · rcases hp with hp | hp
    · exact Or.inl fun hmem => hp (List.mem_cons_of_mem _ hmem)
    · exact Or.inr (List.mem_append_right _ hp)

end

/-! ## Items of blocks -/

theorem mem_jumpsTo (ts : List Nat) (t n : Nat) (h : .jump t n ∈ jumpsTo ts) : n = 0 ∧ t ∈ ts := by
  obtain ⟨u, hu, heq⟩ := List.mem_map.mp h
  cases heq
  exact ⟨rfl, hu⟩

theorem formed_jumpsTo (ts : List Nat) (rest : List CodeItem) (h : Formed rest) :
    Formed (jumpsTo ts ++ rest) := by
  induction ts with
  | nil => exact h
  | cons t ts ih => exact ⟨trivial, ih⟩

/-- A dispatch before as many jumps as its table has entries. -/
theorem formed_dispatch (head : Dispatch) (ts : List Nat) (rest : List CodeItem)
    (hfits : head.Fits ts.length) (h : Formed rest) :
    Formed (.dispatch head ts.length :: jumpsTo ts ++ rest) := by
  have hlen : (jumpsTo ts).length = ts.length := List.length_map _
  refine ⟨⟨hfits, ?_, fun i hi => ?_⟩, formed_jumpsTo ts rest h⟩
  · rw [List.append_eq, List.length_append, hlen]
    exact Nat.le_add_right _ _
  · rw [List.append_eq, ← hlen, List.take_left] at hi
    obtain ⟨t, -, rfl⟩ := List.mem_map.mp hi
    exact ⟨t, 0, rfl⟩

section

variable {m : Automaton} {s : Nat} {b : List CodeItem} {cs : List Nat} (h : BlockShape m s b cs)

include h

theorem BlockShape.absorbed_run : cs = [] ∨ ∃ t, m.Run s cs t := by
  cases h with
  | run between t hrun => exact Or.inr ⟨t, hrun⟩
  | stop => exact Or.inl rfl
  | single => exact Or.inl rfl
  | member => exact Or.inl rfl
  | split => exact Or.inl rfl
  | table => exact Or.inl rfl

/-- The jumps of a block lead where its state's edges, or its run, lead. -/
theorem BlockShape.jump (t n : Nat) (hj : .jump t n ∈ b) :
    n = 0 ∧ ((cs = [] ∧ m.Edge s t) ∨ m.Run s cs t) := by
  cases h with
  | stop => simp at hj
  | single d u h =>
    obtain ⟨rfl, rfl⟩ : t = u ∧ n = 0 := by simpa using hj
    exact ⟨rfl, Or.inl ⟨rfl, d, by rw [h, if_pos rfl]⟩⟩
  | run between u h =>
    obtain ⟨rfl, rfl⟩ : t = u ∧ n = 0 := by simpa using hj
    exact ⟨rfl, Or.inr h⟩
  | member g u he =>
    obtain ⟨rfl, rfl⟩ : t = u ∧ n = 0 := by simpa using hj
    exact ⟨rfl, Or.inl ⟨rfl, he⟩⟩
  | split g u v hu hv =>
    obtain ⟨rfl, ht⟩ := mem_jumpsTo [u, v] t n (by simpa using hj)
    rcases List.mem_cons.mp ht with rfl | ht
    · exact ⟨rfl, Or.inl ⟨rfl, hu⟩⟩
    · exact ⟨rfl, Or.inl ⟨rfl, List.mem_singleton.mp ht ▸ hv⟩⟩
  | table f u hu hf htable hindex =>
    obtain ⟨rfl, ht⟩ := mem_jumpsTo (m.state s).targets t n (by simpa using hj)
    exact ⟨rfl, Or.inl ⟨rfl, (m.mem_targets_state s t).mp ht⟩⟩

theorem BlockShape.no_label (t : Nat) : .label t ∉ b := by
  cases h <;> simp [jumpsTo]

theorem BlockShape.unsized : b.map CodeItem.unsized = b := by
  have hjumps : ∀ ts, (jumpsTo ts).map CodeItem.unsized = jumpsTo ts := fun ts => by
    unfold jumpsTo
    rw [List.map_map]
    rfl
  cases h with
  | stop => rfl
  | single => rfl
  | run => rfl
  | member => rfl
  | split => rfl
  | table =>
    rw [List.map_cons, hjumps]
    rfl

theorem BlockShape.formed (rest : List CodeItem) (hrest : Formed rest) : Formed (b ++ rest) := by
  cases h with
  | stop => exact ⟨Nat.zero_le 15, hrest⟩
  | single d => exact ⟨Nat.le_of_lt_succ d.isLt, trivial, hrest⟩
  | run between t hrun hlen => exact ⟨⟨Nat.succ_pos _, Nat.succ_le_succ hlen⟩, trivial, hrest⟩
  | member g => exact ⟨g.isLt, trivial, hrest⟩
  | split g t u => exact formed_dispatch _ [t, u] rest ⟨g.isLt, rfl⟩ hrest
  | table f u hu hf htable =>
    exact formed_dispatch _ _ rest ⟨hf, htable, State.length_targets_le _⟩ hrest

end

/-! ## All blocks -/

section

variable {m : Automaton} {s : Nat} {order absorbed : List Nat}
  (h : Pending m (s :: order) absorbed) {b : List CodeItem} {cs : List Nat}
  (hb : BlockShape m s b cs) (hm : m.Minimal)

include h hb

theorem Pending.block : Pending m order (cs ++ absorbed) := by
  rcases hb.absorbed_run with rfl | ⟨t, hrun⟩
  · exact h.skip
  · exact h.emit t cs hrun

include hm

theorem Protected.block (hs : s ∉ absorbed) (t : Nat) (ht : Protected m (s :: order) absorbed t) :
    Protected m order (cs ++ absorbed) t := by
  rcases hb.absorbed_run with rfl | ⟨u, hrun⟩
  · obtain ⟨hta, p, he, hp⟩ := ht
    exact ⟨hta, p, he, hp.imp_left fun hp hmem => hp (List.mem_cons_of_mem _ hmem)⟩
  · exact ht.emit h hm hs t u cs hrun

/-- A block's jumps lead to states to come that no run takes in. -/
theorem BlockShape.jump_protected (hs : s ∉ absorbed) (t n : Nat) (hj : .jump t n ∈ b) :
    t ∈ order ∧ Protected m order (cs ++ absorbed) t := by
  rcases (hb.jump t n hj).2 with ⟨rfl, he⟩ | hrun
  · exact ⟨h.mem_tail hm t he, fun hmem => hs (h.sealed t hmem s (List.mem_cons_self ..) he),
      s, he, Or.inl (List.nodup_cons.mp h.nodup).1⟩
  · exact ⟨(h.run_fresh hm t cs s (List.mem_cons_self ..) hs hrun).2.1,
      h.exit_protected hm hs t cs hrun⟩

end

theorem blocksIn_cons (m : Automaton) (s : Nat) (order absorbed : List Nat) (h : s ∉ absorbed) :
    blocksIn m m.inDegrees (s :: order) absorbed
      = .label s :: ((blockOf m m.inDegrees s).1
        ++ blocksIn m m.inDegrees order ((blockOf m m.inDegrees s).2 ++ absorbed)) := by
  rw [blocksIn, if_neg (by rwa [List.contains_iff_mem])]
  rfl

theorem blocksIn_skip (m : Automaton) (s : Nat) (order absorbed : List Nat) (h : s ∈ absorbed) :
    blocksIn m m.inDegrees (s :: order) absorbed = blocksIn m m.inDegrees order absorbed := by
  rw [blocksIn, if_pos (List.contains_iff_mem.mpr h)]

/-- A protected state has its block. -/
theorem label_mem_blocksIn (m : Automaton) (hm : m.Minimal) (order : List Nat) :
    ∀ absorbed, Pending m order absorbed → ∀ t ∈ order, Protected m order absorbed t →
      .label t ∈ blocksIn m m.inDegrees order absorbed := by
  induction order with
  | nil => exact fun _ _ t ht => nomatch ht
  | cons s order ih =>
    intro absorbed h t ht hp
    have hshape := blockOf_shape m hm s
    by_cases hs : s ∈ absorbed
    · rw [blocksIn_skip m s order absorbed hs]
      rcases List.mem_cons.mp ht with rfl | ht
      · exact absurd hs hp.1
      · refine ih absorbed h.skip t ht ⟨hp.1, ?_⟩
        obtain ⟨p, he, hp⟩ := hp.2
        exact ⟨p, he, hp.imp_left fun hp hmem => hp (List.mem_cons_of_mem _ hmem)⟩
    · rw [blocksIn_cons m s order absorbed hs]
      rcases List.mem_cons.mp ht with rfl | ht
      · exact List.mem_cons_self ..
      · exact List.mem_cons_of_mem _ (List.mem_append_right _
          (ih _ (h.block hshape) t ht (hp.block h hshape hm hs)))

theorem jumpsForward_append (as bs : List CodeItem)
    (has : ∀ t n, .jump t n ∈ as → .label t ∈ bs) (hbs : JumpsForward bs) :
    JumpsForward (as ++ bs) := by
  induction as with
  | nil => exact hbs
  | cons i as ih =>
    have htail := ih fun t n hj => has t n (List.mem_cons_of_mem _ hj)
    cases i with
    | label s => exact htail
    | plain i => exact htail
    | dispatch d n => exact htail
    | jump t n => exact ⟨List.mem_append_right _ (has t n (List.mem_cons_self ..)), htail⟩

theorem blocksIn_forward (m : Automaton) (hm : m.Minimal) (order : List Nat) :
    ∀ absorbed, Pending m order absorbed →
      JumpsForward (blocksIn m m.inDegrees order absorbed) := by
  induction order with
  | nil => exact fun _ _ => trivial
  | cons s order ih =>
    intro absorbed h
    have hshape := blockOf_shape m hm s
    by_cases hs : s ∈ absorbed
    · rw [blocksIn_skip m s order absorbed hs]
      exact ih absorbed h.skip
    · rw [blocksIn_cons m s order absorbed hs]
      have hblock := h.block hshape
      refine jumpsForward_append _ _ (fun t n hj => ?_) (ih _ hblock)
      obtain ⟨ht, hp⟩ := hshape.jump_protected h hm hs t n hj
      exact label_mem_blocksIn m hm order _ hblock t ht hp

theorem blocksIn_formed (m : Automaton) (hm : m.Minimal) (order : List Nat) :
    ∀ absorbed, Formed (blocksIn m m.inDegrees order absorbed) := by
  induction order with
  | nil => exact fun _ => trivial
  | cons s order ih =>
    intro absorbed
    by_cases hs : s ∈ absorbed
    · rw [blocksIn_skip m s order absorbed hs]
      exact ih absorbed
    · rw [blocksIn_cons m s order absorbed hs]
      exact ⟨trivial, (blockOf_shape m hm s).formed _ (ih _)⟩

theorem blocksIn_unsized (m : Automaton) (hm : m.Minimal) (order : List Nat) :
    ∀ absorbed, (blocksIn m m.inDegrees order absorbed).map CodeItem.unsized
      = blocksIn m m.inDegrees order absorbed := by
  induction order with
  | nil => exact fun _ => rfl
  | cons s order ih =>
    intro absorbed
    by_cases hs : s ∈ absorbed
    · rw [blocksIn_skip m s order absorbed hs]
      exact ih absorbed
    · rw [blocksIn_cons m s order absorbed hs, List.map_cons, List.map_append, ih,
        (blockOf_shape m hm s).unsized]
      rfl

theorem labelsOf_blocksIn (m : Automaton) (hm : m.Minimal) (order : List Nat) :
    ∀ absorbed, (labelsOf (blocksIn m m.inDegrees order absorbed)).Sublist order := by
  induction order with
  | nil => exact fun _ => List.Sublist.slnil
  | cons s order ih =>
    intro absorbed
    by_cases hs : s ∈ absorbed
    · rw [blocksIn_skip m s order absorbed hs]
      exact (ih absorbed).cons s
    · have hnone : labelsOf (blockOf m m.inDegrees s).1 = [] := by
        rw [List.eq_nil_iff_forall_not_mem]
        exact fun t ht => (blockOf_shape m hm s).no_label t ((mem_labelsOf _ t).mp ht)
      rw [blocksIn_cons m s order absorbed hs, labelsOf, List.filterMap_cons]
      show (s :: labelsOf _).Sublist _
      rw [labelsOf_append, hnone, List.nil_append]
      exact (ih _).cons_cons s

/-- After the label of a state comes its block. -/
theorem label_block (m : Automaton) (hm : m.Minimal) (s : Nat) (order : List Nat) :
    ∀ (absorbed : List Nat) (before after : List CodeItem),
      blocksIn m m.inDegrees order absorbed = before ++ .label s :: after →
      ∃ rest, after = (blockOf m m.inDegrees s).1 ++ rest := by
  induction order with
  | nil =>
    intro absorbed before after h
    cases before <;> cases h
  | cons a order ih =>
    intro absorbed before after h
    by_cases ha : a ∈ absorbed
    · rw [blocksIn_skip m a order absorbed ha] at h
      exact ih absorbed before after h
    · rw [blocksIn_cons m a order absorbed ha] at h
      cases before with
      | nil =>
        obtain ⟨hlabel, hafter⟩ := List.cons.inj h
        cases hlabel
        exact ⟨_, hafter.symm⟩
      | cons i before =>
        have htail := (List.cons.inj h).2
        rcases List.append_eq_append_iff.mp htail with ⟨c, -, hc⟩ | ⟨c, hc, hc'⟩
        · exact ih _ c after hc
        · -- the label would stand inside the block of another state
          cases c with
          | nil => exact ih _ [] after hc'.symm
          | cons j c =>
            obtain ⟨rfl, -⟩ := List.cons.inj hc'
            refine absurd ?_ ((blockOf_shape m hm a).no_label s)
            rw [hc]
            exact List.mem_append_right _ (List.mem_cons_self ..)

end NumberPlan
