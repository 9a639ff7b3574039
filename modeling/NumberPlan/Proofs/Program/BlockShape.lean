import NumberPlan.Program.Blocks
import NumberPlan.Proofs.Automaton.Traversal
import NumberPlan.Proofs.Program.MapField

/-!
# Shapes of blocks

A block is one of six (`BlockShape`), each with what it says about the edges of its state; the
block that is chosen for a state is of such a shape (`blockOf_shape`), and what follows about
blocks needs no other look at how it is chosen.
-/

namespace NumberPlan

/-! ## Groups of edges -/

theorem State.mem_digitsTo (s : State) (t : Nat) (d : Digit) :
    (s.digitsTo t).mem d = true ↔ s.next d = some t := by
  rw [State.digitsTo, DigitSet.mem_ofPred, beq_iff_eq]

theorem State.next_of_targets (s : State) (d : Digit) :
    s.next d = none ∨ ∃ t ∈ s.targets, s.next d = some t := by
  cases h : s.next d with
  | none => exact Or.inl rfl
  | some t => exact Or.inr ⟨t, (s.mem_targets t).mpr ⟨d, h⟩, rfl⟩

theorem State.targets_of_groups (s : State) (gs : List (DigitSet × Nat)) (h : s.groups = gs) :
    s.targets = gs.map (·.2) ∧ ∀ g ∈ gs, ∀ d, g.1.mem d = true ↔ s.next d = some g.2 := by
  subst h
  unfold State.groups
  refine ⟨by rw [List.map_map]; exact (List.map_id _).symm, fun g hg d => ?_⟩
  obtain ⟨t, -, rfl⟩ := List.mem_map.mp hg
  exact s.mem_digitsTo t d

/-- A state with one group leads there on its digits and nowhere on others. -/
theorem State.next_of_single_group (s : State) (g : DigitSet) (t : Nat) (h : s.groups = [(g, t)])
    (d : Digit) : s.next d = if g.mem d then some t else none := by
  obtain ⟨htargets, hmem⟩ := s.targets_of_groups _ h
  have hg := hmem (g, t) (List.mem_singleton_self _) d
  cases hd : g.mem d with
  | true => rw [if_pos rfl, hg.mp hd]
  | false =>
    rw [if_neg (by decide)]
    rcases s.next_of_targets d with hn | ⟨u, hu, hn⟩
    · exact hn
    · rw [htargets] at hu
      obtain rfl : u = t := List.mem_singleton.mp hu
      rw [hg.mpr hn] at hd
      cases hd

/-! ## Indices of targets -/

theorem idxOf_filter_le (a : Nat) (p : Nat → Bool) (ha : p a = true) (l : List Nat) :
    (l.filter p).idxOf a ≤ l.idxOf a := by
  induction l with
  | nil => exact Nat.le_refl _
  | cons b l ih =>
    rw [List.idxOf_cons]
    by_cases hb : b = a
    · subst hb
      rw [List.filter_cons_of_pos ha, List.idxOf_cons_self]
      exact Nat.zero_le _
    · rw [beq_false_of_ne hb]
      dsimp only [cond_false]
      cases hp : p b with
      | true =>
        rw [List.filter_cons_of_pos hp, List.idxOf_cons, beq_false_of_ne hb]
        dsimp only [cond_false]
        omega
      | false =>
        rw [List.filter_cons_of_neg (by rw [hp]; decide)]
        omega

/-- Leaving out what came before moves nothing back. -/
theorem idxOf_eraseDups_le (a : Nat) : ∀ (n : Nat) (l : List Nat), l.length ≤ n →
    l.eraseDups.idxOf a ≤ l.idxOf a
  | _, [], _ => Nat.le_refl _
  | 0, b :: l, h => absurd h (by simp)
  | n + 1, b :: l, h => by
    rw [List.eraseDups_cons, List.idxOf_cons, List.idxOf_cons]
    cases hb : b == a with
    | true => exact Nat.le_refl _
    | false =>
      have hlen := List.length_filter_le (fun c => !c == b) l
      have hab : (!a == b) = true := by
        rw [Bool.not_eq_true', beq_eq_false_iff_ne]
        exact fun h => by simp [h] at hb
      rw [List.length_cons] at h
      have hfilter := idxOf_filter_le a (fun c => !c == b) hab l
      have hrest := idxOf_eraseDups_le a n (l.filter fun c => !c == b) (by omega)
      dsimp only [cond_false]
      omega

theorem all_split (d : Digit) :
    Digit.all = Digit.all.take d.val ++ d :: Digit.all.drop (d.val + 1) := by
  revert d
  decide

/-- The target of a digit is among the first, one for each digit up to this one. -/
theorem State.idxOf_targets_le (s : State) (d : Digit) (t : Nat) (h : s.next d = some t) :
    s.targets.idxOf t ≤ d.val := by
  refine Nat.le_trans (idxOf_eraseDups_le t _ _ (Nat.le_refl _)) ?_
  have hlen : ((Digit.all.take d.val).filterMap s.next).length ≤ d.val :=
    Nat.le_trans (List.length_filterMap_le ..) (List.length_take_le ..)
  rw [all_split d, List.filterMap_append, List.filterMap_cons, h, List.idxOf_append]
  split
  · next hmem =>
    have hlt := List.idxOf_lt_length_iff.mpr hmem
    omega
  · rw [List.idxOf_cons_self]
    omega

theorem State.length_targets_le (s : State) : s.targets.length ≤ 10 := by
  have hsub : s.targets ⊆ Digit.all.filterMap s.next := fun t ht => List.mem_eraseDups.mp ht
  exact Nat.le_trans (s.nodup_targets.subperm hsub).length_le
    (List.length_filterMap_le s.next Digit.all)

/-- The table index of a digit: one more than the place of its target. -/
def State.indexFor (s : State) (d : Digit) : Nat :=
  match s.next d with
  | none => 0
  | some t => s.targets.idxOf t + 1

theorem State.groupIndices_eq (s : State) : groupIndices s.groups = Digit.all.map s.indexFor := by
  unfold groupIndices indexFor
  refine List.map_congr_left fun d _ => ?_
  have hfind : s.groups.findIdx (fun g => g.1.mem d)
      = s.targets.findIdx fun t => s.next d == some t := by
    unfold State.groups
    rw [List.findIdx_map]
    congr 1
    funext t
    rw [Bool.eq_iff_iff, beq_iff_eq]
    exact s.mem_digitsTo t d
  have hlen : s.groups.length = s.targets.length := List.length_map _
  rw [hfind, hlen]
  cases h : s.next d with
  | none =>
    have hnone : s.targets.findIdx (fun t => none == some t) = s.targets.length :=
      List.findIdx_eq_length_of_false fun _ _ => rfl
    rw [hnone]
    exact if_neg (Nat.lt_irrefl _)
  | some t =>
    have hidx : s.targets.findIdx (fun u => some t == some u) = s.targets.idxOf t := by
      unfold List.idxOf
      congr 1
      funext u
      rw [Bool.eq_iff_iff, beq_iff_eq, beq_iff_eq, Option.some.injEq]
      exact eq_comm
    have hmem := (s.mem_targets t).mpr ⟨d, h⟩
    rw [hidx]
    exact if_pos (List.idxOf_lt_length_iff.mpr hmem)

namespace State

variable (s : State)

theorem indexFor_le (d : Digit) : s.indexFor d ≤ s.targets.length := by
  unfold indexFor
  split
  · omega
  · next t h => exact List.idxOf_lt_length_iff.mpr ((s.mem_targets t).mpr ⟨d, h⟩)

theorem indexFor_lt_shareSize (d : Digit) : s.indexFor d < shareSize d := by
  have hshare : ∀ d : Digit, d.val + 1 < shareSize d := by decide
  have hd := hshare d
  unfold indexFor
  split
  · omega
  · next t h =>
    have hle := s.idxOf_targets_le d t h
    omega

/-- The digits of the last target have the number of targets as index. -/
theorem exists_indexFor_eq (h : s.targets ≠ []) : ∃ d, s.indexFor d = s.targets.length := by
  rcases List.eq_nil_or_concat s.targets with hnil | ⟨ts, t, hts⟩
  · exact absurd hnil h
  · rw [List.concat_eq_append] at hts
    have hnd := s.nodup_targets
    have hmem : t ∈ s.targets := by simp [hts]
    obtain ⟨d, hd⟩ := (s.mem_targets t).mp hmem
    have hnot : t ∉ ts := by
      intro ht
      rw [hts] at hnd
      exact (List.nodup_append.mp hnd).2.2 t ht t (List.mem_singleton_self t) rfl
    refine ⟨d, ?_⟩
    rw [indexFor, hd, hts]
    simp [List.idxOf_append, hnot]

theorem foldl_max_indexFor : (Digit.all.map s.indexFor).foldl max 0 = s.targets.length := by
  have hall : ∀ x ∈ Digit.all.map s.indexFor, x ≤ s.targets.length := by
    intro x hx
    obtain ⟨d, -, rfl⟩ := List.mem_map.mp hx
    exact s.indexFor_le d
  obtain ⟨-, hle, hge⟩ := foldl_max_le _ _ 0 (by omega) hall
  by_cases hnil : s.targets = []
  · rw [hnil] at hle ⊢
    exact Nat.le_zero.mp hle
  · obtain ⟨d, hd⟩ := s.exists_indexFor_eq hnil
    have := hge _ (List.mem_map_of_mem (DigitSet.mem_all d))
    omega

theorem length_groupIndices : (groupIndices s.groups).length = 10 := by
  rw [groupIndices, List.length_map]
  rfl

theorem getElem_groupIndices (d : Digit) (h : d.val < (groupIndices s.groups).length) :
    (groupIndices s.groups)[d.val] = s.indexFor d := by
  have hget : (groupIndices s.groups)[d.val]? = some (s.indexFor d) := by
    rw [s.groupIndices_eq, List.getElem?_map, getElem?_all]
    rfl
  rw [List.getElem?_eq_getElem h] at hget
  exact Option.some.inj hget

/-- The indices of a state pack into a field that leads each digit to its target. -/
theorem packIndices_groups :
    ∃ f, packIndices (groupIndices s.groups) = some f ∧ f < fieldLimit ∧
      tableLength f = s.targets.length ∧ ∀ d, indexOf f d = s.indexFor d := by
  obtain ⟨f, hf⟩ := packIndices_of_fits _ s.length_groupIndices fun d h => by
    rw [s.getElem_groupIndices d h]
    exact s.indexFor_lt_shareSize d
  obtain ⟨hlt, hunpack⟩ := unpackIndices_packIndices _ s.length_groupIndices f hf
  refine ⟨f, hf, hlt, ?_, fun d => ?_⟩
  · rw [tableLength, hunpack, s.groupIndices_eq]
    exact s.foldl_max_indexFor
  · have hd := lt_length_unpackIndices f d
    rw [← getElem_unpackIndices f d hd, ← s.getElem_groupIndices d (hunpack ▸ hd)]
    congr 1

end State

/-! ## Runs -/

namespace Automaton

/-- Every digit leads from `p` through the states of a list to `t`; the states between do not
accept and are reached in no other way. -/
def Run (m : Automaton) : (p : Nat) → (between : List Nat) → (t : Nat) → Prop
  | p, [], t => ∀ d, (m.state p).next d = some t
  | p, c :: cs, t =>
    (∀ d, (m.state p).next d = some c) ∧ (∀ q, m.Edge q c → q = p) ∧
      (m.state c).accepting = false ∧ Run m c cs t

theorem inDegrees_getD (m : Automaton) (t : Nat) (ht : t < m.size) :
    m.inDegrees.getD t 0 = (sourcesIn m.targetTable t).length := by
  unfold inDegrees
  rw [Array.getD_eq_getD_getElem?, Array.getElem?_map, Array.getElem?_eq_getElem (by simpa using ht)]
  simp

theorem source_unique (m : Automaton) (t : Nat) (ht : t < m.size) (h : m.inDegrees.getD t 0 = 1)
    (p q : Nat) (hp : m.Edge p t) (hq : m.Edge q t) : q = p := by
  rw [m.inDegrees_getD t ht, List.length_eq_one_iff] at h
  obtain ⟨a, ha⟩ := h
  have hmem := fun r => m.mem_sourcesIn r t
  rw [ha] at hmem
  rw [List.mem_singleton.mp ((hmem q).mpr hq), List.mem_singleton.mp ((hmem p).mpr hp)]

theorem edge_of_groups (m : Automaton) (s : Nat) (gs : List (DigitSet × Nat))
    (h : (m.state s).groups = gs) : ∀ t ∈ gs.map (·.2), m.Edge s t := by
  intro t ht
  rw [← (State.targets_of_groups _ _ h).1] at ht
  exact (m.mem_targets_state s t).mp ht

/-- All digits lead one way where the only group is full. -/
theorem next_of_full (m : Automaton) (s t : Nat) (h : (m.state s).groups = [(DigitSet.full, t)])
    (d : Digit) : (m.state s).next d = some t := by
  rw [State.next_of_single_group _ _ t h, DigitSet.mem_full, if_pos rfl]

end Automaton

/-- What a run takes in leads from one state to the next. -/
theorem absorb_run (m : Automaton) (hm : m.Minimal) (room : Nat) : ∀ p s : Nat,
    (∀ d, (m.state p).next d = some s) →
      m.Run p (absorb m m.inDegrees room s).1 (absorb m m.inDegrees room s).2 ∧
        (absorb m m.inDegrees room s).1.length ≤ room := by
  induction room with
  | zero => exact fun p s hp => ⟨hp, Nat.le_refl _⟩
  | succ room ih =>
    intro p s hp
    rw [absorb]
    by_cases hcond : s ≠ Automaton.terminal ∧ m.inDegrees.getD s 0 = 1 ∧ (m.state s).accepting = false
    · rw [if_pos hcond]
      obtain ⟨-, hdeg, hacc⟩ := hcond
      have hs := hm.next_lt p 0 s (hp 0)
      split
      · next digits t hgroups =>
        by_cases hfull : digits = DigitSet.full
        · rw [if_pos hfull]
          rw [hfull] at hgroups
          obtain ⟨hrun, hlen⟩ := ih s t (m.next_of_full s t hgroups)
          exact ⟨⟨hp, fun q hq => m.source_unique s hs hdeg p q ⟨0, hp 0⟩ hq, hacc, hrun⟩,
            Nat.succ_le_succ hlen⟩
        · rw [if_neg hfull]
          exact ⟨hp, Nat.zero_le _⟩
      · exact ⟨hp, Nat.zero_le _⟩
    · rw [if_neg hcond]
      exact ⟨hp, Nat.zero_le _⟩

/-! ## Shapes -/

/-- The blocks of a state and the states they take in, each with what it says about the state. -/
inductive BlockShape (m : Automaton) (s : Nat) : List CodeItem → List Nat → Prop
  /-- nothing leads on -/
  | stop (h : ∀ d, (m.state s).next d = none) : BlockShape m s [.plain (.branch 0 false)] []
  /-- one digit leads on -/
  | single (d : Digit) (t : Nat) (h : ∀ e, (m.state s).next e = if e = d then some t else none) :
    BlockShape m s [.plain (.single d.val (m.state s).accepting), .jump t 0] []
  /-- all digits lead one way -/
  | run (between : List Nat) (t : Nat) (h : m.Run s between t) (hlen : between.length ≤ 15)
    (haccept : (m.state s).accepting = true → between = []) :
    BlockShape m s [.plain (.run (between.length + 1) (m.state s).accepting), .jump t 0] between
  /-- some digits lead one way -/
  | member (g : DigitSet) (t : Nat) (he : m.Edge s t)
    (h : ∀ d, (m.state s).next d = if g.mem d then some t else none) :
    BlockShape m s [.plain (.set g.toNat (m.state s).accepting none), .jump t 0] []
  /-- some digits lead one way and the rest another -/
  | split (g : DigitSet) (t u : Nat) (ht : m.Edge s t) (hu : m.Edge s u)
    (h : ∀ d, (m.state s).next d = some (if g.mem d then t else u)) :
    BlockShape m s (.dispatch (.set g.toNat (m.state s).accepting) 2 :: jumpsTo [t, u]) []
  /-- every digit has an index -/
  | table (f : Nat) (t : Nat) (he : m.Edge s t) (hf : f < fieldLimit)
    (htable : tableLength f = (m.state s).targets.length)
    (hindex : ∀ d, indexOf f d = (m.state s).indexFor d) :
    BlockShape m s (.dispatch (.map f (m.state s).accepting) (m.state s).targets.length
      :: jumpsTo (m.state s).targets) []

theorem mapBlock_shape (m : Automaton) (s t : Nat) (he : m.Edge s t) :
    BlockShape m s (mapBlock (m.state s).accepting (m.state s).groups) [] := by
  obtain ⟨f, hpack, hf, htable, hindex⟩ := (m.state s).packIndices_groups
  have htargets := (State.targets_of_groups _ _ rfl : (m.state s).targets = _ ∧ _).1
  have hlen : (m.state s).groups.length = (m.state s).targets.length := List.length_map _
  unfold mapBlock
  rw [hpack, ← htargets, hlen]
  exact BlockShape.table f t he hf htable hindex

theorem DigitSet.mem_of_toList (g : DigitSet) (d : Digit) (h : g.toList = [d]) (e : Digit) :
    g.mem e = decide (e = d) := by
  have hmem : e ∈ g.toList ↔ g.mem e = true := by
    rw [DigitSet.toList, List.mem_filter]
    exact and_iff_right (DigitSet.mem_all e)
  rw [Bool.eq_iff_iff, ← hmem, h, List.mem_singleton, decide_eq_true_iff]

theorem singleBlock_shape (m : Automaton) (hm : m.Minimal) (s : Nat) (g : DigitSet) (t : Nat)
    (h : (m.state s).groups = [(g, t)]) :
    BlockShape m s (blockOf m m.inDegrees s).1 (blockOf m m.inDegrees s).2 := by
  have hnext := State.next_of_single_group _ g t h
  unfold blockOf
  dsimp only
  rw [h]
  dsimp only
  split
  · next d hd =>
    refine BlockShape.single d t fun e => ?_
    rw [hnext e, g.mem_of_toList d hd]
    exact if_congr decide_eq_true_iff rfl rfl
  · by_cases hfull : g = DigitSet.full
    · rw [if_pos hfull]
      have hall : ∀ d, (m.state s).next d = some t := by
        rw [hfull] at h
        exact m.next_of_full s t h
      cases hacc : (m.state s).accepting with
      | true =>
        rw [if_pos rfl, ← hacc]
        exact BlockShape.run [] t hall (Nat.zero_le _) fun _ => rfl
      | false =>
        obtain ⟨hrun, hlen⟩ := absorb_run m hm (maxRun - 1) s t hall
        have hshape := BlockShape.run _ _ hrun hlen fun h => by
          rw [hacc] at h
          cases h
        rw [hacc] at hshape
        exact hshape
    · rw [if_neg hfull]
      exact BlockShape.member g t (m.edge_of_groups s _ h t (List.mem_singleton_self t)) hnext

/-- Two groups that cover all digits. -/
theorem next_of_two_groups (m : Automaton) (s t u : Nat) (g k : DigitSet)
    (h : (m.state s).groups = [(g, t), (k, u)]) (hall : g ||| k = DigitSet.full) (d : Digit) :
    (m.state s).next d = some (if g.mem d then t else u) := by
  obtain ⟨-, hmem⟩ := State.targets_of_groups _ _ h
  cases hg : g.mem d with
  | true =>
    rw [if_pos rfl]
    exact (hmem (g, t) (List.mem_cons_self ..) d).mp hg
  | false =>
    have hk : k.mem d = true := by
      have := DigitSet.mem_full d
      rwa [← hall, DigitSet.mem_union, hg, Bool.false_or] at this
    rw [if_neg (by decide)]
    exact (hmem (k, u) (List.mem_cons_of_mem _ (List.mem_singleton_self _)) d).mp hk

/-- The block of a state of a minimal automaton is of a shape that says where its edges lead. -/
theorem blockOf_shape (m : Automaton) (hm : m.Minimal) (s : Nat) :
    BlockShape m s (blockOf m m.inDegrees s).1 (blockOf m m.inDegrees s).2 := by
  cases hgroups : (m.state s).groups with
  | nil =>
    have hnone : ∀ d, (m.state s).next d = none := by
      intro d
      obtain ⟨htargets, -⟩ := State.targets_of_groups _ _ hgroups
      rcases State.next_of_targets (m.state s) d with hn | ⟨t, ht, -⟩
      · exact hn
      · rw [htargets] at ht
        cases ht
    unfold blockOf
    dsimp only
    rw [hgroups]
    exact BlockShape.stop hnone
  | cons g1 gs =>
    obtain ⟨g, t⟩ := g1
    cases gs with
    | nil => exact singleBlock_shape m hm s g t hgroups
    | cons g2 gs =>
      obtain ⟨k, u⟩ := g2
      have hmap := mapBlock_shape m s t (m.edge_of_groups s _ hgroups t (List.mem_cons_self ..))
      rw [hgroups] at hmap
      unfold blockOf
      dsimp only
      rw [hgroups]
      cases gs with
      | nil =>
        dsimp only
        by_cases hall : g ||| k = DigitSet.full
        · rw [if_pos hall]
          have hedge := m.edge_of_groups s _ hgroups
          exact BlockShape.split g t u (hedge t (List.mem_cons_self ..))
            (hedge u (List.mem_cons_of_mem _ (List.mem_singleton_self u)))
            (next_of_two_groups m s t u g k hgroups hall)
        · rw [if_neg hall]
          exact hmap
      | cons g3 gs => exact hmap

end NumberPlan
