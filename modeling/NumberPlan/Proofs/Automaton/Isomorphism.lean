import Mathlib.Data.List.Forall2
import NumberPlan.Proofs.Automaton.Canonical

/-!
# Canonical automata are equal

The states of two minimal automata with the same words correspond one to one, by the words read
from them (`SameWords`).  Edges lead to corresponding states, so the traversals list
corresponding states at the same places, and numbering by place makes the automata equal.

    m.Minimal → n.Minimal → (∀ w, m.Words w ↔ n.Words w) → m.canonical = n.canonical
                                                                      (canonical_eq)
-/

namespace NumberPlan

/-! ## Corresponding lists -/

section

variable {R : Nat → Nat → Prop} (hR : Relator.BiUnique R)

include hR

theorem eq_iff_eq_of_biUnique {a b c d : Nat} (hac : R a c) (hbd : R b d) : a = b ↔ c = d :=
  ⟨fun h => hR.2 (h ▸ hac) hbd, fun h => hR.1 (h ▸ hac) hbd⟩

theorem forall₂_eraseDups : ∀ (n : Nat) (as bs : List Nat), as.length ≤ n →
    List.Forall₂ R as bs → List.Forall₂ R as.eraseDups bs.eraseDups := by
  intro n
  induction n with
  | zero =>
    intro as bs hlen h
    obtain rfl := List.length_eq_zero_iff.mp (Nat.le_zero.mp hlen)
    cases h
    exact List.Forall₂.nil
  | succ n ih =>
    intro as bs hlen h
    cases h with
    | nil => exact List.Forall₂.nil
    | @cons a b as bs hab h =>
      have hfilter : List.Forall₂ R (as.filter fun c => !c == a) (bs.filter fun c => !c == b) :=
        List.rel_filter (fun c d hcd => by
          show (!c == a) = true ↔ (!d == b) = true
          rw [Bool.not_eq_true', Bool.not_eq_true', beq_eq_false_iff_ne, beq_eq_false_iff_ne]
          exact not_congr (eq_iff_eq_of_biUnique hR hcd hab)) h
      have hle := List.length_filter_le (fun c => !c == a) as
      rw [List.length_cons] at hlen
      rw [List.eraseDups_cons, List.eraseDups_cons]
      exact List.Forall₂.cons hab (ih _ _ (by omega) hfilter)

theorem idxOf_eq_of_forall₂ (as bs : List Nat) (h : List.Forall₂ R as bs) (a b : Nat)
    (hab : R a b) : as.idxOf a = bs.idxOf b := by
  induction h with
  | nil => rfl
  | @cons c d as bs hcd _ ih =>
    rw [List.idxOf_cons, List.idxOf_cons, ih]
    have : (c == a) = (d == b) := by
      rw [Bool.eq_iff_iff, beq_iff_eq, beq_iff_eq]
      exact eq_iff_eq_of_biUnique hR hcd hab
    rw [this]

end

/-! ## States with the same words -/

namespace Automaton

/-- States of two automata from which the same words are read. -/
def SameWords (m n : Automaton) (s t : Nat) : Prop :=
  s < m.size ∧ t < n.size ∧ ∀ w, m.accepts s w = n.accepts t w

section

variable (m n : Automaton) (hm : m.Minimal) (hn : n.Minimal)

theorem SameWords.symm (s t : Nat) (h : m.SameWords n s t) : n.SameWords m t s :=
  ⟨h.2.1, h.1, fun w => (h.2.2 w).symm⟩

include hm hn

theorem sameWords_biUnique : Relator.BiUnique (m.SameWords n) := by
  constructor
  · rintro a b c ⟨ha, -, hac⟩ ⟨hb, -, hbc⟩
    exact hm.distinct a ha b hb fun w => by rw [hac w, hbc w]
  · rintro a b c ⟨-, hb, hab⟩ ⟨-, hc, hac⟩
    exact hn.distinct b hb c hc fun w => by rw [← hab w, hac w]

/-- A digit that leads on from one state leads on from the other, to a state with the same words. -/
theorem SameWords.next_some (s t : Nat) (h : m.SameWords n s t) (d : Digit) (q : Nat)
    (hq : (m.state s).next d = some q) :
    ∃ r, (n.state t).next d = some r ∧ m.SameWords n q r := by
  obtain ⟨hs, ht, hw⟩ := h
  have hqs := hm.next_lt s d q hq
  cases hr : (n.state t).next d with
  | none =>
    obtain ⟨w, hlive⟩ := hm.live q hqs
    have := hw (d :: w)
    rw [m.accepts_cons_some s q d w hq, n.accepts_cons_none t d w hr, hlive] at this
    cases this
  | some r =>
    refine ⟨r, rfl, hqs, hn.next_lt t d r hr, fun w => ?_⟩
    rw [← m.accepts_cons_some s q d w hq, ← n.accepts_cons_some t r d w hr, hw (d :: w)]

theorem SameWords.next (s t : Nat) (h : m.SameWords n s t) (d : Digit) :
    Option.Rel (m.SameWords n) ((m.state s).next d) ((n.state t).next d) := by
  cases hq : (m.state s).next d with
  | some q =>
    obtain ⟨r, hr, hqr⟩ := SameWords.next_some m n hm hn s t h d q hq
    rw [hr]
    exact Option.Rel.some hqr
  | none =>
    cases hr : (n.state t).next d with
    | none => exact Option.Rel.none
    | some r =>
      obtain ⟨q, hq', -⟩ := SameWords.next_some n m hn hm t s (h.symm m n) d r hr
      rw [hq] at hq'
      cases hq'

theorem SameWords.targets (s t : Nat) (h : m.SameWords n s t) :
    List.Forall₂ (m.SameWords n) (m.state s).targets (n.state t).targets := by
  unfold State.targets
  refine forall₂_eraseDups (sameWords_biUnique m n hm hn) _ _ _ (Nat.le_refl _) ?_
  refine List.rel_filterMap (R := Eq) (fun d e hde => ?_) (List.forall₂_refl _)
  rw [← hde]
  exact h.next m n hm hn s t d

theorem SameWords.isSink (s t : Nat) (h : m.SameWords n s t) :
    (m.state s).isSink = (n.state t).isSink := by
  have htargets := h.targets m n hm hn s t
  unfold State.isSink
  generalize (m.state s).targets = as at htargets ⊢
  generalize (n.state t).targets = bs at htargets ⊢
  cases htargets <;> rfl

variable (hstart : m.SameWords n m.start n.start)

include hstart

/-- Every state has one that corresponds to it, along the word that leads to it. -/
theorem exists_sameWords (s : Nat) (hs : s < m.size) : ∃ t, m.SameWords n s t := by
  have hgo : ∀ (u : List Digit) (a b s : Nat), m.SameWords n a b → m.go a u = some s →
      ∃ t, m.SameWords n s t := by
    intro u
    induction u with
    | nil =>
      intro a b s h hgo
      cases hgo
      exact ⟨b, h⟩
    | cons d u ih =>
      intro a b s h hgo
      rw [go] at hgo
      split at hgo
      · cases hgo
      · next q hq =>
        obtain ⟨r, -, hqr⟩ := h.next_some m n hm hn a b d q hq
        exact ih q r s hqr hgo
  obtain ⟨u, hu⟩ := hm.reached s hs
  exact hgo u _ _ s hstart hu

/-- Corresponding states are different, so there are as many at least. -/
theorem size_le_of_sameWords : m.size ≤ n.size := by
  have hex : ∀ s, ∃ t, s < m.size → m.SameWords n s t := by
    intro s
    by_cases hs : s < m.size
    · obtain ⟨t, ht⟩ := exists_sameWords m n hm hn hstart s hs
      exact ⟨t, fun _ => ht⟩
    · exact ⟨0, fun h => absurd h hs⟩
  obtain ⟨f, hf⟩ := Classical.axiomOfChoice hex
  have hnd : ((List.range m.size).map f).Nodup := by
    refine List.Nodup.map_on (fun a ha b hb hab => ?_) List.nodup_range
    have hb' := hf b (List.mem_range.mp hb)
    rw [← hab] at hb'
    exact (sameWords_biUnique m n hm hn).1 (hf a (List.mem_range.mp ha)) hb'
  have hsub : (List.range m.size).map f ⊆ List.range n.size := by
    intro t ht
    obtain ⟨s, hs, rfl⟩ := List.mem_map.mp ht
    exact List.mem_range.mpr (hf s (List.mem_range.mp hs)).2.1
  have := (hnd.subperm hsub).length_le
  rwa [List.length_map, List.length_range, List.length_range] at this

end

/-! ## Traversals -/

section

variable (m n : Automaton) (hm : m.Minimal) (hn : n.Minimal)

/-- The table of sources says which states lead to a state. -/
theorem all_sources_iff (m : Automaton) (t : Nat) (ht : t < m.size) (visited : List Nat) :
    (((Array.range m.size).map (sourcesIn m.targetTable)).getD t []).all visited.contains = true ↔
      ∀ q, m.Edge q t → q ∈ visited := by
  rw [m.sources_getD t ht, List.all_eq_true]
  simp only [mem_sourcesIn, List.contains_iff_mem]

include hm hn

theorem edge_of_sameWords (s t q r : Nat) (hst : m.SameWords n s t) (hqr : m.SameWords n q r)
    (he : m.Edge q s) : n.Edge r t := by
  obtain ⟨d, hd⟩ := he
  obtain ⟨t', ht', hst'⟩ := hqr.next_some m n hm hn q r d s hd
  rw [(sameWords_biUnique m n hm hn).2 hst hst']
  exact ⟨d, ht'⟩

/-- All sources of a state are listed if all those of the corresponding one are. -/
theorem sources_listed (hstart : n.SameWords m n.start m.start) (s t : Nat)
    (h : m.SameWords n s t) (as bs : List Nat) (hab : List.Forall₂ (m.SameWords n) as bs)
    (hs : ∀ q, m.Edge q s → q ∈ as) : ∀ r, n.Edge r t → r ∈ bs := by
  intro r hr
  obtain ⟨q, hq⟩ := exists_sameWords n m hn hm hstart r hr.lt_size
  have hqr := hq.symm n m
  have he := edge_of_sameWords n m hn hm t s r q (h.symm m n) hq hr
  exact (List.rel_mem (sameWords_biUnique m n hm hn) hqr hab).mp (hs q he)

variable (hstart : m.SameWords n m.start n.start)

include hstart

theorem forall₂_ready (s t : Nat) (h : m.SameWords n s t) (as bs : List Nat)
    (hab : List.Forall₂ (m.SameWords n) as bs) :
    List.Forall₂ (m.SameWords n) (m.readyAfter s as) (n.readyAfter t bs) := by
  have hvisited : List.Forall₂ (m.SameWords n) (s :: as) (t :: bs) := List.Forall₂.cons h hab
  have hback : List.Forall₂ (n.SameWords m) (t :: bs) (s :: as) :=
    hvisited.flip.imp fun _ _ h => SameWords.symm m n _ _ h
  refine List.rel_filter (fun q r hqr => ?_) (h.targets m n hm hn s t)
  show (Array.getD _ q []).all _ = true ↔ (Array.getD _ r []).all _ = true
  rw [all_sources_iff m q hqr.1, all_sources_iff n r hqr.2.1]
  exact ⟨sources_listed m n hm hn (hstart.symm m n) q r hqr _ _ hvisited,
    sources_listed n m hn hm hstart r q (hqr.symm m n) _ _ hback⟩

/-- Traversals list corresponding states at the same places. -/
theorem forall₂_traverse (fuel : Nat) : ∀ as bs qs rs : List Nat,
    List.Forall₂ (m.SameWords n) as bs → List.Forall₂ (m.SameWords n) qs rs →
      List.Forall₂ (m.SameWords n)
        (traverse m.targetTable ((Array.range m.size).map (sourcesIn m.targetTable)) fuel as qs)
        (traverse n.targetTable ((Array.range n.size).map (sourcesIn n.targetTable)) fuel bs rs) := by
  induction fuel with
  | zero =>
    intro as bs qs rs _ hqr
    rw [traverse.eq_2 _ _ _ _ _ (fun _ _ _ h => by simp at h),
      traverse.eq_2 _ _ _ _ _ (fun _ _ _ h => by simp at h)]
    exact List.rel_reverse hqr
  | succ fuel ih =>
    intro as bs qs rs hab hqr
    cases hab with
    | nil =>
      rw [traverse.eq_2 _ _ _ _ _ (fun _ _ _ _ h => by simp at h),
        traverse.eq_2 _ _ _ _ _ (fun _ _ _ _ h => by simp at h)]
      exact List.rel_reverse hqr
    | @cons s t as bs hst hab =>
      have hready := forall₂_ready m n hm hn hstart s t hst qs rs hqr
      unfold readyAfter at hready
      rw [traverse, traverse, targetTable_getD, targetTable_getD]
      exact ih _ _ _ _ (List.rel_append hab hready) (List.Forall₂.cons hst hqr)

theorem forall₂_topologicalOrder :
    List.Forall₂ (m.SameWords n) m.topologicalOrder n.topologicalOrder := by
  have hsize : m.size = n.size := Nat.le_antisymm (size_le_of_sameWords m n hm hn hstart)
    (size_le_of_sameWords n m hn hm (hstart.symm m n))
  have h := forall₂_traverse m n hm hn hstart m.size [m.start] [n.start] [] []
    (List.Forall₂.cons hstart List.Forall₂.nil) List.Forall₂.nil
  unfold topologicalOrder
  rw [← hsize]
  rw [← hsize] at h
  exact h

theorem forall₂_canonicalOrder :
    List.Forall₂ (m.SameWords n) m.canonicalOrder n.canonicalOrder := by
  have hrest : List.Forall₂ (m.SameWords n) (m.topologicalOrder.filter (· != m.start))
      (n.topologicalOrder.filter (· != n.start)) := by
    refine List.rel_filter (fun s t hst => ?_) (forall₂_topologicalOrder m n hm hn hstart)
    show (s != m.start) = true ↔ (t != n.start) = true
    rw [bne_iff_ne, bne_iff_ne]
    exact not_congr (eq_iff_eq_of_biUnique (sameWords_biUnique m n hm hn) hst hstart)
  refine List.Forall₂.cons hstart (List.rel_append ?_ ?_)
  · refine List.rel_filter (fun s t hst => ?_) hrest
    show (m.state s).isSink = true ↔ (n.state t).isSink = true
    rw [hst.isSink m n hm hn s t]
  · refine List.rel_filter (fun s t hst => ?_) hrest
    show (!(m.state s).isSink) = true ↔ (!(n.state t).isSink) = true
    rw [hst.isSink m n hm hn s t]

end

/-! ## Numbering -/

/-- Minimal automata with the same words have the same canonical automaton. -/
theorem canonical_eq (m n : Automaton) (hm : m.Minimal) (hn : n.Minimal)
    (h : ∀ w, m.accepts m.start w = n.accepts n.start w) : m.canonical = n.canonical := by
  have hstart : m.SameWords n m.start n.start := ⟨hm.start_lt, hn.start_lt, h⟩
  have horder := forall₂_canonicalOrder m n hm hn hstart
  have hidx : ∀ s t, m.SameWords n s t → m.canonicalOrder.idxOf s = n.canonicalOrder.idxOf t :=
    idxOf_eq_of_forall₂ (sameWords_biUnique m n hm hn) _ _ horder
  have hstates : m.canonicalOrder.map (fun s =>
        (⟨(m.state s).accepting, (m.state s).edges.map fun t => t.map m.canonicalOrder.idxOf⟩ : State))
      = n.canonicalOrder.map (fun s =>
        ⟨(n.state s).accepting, (n.state s).edges.map fun t => t.map n.canonicalOrder.idxOf⟩) := by
    refine List.forall₂_eq_eq_eq ▸ List.rel_map (fun s t hst => ?_) horder
    refine State.ext_next _ _ (hst.2.2 []) fun d => ?_
    have hnext := hst.next m n hm hn s t d
    unfold State.next at hnext ⊢
    rw [Vector.getElem_map, Vector.getElem_map]
    generalize (m.state s).edges[d.val] = q at hnext
    generalize (n.state t).edges[d.val] = r at hnext
    cases hnext with
    | none => rfl
    | some hqr => exact congrArg some (hidx _ _ hqr)
  unfold canonical renumber
  dsimp only
  rw [hstates]

end Automaton

end NumberPlan
