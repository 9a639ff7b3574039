import NumberPlan.Proofs.Program.Access
import NumberPlan.Proofs.Program.BlockShape

/-!
# Fields of states

The groups of a state are numbered from one in the order of their lowest digits, so that the index
of a digit is within its share whatever the targets are (`State.indexFor_lt_shareSize`).

    indexFor d = 0     ↔ no edge on d                          (State.indexFor_eq_zero)
    indexFor d = i + 1 ↔ group i holds d                       (State.indexFor_eq_succ)
    the indices of the groups make a field with one table entry a group  (State.pack_groups)
-/

namespace NumberPlan

namespace State

variable (s : State)

theorem indexFor_eq_zero (d : Digit) : s.indexFor d = 0 ↔ s.next d = none := by
  unfold indexFor
  cases s.next d with
  | none => simp
  | some t => simp

/-- The group at a place holds the digits that lead to the target at that place. -/
theorem getElem?_groups (i : Nat) :
    s.groups[i]? = s.targets[i]?.map fun t => (s.digitsTo t, t) :=
  List.getElem?_map

theorem indexFor_eq_succ (d : Digit) (i : Nat) :
    s.indexFor d = i + 1 ↔ ∃ g, s.groups[i]? = some g ∧ g.1.mem d = true := by
  have hgroup : (∃ g, s.groups[i]? = some g ∧ g.1.mem d = true) ↔
      ∃ t, s.targets[i]? = some t ∧ s.next d = some t := by
    simp [s.getElem?_groups, s.mem_digitsTo]
  rw [hgroup]
  unfold indexFor
  constructor
  · intro h
    cases hd : s.next d with
    | none => simp [hd] at h
    | some t =>
      have hidx : s.targets.idxOf t = i := by simpa [hd] using h
      have hmem : t ∈ s.targets := (s.mem_targets t).mpr ⟨d, hd⟩
      exact ⟨t, by rw [← hidx, List.getElem?_idxOf hmem], rfl⟩
  · rintro ⟨t, ht, hd⟩
    obtain ⟨hi, rfl⟩ := List.getElem?_eq_some_iff.mp ht
    simp [hd, s.nodup_targets.idxOf_getElem i hi]

end State

/-! ## Any ten indices -/

theorem getElem_vector (v : Vector Nat 10) (d : Digit) (h : d.val < v.toList.length) :
    v.toList[d.val] = v.get d := rfl

theorem packIndices_vector (v : Vector Nat 10) (f : Nat) :
    packIndices v.toList = some f ↔ f < fieldLimit ∧ ∀ d, indexOf f d = v.get d := by
  rw [packIndices_eq_some _ v.length_toList]
  refine and_congr_right fun _ => ?_
  constructor
  · intro h d
    have hd := lt_length_unpackIndices f d
    rw [← getElem_unpackIndices f d hd, ← getElem_vector v d (h ▸ hd)]
    congr 1
  · intro h
    refine List.ext_getElem (by simp [length_unpackIndices]) fun k hk hk' => ?_
    have hk10 : k < 10 := by simpa using hk'
    rw [getElem_unpackIndices f ⟨k, hk10⟩ hk, h]
    exact (getElem_vector v ⟨k, hk10⟩ hk').symm

theorem exists_packIndices (v : Vector Nat 10) :
    (∃ f, packIndices v.toList = some f) ↔
      ∀ d, v.get d < 2 ^ shareWidths.getD d.val 0 := by
  have hsize : ∀ d, shareSize d = 2 ^ shareWidths.getD d.val 0 := fun d =>
    (share_bits d).2.2.2.2.2
  constructor
  · rintro ⟨f, hf⟩ d
    rw [← ((packIndices_vector v f).mp hf).2 d, ← hsize d]
    exact indexOf_lt_shareSize f d
  · intro h
    refine packIndices_of_fits _ v.length_toList fun d hd => ?_
    rw [getElem_vector v d hd, hsize d]
    exact h d

/-- Numbering the groups of a state from one always gives a field, which shows for each digit the
number of the group that holds it and refers to as many table entries as there are groups.  In
general ten indices make a field just if each takes no more bits than its share has, and then the
field is the one that shows them. -/
theorem State.pack_groups (s : State) (v : Vector Nat 10) :
    (∃ f, packIndices (groupIndices s.groups) = some f ∧ f < 2 ^ 29 ∧
      unpackIndices f = groupIndices s.groups ∧ tableLength f = s.groups.length ∧
      ∀ d, (indexOf f d = 0 ↔ s.next d = none) ∧
        ∀ i, indexOf f d = i + 1 ↔ ∃ g, s.groups[i]? = some g ∧ g.1.mem d = true) ∧
    (∀ f, packIndices v.toList = some f ↔ f < 2 ^ 29 ∧ ∀ d, indexOf f d = v.get d) ∧
    ((∃ f, packIndices v.toList = some f) ↔
      ∀ d, v.get d < 2 ^ shareWidths.getD d.val 0) := by
  refine ⟨?_, packIndices_vector v, exists_packIndices v⟩
  obtain ⟨f, hf, hlt, htable, hindex⟩ := s.packIndices_groups
  obtain ⟨-, hunpack⟩ := unpackIndices_packIndices _ s.length_groupIndices f hf
  have hgroups : s.groups.length = s.targets.length := List.length_map _
  refine ⟨f, hf, hlt, hunpack, htable.trans hgroups.symm, fun d => ?_⟩
  rw [hindex d]
  exact ⟨s.indexFor_eq_zero d, s.indexFor_eq_succ d⟩

end NumberPlan
