/-!
# Looking up in a list of entries

    es.lookup k = some v → (k, v) ∈ es
    (k, v) ∈ es → es.lookup k = some v      where keys are distinct
    es.lookup k = none ↔ k ∉ keys of es
    k ∈ keys of es → es.lookup k = some v   where all have the value v
    es.reverse.lookup k = some v            where v is the value of the last entry of k

An entry that is put in front of the others (`perm_front`) leaves the same entries.
-/

namespace NumberPlan

variable {κ ν : Type} [BEq κ] [LawfulBEq κ]

theorem mem_of_lookup (es : List (κ × ν)) (k : κ) (v : ν) (h : es.lookup k = some v) :
    (k, v) ∈ es := by
  obtain ⟨l, r, rfl, -⟩ := List.lookup_eq_some_iff.mp h
  exact List.mem_append_right l (List.mem_cons_self ..)

theorem lookup_of_mem (es : List (κ × ν)) (hnd : es.Pairwise fun a b => a.1 ≠ b.1) (k : κ) (v : ν)
    (h : (k, v) ∈ es) : es.lookup k = some v := by
  obtain ⟨l, r, rfl⟩ := List.append_of_mem h
  refine List.lookup_eq_some_iff.mpr ⟨l, r, rfl, fun e he => ?_⟩
  rw [bne_iff_ne]
  exact ((List.pairwise_append.mp hnd).2.2 e he (k, v) (List.mem_cons_self ..)).symm

theorem lookup_eq_none_iff_notMem (es : List (κ × ν)) (k : κ) :
    es.lookup k = none ↔ k ∉ es.map Prod.fst := by
  simp only [List.lookup_eq_none_iff, bne_iff_ne, List.mem_map, not_exists, not_and]
  exact ⟨fun h e he heq => h e he heq.symm, fun h e he heq => h e he heq.symm⟩

omit [LawfulBEq κ] in
theorem lookup_map {μ : Type} (f : ν → μ) (es : List (κ × ν)) (k : κ) :
    (es.map fun e => (e.1, f e.2)).lookup k = (es.lookup k).map f := by
  induction es with
  | nil => rfl
  | cons e es ih =>
    rw [List.map_cons, List.lookup_cons, List.lookup_cons, ih]
    cases k == e.1 <;> rfl

/-- From the end, the last entry of a key is found. -/
theorem lookup_reverse_eq_some_iff (es : List (κ × ν)) (k : κ) (v : ν) :
    es.reverse.lookup k = some v ↔
      ∃ before after, es = before ++ (k, v) :: after ∧ k ∉ after.map Prod.fst := by
  constructor
  · intro h
    obtain ⟨l, r, hes, hl⟩ := List.lookup_eq_some_iff.mp h
    refine ⟨r.reverse, l.reverse, ?_, ?_⟩
    · rw [← es.reverse_reverse, hes, List.reverse_append, List.reverse_cons, List.append_assoc]
      rfl
    · rw [List.map_reverse, List.mem_reverse, ← lookup_eq_none_iff_notMem, List.lookup_eq_none_iff]
      exact hl
  · rintro ⟨before, after, rfl, hafter⟩
    rw [List.reverse_append, List.reverse_cons, List.append_assoc, List.lookup_append,
      (lookup_eq_none_iff_notMem _ k).mpr (by rwa [List.map_reverse, List.mem_reverse]),
      Option.none_or, List.singleton_append, List.lookup_cons, beq_self_eq_true]

/-- Where all keys have one value, it is found for each of them. -/
theorem lookup_of_const (es : List (κ × ν)) (v : ν) (hv : ∀ e ∈ es, e.2 = v) (k : κ)
    (hk : k ∈ es.map Prod.fst) : es.lookup k = some v := by
  cases h : es.lookup k with
  | none => exact absurd hk ((lookup_eq_none_iff_notMem es k).mp h)
  | some v' => exact congrArg some (hv _ (mem_of_lookup es k v' h))

theorem filter_of_lookup_none (es : List (κ × ν)) (k : κ) (h : es.lookup k = none) :
    (es.filter fun e => e.1 != k) = es := by
  refine List.filter_eq_self.mpr fun e he => bne_iff_ne.mpr ?_
  rintro rfl
  exact (lookup_eq_none_iff_notMem es e.1).mp h (List.mem_map_of_mem he)

/-- Putting the entry of a key in front changes the order only. -/
theorem perm_front (es : List (κ × ν)) (hnd : es.Pairwise fun a b => a.1 ≠ b.1) (k : κ) (v : ν)
    (h : es.lookup k = some v) : ((k, v) :: es.filter fun e => e.1 != k).Perm es := by
  obtain ⟨l, r, rfl, hl⟩ := List.lookup_eq_some_iff.mp h
  have hleft : (l.filter fun e => e.1 != k) = l := by
    refine List.filter_eq_self.mpr fun e he => bne_iff_ne.mpr ?_
    exact Ne.symm (bne_iff_ne.mp (hl e he))
  have hright : (r.filter fun e => e.1 != k) = r := by
    refine List.filter_eq_self.mpr fun e he => bne_iff_ne.mpr ?_
    exact Ne.symm ((List.pairwise_cons.mp (List.pairwise_append.mp hnd).2.1).1 e he)
  rw [List.filter_append, List.filter_cons_of_neg (by simp), hleft, hright]
  exact List.perm_middle.symm

end NumberPlan
