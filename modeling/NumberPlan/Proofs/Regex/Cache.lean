import NumberPlan.Regex.Cache
import NumberPlan.Proofs.Text.Entries

/-!
# What a cache holds

A cache is reached from an empty one by requests.  Every object in it was compiled from the
pattern it is kept under (`Cache.Faithful`), so a request answers what compiling would.

    c.Reachable compile → (c.get compile p).1.map (·.regex) = compile p        (get_regex)

Of each pattern there is one object at most, and there is room for all (`Cache.Orderly`).
-/

namespace NumberPlan.Regex

namespace Cache

variable {ρ : Type}

/-- Caches that requests lead to from an empty one. -/
inductive Reachable (compile : String → Option ρ) : Cache ρ → Prop
  | empty (n : Nat) : Reachable compile (withCapacity n)
  | get (c : Cache ρ) (pattern : String) (h : Reachable compile c) :
    Reachable compile (c.get compile pattern).2

/-- Every object is what its pattern compiles to. -/
def Faithful (compile : String → Option ρ) (c : Cache ρ) : Prop :=
  ∀ e ∈ c.entries, compile e.1 = some e.2.regex

theorem Faithful.get (compile : String → Option ρ) (c : Cache ρ) (pattern : String)
    (h : c.Faithful compile) : (c.get compile pattern).2.Faithful compile := by
  unfold Cache.get
  split
  · next r hr =>
    intro e he
    rcases List.mem_cons.mp he with rfl | he
    · exact h _ (mem_of_lookup _ _ _ hr)
    · exact h e (List.mem_filter.mp he).1
  · split
    · exact h
    · next regex hcompile =>
      intro e he
      rcases List.mem_cons.mp (List.mem_of_mem_take he) with rfl | he
      · exact hcompile
      · exact h e he

theorem Reachable.faithful (compile : String → Option ρ) (c : Cache ρ)
    (h : Reachable compile c) : c.Faithful compile := by
  induction h with
  | empty n => exact fun e he => nomatch he
  | get c pattern _ ih => exact ih.get compile c pattern

/-- A request answers what compiling the pattern would. -/
theorem get_regex (compile : String → Option ρ) (c : Cache ρ) (pattern : String)
    (h : Reachable compile c) :
    (c.get compile pattern).1.map (·.regex) = compile pattern := by
  unfold Cache.get
  split
  · next r hr =>
    exact (h.faithful compile c (pattern, r) (mem_of_lookup _ _ _ hr)).symm
  · split
    · next hcompile => exact hcompile.symm
    · next regex hcompile => exact hcompile.symm

/-! ## What a request comes to -/

section

variable (compile : String → Option ρ) (c : Cache ρ) (p : String)

theorem get_of_some (r : Compiled ρ) (h : c.entries.lookup p = some r) :
    c.get compile p = (some r, c.refresh p r) := by
  simp only [get, h]

theorem get_of_none (regex : ρ) (h : c.entries.lookup p = none) (hp : compile p = some regex) :
    c.get compile p = (some ⟨c.compiled, regex⟩, c.push p ⟨c.compiled, regex⟩) := by
  simp only [get, h, hp]

theorem get_of_uncompiled (h : c.entries.lookup p = none) (hp : compile p = none) :
    c.get compile p = (none, c) := by
  simp only [get, h, hp]

theorem get_of_invalid (h : c.Faithful compile) (hp : compile p = none) :
    c.get compile p = (none, c) := by
  cases hlook : c.entries.lookup p with
  | none => exact c.get_of_uncompiled compile p hlook hp
  | some r =>
    have hcompile := h (p, r) (mem_of_lookup _ _ _ hlook)
    rw [hp] at hcompile
    cases hcompile

theorem capacity_get : (c.get compile p).2.capacity = c.capacity := by
  unfold get
  split
  · rfl
  · split <;> rfl

theorem compiled_le_get : c.compiled ≤ (c.get compile p).2.compiled := by
  unfold get
  split
  · exact Nat.le_refl _
  · split
    · exact Nat.le_refl _
    · exact Nat.le_succ _

/-- Entries come in by requests for their patterns only. -/
theorem mem_of_mem_get (e : String × Compiled ρ) (he : e ∈ (c.get compile p).2.entries)
    (hne : e.1 ≠ p) : e ∈ c.entries := by
  unfold get at he
  split at he
  · next r hr =>
    rcases List.mem_cons.mp he with rfl | hold
    · exact absurd rfl hne
    · exact (List.mem_filter.mp hold).1
  · split at he
    · exact he
    · rcases List.mem_cons.mp (List.mem_of_mem_take he) with rfl | hold
      · exact absurd rfl hne
      · exact hold

end

/-! ## Caches in order -/

/-- The entries of a cache are told apart by their patterns, there is room for them, and their
objects have been made. -/
structure Orderly (c : Cache ρ) : Prop where
  pos : 0 < c.capacity
  distinct : c.entries.Pairwise fun a b => a.1 ≠ b.1
  length_le : c.entries.length ≤ c.capacity
  serial_lt : ∀ e ∈ c.entries, e.2.serial < c.compiled

/-- The same entries, in another order perhaps. -/
structure Reorders (c d : Cache ρ) : Prop where
  capacity : d.capacity = c.capacity
  entries : d.entries.Perm c.entries
  compiled : d.compiled = c.compiled

/-- One more object has been made. -/
def made (c : Cache ρ) : Cache ρ := { c with compiled := c.compiled + 1 }

/-- The cache with an object in front, and the others as far as there is room. -/
def insert (c : Cache ρ) (p : String) (r : Compiled ρ) : Cache ρ :=
  { c with entries := ((p, r) :: c.entries).take c.capacity }

section

variable {compile : String → Option ρ} {c d : Cache ρ} {p : String} (h : c.Orderly)

include h

theorem Orderly.reorders (hd : c.Reorders d) : d.Orderly := by
  constructor
  · exact hd.capacity ▸ h.pos
  · exact h.distinct.perm hd.entries.symm Ne.symm
  · rw [hd.capacity, hd.entries.length_eq]
    exact h.length_le
  · intro e he
    rw [hd.compiled]
    exact h.serial_lt e (hd.entries.mem_iff.mp he)

theorem Orderly.lookup_iff (r : Compiled ρ) : c.entries.lookup p = some r ↔ (p, r) ∈ c.entries :=
  ⟨mem_of_lookup c.entries p r, lookup_of_mem c.entries h.distinct p r⟩

theorem Reorders.lookup (hd : c.Reorders d) : d.entries.lookup p = c.entries.lookup p := by
  refine Option.ext fun r => ?_
  rw [h.lookup_iff, (h.reorders hd).lookup_iff]
  exact hd.entries.mem_iff

theorem Orderly.reorders_refresh (r : Compiled ρ) (hlook : c.entries.lookup p = some r) :
    c.Reorders (c.refresh p r) :=
  ⟨rfl, perm_front c.entries h.distinct p r hlook, rfl⟩

theorem Orderly.refresh (r : Compiled ρ) (hlook : c.entries.lookup p = some r) :
    (c.refresh p r).Orderly := h.reorders (h.reorders_refresh r hlook)

theorem Orderly.made : c.made.Orderly :=
  ⟨h.pos, h.distinct, h.length_le, fun e he => Nat.lt_succ_of_lt (h.serial_lt e he)⟩

theorem Orderly.insert (r : Compiled ρ) (hlook : c.entries.lookup p = none)
    (hr : r.serial < c.compiled) : (c.insert p r).Orderly := by
  have habsent := (lookup_eq_none_iff_notMem c.entries p).mp hlook
  constructor
  · exact h.pos
  · refine List.Pairwise.sublist (List.take_sublist _ _) ?_
    refine List.pairwise_cons.mpr ⟨fun e he heq => habsent ?_, h.distinct⟩
    exact List.mem_map.mpr ⟨e, he, heq.symm⟩
  · exact List.length_take_le _ _
  · intro e he
    rcases List.mem_cons.mp (List.mem_of_mem_take he) with rfl | hold
    · exact hr
    · exact h.serial_lt e hold

theorem Orderly.lookup_insert (r : Compiled ρ) : (c.insert p r).entries.lookup p = some r := by
  obtain ⟨k, hk⟩ : ∃ k, c.capacity = k + 1 := ⟨c.capacity - 1, by have := h.pos; omega⟩
  show (((p, r) :: c.entries).take c.capacity).lookup p = some r
  rw [hk, List.take_succ_cons]
  exact List.lookup_cons_self

theorem Orderly.get : (c.get compile p).2.Orderly := by
  cases hlook : c.entries.lookup p with
  | some r =>
    rw [c.get_of_some compile p r hlook]
    exact h.refresh r hlook
  | none =>
    cases hcompile : compile p with
    | none =>
      rw [c.get_of_uncompiled compile p hlook hcompile]
      exact h
    | some regex =>
      rw [c.get_of_none compile p regex hlook hcompile]
      exact h.made.insert _ hlook (Nat.lt_succ_self _)

/-- The object that a request answers with is in front. -/
theorem Orderly.lookup_get (hp : (compile p).isSome = true) :
    (c.get compile p).2.entries.lookup p = (c.get compile p).1 := by
  obtain ⟨regex, hcompile⟩ := Option.isSome_iff_exists.mp hp
  cases hlook : c.entries.lookup p with
  | some r =>
    rw [c.get_of_some compile p r hlook]
    exact List.lookup_cons_self
  | none =>
    rw [c.get_of_none compile p regex hlook hcompile]
    exact h.made.lookup_insert _

end

end Cache

end NumberPlan.Regex
