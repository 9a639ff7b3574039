import Mathlib.Data.List.Dedup
import Mathlib.Data.List.Induction
import NumberPlan.Proofs.Regex.Cache

/-!
# A cache keeps what was asked for last

Of the patterns that were asked for, those that compile count, each at the place where it was asked
for last (`recent`).  A cache holds as many of them as it has room for:

    (after compile n requests).patterns = (recent compile requests).take (max n 1)  (patterns_after)

So a pattern is compiled again just when too many others were asked for in the meantime
(`answer_again`).
-/

namespace NumberPlan.Regex

/-! ## Patterns asked for -/

theorem mem_take_append_cons {α : Type} (x : α) (xs ys : List α) (hx : x ∉ xs) (k : Nat) :
    x ∈ (xs ++ x :: ys).take k ↔ xs.length < k := by
  rw [List.take_append]
  constructor
  · intro h
    by_contra hle
    have hnil : k - xs.length = 0 := by omega
    rw [hnil, List.take_zero, List.append_nil] at h
    exact hx (List.mem_of_mem_take h)
  · intro hlt
    obtain ⟨m, hm⟩ : ∃ m, k - xs.length = m + 1 := ⟨k - xs.length - 1, by omega⟩
    rw [hm, List.take_succ_cons]
    exact List.mem_append_right _ (List.mem_cons_self ..)

section

variable {α : Type} [DecidableEq α]

theorem dedup_append_filter (xs ys : List α) :
    (xs ++ ys).dedup = (xs.dedup.filter fun x => x ∉ ys) ++ ys.dedup := by
  induction xs with
  | nil => rfl
  | cons x xs ih =>
    rw [List.cons_append]
    by_cases hx : x ∈ xs
    · rw [List.dedup_cons_of_mem (List.mem_append_left ys hx), List.dedup_cons_of_mem hx, ih]
    · rw [List.dedup_cons_of_notMem hx]
      by_cases hy : x ∈ ys
      · rw [List.dedup_cons_of_mem (List.mem_append_right xs hy),
          List.filter_cons_of_neg (by simpa using hy), ih]
      · have hxy : x ∉ xs ++ ys := by simp [hx, hy]
        rw [List.dedup_cons_of_notMem hxy, List.filter_cons_of_pos (by simpa using hy), ih,
          List.cons_append]

/-- At most one of the first entries goes away, so the one after them is enough to fill up. -/
theorem take_filter_take (x : α) (xs : List α) (hnd : xs.Nodup) :
    ∀ k, ((xs.take (k + 1)).filter (· ≠ x)).take k = (xs.filter (· ≠ x)).take k := by
  induction xs with
  | nil => exact fun _ => rfl
  | cons y xs ih =>
    intro k
    obtain ⟨hy, hxs⟩ := List.nodup_cons.mp hnd
    by_cases hyx : y = x
    · subst hyx
      have hrest : xs.filter (· ≠ y) = xs :=
        List.filter_eq_self.mpr fun z hz => by simpa using ne_of_mem_of_not_mem hz hy
      have hfirst : (xs.take k).filter (· ≠ y) = xs.take k :=
        List.filter_eq_self.mpr fun z hz => by
          simpa using ne_of_mem_of_not_mem (List.mem_of_mem_take hz) hy
      rw [List.take_succ_cons, List.filter_cons_of_neg (by simp), List.filter_cons_of_neg (by simp),
        hfirst, hrest, List.take_take, Nat.min_self]
    · rw [List.take_succ_cons, List.filter_cons_of_pos (by simpa using hyx),
        List.filter_cons_of_pos (by simpa using hyx)]
      cases k with
      | zero => rfl
      | succ k => rw [List.take_succ_cons, List.take_succ_cons, ih hxs k]

end

section

variable {ρ : Type} (compile : String → Option ρ)

/-- The pattern that is asked for, if it compiles. -/
def Request.valid? : Request → Option String
  | .get p => if (compile p).isSome then some p else none
  | .contains _ => none

/-- The patterns asked for that compile, each once, the one asked for last first. -/
def recent (requests : List Request) : List String :=
  (requests.filterMap (Request.valid? compile)).dedup.reverse

theorem nodup_recent (requests : List Request) : (recent compile requests).Nodup :=
  List.nodup_reverse.mpr (List.nodup_dedup _)

theorem mem_recent (requests : List Request) (p : String) :
    p ∈ recent compile requests ↔ .get p ∈ requests ∧ (compile p).isSome = true := by
  unfold recent
  rw [List.mem_reverse, List.mem_dedup, List.mem_filterMap]
  constructor
  · rintro ⟨r, hr, hvalid⟩
    cases r with
    | contains q => cases hvalid
    | get q =>
      simp only [Request.valid?, Option.ite_none_right_eq_some, Option.some.injEq] at hvalid
      obtain ⟨hq, rfl⟩ := hvalid
      exact ⟨hr, hq⟩
  · rintro ⟨hr, hp⟩
    exact ⟨.get p, hr, if_pos hp⟩

theorem recent_append (before later : List Request) :
    recent compile (before ++ later) =
      recent compile later ++ (recent compile before).filter (· ∉ recent compile later) := by
  unfold recent
  rw [List.filterMap_append, dedup_append_filter, List.reverse_append, ← List.filter_reverse]
  simp only [List.mem_reverse, List.mem_dedup]

variable (p : String) (hp : (compile p).isSome = true)

include hp

theorem recent_singleton : recent compile [.get p] = [p] := by
  have hvalid : Request.valid? compile (.get p) = some p := if_pos hp
  unfold recent
  rw [List.filterMap_cons_some hvalid]
  rfl

theorem recent_snoc (requests : List Request) :
    recent compile (requests ++ [.get p]) = p :: (recent compile requests).filter (· ≠ p) := by
  rw [recent_append, recent_singleton compile p hp]
  simp

/-- After a request, what is asked for later goes before its pattern. -/
theorem recent_since (before later : List Request) (hlater : .get p ∉ later) :
    ∃ older, recent compile (before ++ .get p :: later) = recent compile later ++ p :: older := by
  have hnew : p ∉ recent compile later := fun h => hlater ((mem_recent compile later p).mp h).1
  refine ⟨((recent compile before).filter (· ≠ p)).filter (· ∉ recent compile later), ?_⟩
  rw [← List.singleton_append, ← List.append_assoc, recent_append, recent_snoc compile p hp,
    List.filter_cons_of_pos (by simpa using hnew)]

end

theorem recent_snoc_of_invalid {ρ : Type} (compile : String → Option ρ) (requests : List Request)
    (r : Request) (hr : Request.valid? compile r = none) :
    recent compile (requests ++ [r]) = recent compile requests := by
  unfold recent
  rw [List.filterMap_append, List.filterMap_cons_none hr, List.filterMap_nil, List.append_nil]

/-! ## What is cached -/

namespace Cache

theorem Orderly.patterns_get {ρ : Type} {compile : String → Option ρ} {c : Cache ρ} {p : String}
    (h : c.Orderly) (hp : (compile p).isSome = true) :
    (c.get compile p).2.patterns = (p :: c.patterns.filter (· ≠ p)).take c.capacity := by
  obtain ⟨regex, hcompile⟩ := Option.isSome_iff_exists.mp hp
  have hfilter : (c.entries.filter fun e => e.1 != p).map (·.1) = c.patterns.filter (· ≠ p) := by
    rw [patterns, List.filter_map]
    congr 2
    funext e
    by_cases he : e.1 = p <;> simp [he]
  cases hlook : c.entries.lookup p with
  | some r =>
    have hlength := (h.refresh r hlook).length_le
    rw [c.get_of_some compile p r hlook]
    show p :: (c.entries.filter fun e => e.1 != p).map (·.1) = _
    rw [← hfilter, List.take_of_length_le]
    rw [List.length_cons, List.length_map]
    exact hlength
  | none =>
    rw [c.get_of_none compile p regex hlook hcompile, ← hfilter,
      filter_of_lookup_none c.entries p hlook]
    exact List.map_take

/-! ## Requests -/

section

variable {ρ : Type} (compile : String → Option ρ) (n : Nat) (requests : List Request)

theorem after_snoc (r : Request) :
    after compile n (requests ++ [r]) = next compile (after compile n requests) r :=
  List.foldl_append ..

/-- What requests for patterns keep holds after all requests. -/
theorem holds_after (P : Cache ρ → Prop) (hnew : P (withCapacity n))
    (hget : ∀ c p, P c → P (c.get compile p).2) : P (after compile n requests) := by
  induction requests using List.reverseRecOn with
  | nil => exact hnew
  | append_singleton requests r ih =>
    rw [after_snoc]
    cases r with
    | get p => exact hget _ p ih
    | contains p => exact ih

theorem reachable_after : Reachable compile (after compile n requests) :=
  holds_after compile n requests _ (.empty n) .get

theorem capacity_after : (after compile n requests).capacity = max n 1 :=
  holds_after compile n requests (·.capacity = max n 1) rfl
    fun c p h => (capacity_get compile c p).trans h

theorem orderly_after : (after compile n requests).Orderly :=
  holds_after compile n requests _ ⟨Nat.le_max_right n 1, .nil, Nat.zero_le _, nofun⟩
    fun _ _ h => h.get

/-- The patterns asked for last are cached, as many as there is room for. -/
theorem patterns_after :
    (after compile n requests).patterns = (recent compile requests).take (max n 1) := by
  induction requests using List.reverseRecOn with
  | nil => exact List.take_nil.symm
  | append_singleton requests r ih =>
    rw [after_snoc]
    cases r with
    | contains p =>
      rw [recent_snoc_of_invalid compile requests _ rfl]
      exact ih
    | get p =>
      show ((after compile n requests).get compile p).2.patterns = _
      by_cases hp : (compile p).isSome = true
      · obtain ⟨k, hk⟩ : ∃ k, max n 1 = k + 1 := ⟨max n 1 - 1, by omega⟩
        rw [(orderly_after compile n requests).patterns_get hp, capacity_after, ih,
          recent_snoc compile p hp, hk, List.take_succ_cons, List.take_succ_cons,
          take_filter_take p _ (nodup_recent compile requests)]
      · have hnone : compile p = none := Option.not_isSome_iff_eq_none.mp hp
        rw [get_of_invalid compile _ p (reachable_after compile n requests).faithful hnone, ih,
          recent_snoc_of_invalid compile requests (.get p) (if_neg hp)]

end

/-! ## Answers -/

section

variable {ρ : Type} (compile : String → Option ρ)

/-- Requests for other patterns bring in no entry for this one. -/
theorem mem_of_mem_foldl (p : String) (r : Compiled ρ) (requests : List Request)
    (hother : .get p ∉ requests) :
    ∀ c : Cache ρ, (p, r) ∈ (requests.foldl (next compile) c).entries → (p, r) ∈ c.entries := by
  induction requests with
  | nil => exact fun c h => h
  | cons x requests ih =>
    intro c h
    have hx : .get p ≠ x := List.ne_of_not_mem_cons hother
    have hnext := ih (List.not_mem_of_not_mem_cons hother) (next compile c x) h
    cases x with
    | contains q => exact hnext
    | get q =>
      have hpq : p ≠ q := fun heq => hx (congrArg Request.get heq)
      exact mem_of_mem_get compile c q (p, r) hnext hpq

theorem compiled_le_foldl (requests : List Request) :
    ∀ c : Cache ρ, c.compiled ≤ (requests.foldl (next compile) c).compiled := by
  induction requests with
  | nil => exact fun c => Nat.le_refl _
  | cons x requests ih =>
    intro c
    refine Nat.le_trans ?_ (ih (next compile c x))
    cases x with
    | contains q => exact Nat.le_refl _
    | get q => exact compiled_le_get compile c q

/-- What a request for a pattern answers after other requests. -/
def answer (n : Nat) (requests : List Request) (p : String) : Option (Compiled ρ) :=
  ((after compile n requests).get compile p).1

variable (n : Nat) (p : String) (hp : (compile p).isSome = true)

theorem exists_answer (requests : List Request) (hp : (compile p).isSome = true) :
    ∃ r, answer compile n requests p = some r := by
  have hregex := get_regex compile _ p (reachable_after compile n requests)
  rw [← hregex, Option.isSome_map] at hp
  exact Option.isSome_iff_exists.mp hp

include hp

section

variable (before gap : List Request) (hgap : .get p ∉ gap) (r : Compiled ρ)
  (hr : answer compile n before p = some r)

include hgap

theorem mem_patterns_since :
    p ∈ (after compile n (before ++ .get p :: gap)).patterns ↔
      (recent compile gap).length < max n 1 := by
  obtain ⟨older, holder⟩ := recent_since compile p hp before gap hgap
  have hnew : p ∉ recent compile gap := fun h => hgap ((mem_recent compile gap p).mp h).1
  rw [patterns_after, holder]
  exact mem_take_append_cons p _ older hnew _

include hr

/-- While its pattern is cached, an object is the answer. -/
theorem answer_of_short (hshort : (recent compile gap).length < max n 1) :
    answer compile n (before ++ .get p :: gap) p = some r := by
  have hfront := (orderly_after compile n before).lookup_get hp
  have hafter : after compile n (before ++ .get p :: gap) =
      gap.foldl (next compile) ((after compile n before).get compile p).2 := List.foldl_append ..
  have hcached := (mem_patterns_since compile n p hp before gap hgap).mpr hshort
  obtain ⟨e, he, rfl⟩ := List.mem_map.mp hcached
  have hold : e ∈ ((after compile n before).get compile e.1).2.entries :=
    mem_of_mem_foldl compile e.1 e.2 gap hgap _ (hafter ▸ he)
  have hlook := lookup_of_mem _ (orderly_after compile n before).get.distinct e.1 e.2 hold
  rw [hfront] at hlook
  have hsame : e.2 = r := Option.some.inj (hlook.symm.trans hr)
  have hthere := lookup_of_mem _ (orderly_after compile n _).distinct e.1 e.2 he
  unfold answer
  rw [get_of_some compile _ e.1 e.2 hthere, hsame]

/-- An object that has given way is followed by a new one. -/
theorem answer_of_long (hlong : ¬(recent compile gap).length < max n 1) :
    ∃ r', answer compile n (before ++ .get p :: gap) p = some r' ∧ r.serial < r'.serial := by
  have hfront := (orderly_after compile n before).lookup_get hp
  have hmade := (orderly_after compile n before).get.serial_lt (p, r)
    (mem_of_lookup _ _ _ (hfront.trans hr))
  have hafter : after compile n (before ++ .get p :: gap) =
      gap.foldl (next compile) ((after compile n before).get compile p).2 := List.foldl_append ..
  have hlook : (after compile n (before ++ .get p :: gap)).entries.lookup p = none := by
    rw [lookup_eq_none_iff_notMem]
    exact fun h => hlong ((mem_patterns_since compile n p hp before gap hgap).mp h)
  obtain ⟨regex, hcompile⟩ := Option.isSome_iff_exists.mp hp
  refine ⟨_, congrArg Prod.fst (get_of_none compile _ p regex hlook hcompile), ?_⟩
  show r.serial < (after compile n (before ++ .get p :: gap)).compiled
  rw [hafter]
  exact Nat.lt_of_lt_of_le hmade (compiled_le_foldl compile gap _)

end

/-- The object of a later request is the same as long as there was no gap, between one request for
the pattern and the next, in which too many others were asked for. -/
theorem answer_again (between before : List Request) (r r' : Compiled ρ)
    (hr : answer compile n before p = some r)
    (hr' : answer compile n (before ++ .get p :: between) p = some r') :
    r.serial ≤ r'.serial ∧
      (r' = r ↔ ∀ gap ∈ between.splitOn (.get p), (recent compile gap).length < max n 1) := by
  by_cases hin : .get p ∈ between
  · obtain ⟨gap, rest, rfl, hgap⟩ := List.eq_append_cons_of_mem hin
    rw [← List.cons_append, ← List.append_assoc] at hr'
    rw [List.splitOn_append_cons_self_of_not_mem hgap, List.forall_mem_cons]
    by_cases hshort : (recent compile gap).length < max n 1
    · have hagain := answer_again rest (before ++ .get p :: gap) r r'
        (answer_of_short compile n p hp before gap hgap r hr hshort) hr'
      exact ⟨hagain.1, hagain.2.trans ⟨fun h => ⟨hshort, h⟩, fun h => h.2⟩⟩
    · obtain ⟨m, hm, hlt⟩ := answer_of_long compile n p hp before gap hgap r hr hshort
      have hle := (answer_again rest (before ++ .get p :: gap) m r' hm hr').1
      refine ⟨by omega, fun heq => ?_, fun h => absurd h.1 hshort⟩
      subst heq
      omega
  · rw [List.splitOn_eq_singleton hin, List.forall_mem_singleton]
    by_cases hshort : (recent compile between).length < max n 1
    · rw [answer_of_short compile n p hp before between hin r hr hshort] at hr'
      obtain rfl := Option.some.inj hr'
      exact ⟨Nat.le_refl _, fun _ => hshort, fun _ => rfl⟩
    · obtain ⟨m, hm, hlt⟩ := answer_of_long compile n p hp before between hin r hr hshort
      obtain rfl := Option.some.inj (hm.symm.trans hr')
      refine ⟨by omega, fun heq => ?_, fun h => absurd h hshort⟩
      subst heq
      omega
termination_by between.length

end

end Cache

end NumberPlan.Regex
