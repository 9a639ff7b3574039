import NumberPlan.Regex.SharedCache
import NumberPlan.Proofs.Regex.Lru
import NumberPlan.Proofs.Regex.Recency

/-!
# A cache on a store

What a store shows is a cache (`view`).  With any store that keeps the rules, requests are answered
as that cache answers them, and change it in the same way:

    view L (after L compile n requests) = Cache.after compile n requests       (view_after)

So the store holds the patterns asked for last, and an object lives until too many others were
asked for (`holds_most_recent`).
-/

namespace NumberPlan.Regex.SharedCache

variable {σ ρ : Type} {L : LruStore σ String (Compiled ρ)}

/-- The cache that a store shows. -/
def view (L : LruStore σ String (Compiled ρ)) (c : SharedCache σ ρ) : Cache ρ where
  capacity := L.capacity c.store
  entries := L.entries c.store
  compiled := c.compiled

/-! ## Steps -/

section

variable (hL : L.Lawful) (c : SharedCache σ ρ) (p : String)

include hL

theorem view_new (n : Nat) : view L (new L n) = Cache.withCapacity n := by
  have hpos : 0 < max n 1 := Nat.le_max_right n 1
  show Cache.mk (L.capacity (L.withCapacity _)) (L.entries (L.withCapacity _)) 0 = _
  rw [hL.capacity_withCapacity _ hpos, hL.entries_withCapacity _ hpos]
  rfl

theorem view_contains : view L (contains L p c).2 = view L c := by
  show Cache.mk (L.capacity (L.contains p c.store).2) (L.entries (L.contains p c.store).2) _ = _
  rw [hL.capacity_contains, hL.entries_contains]
  rfl

theorem look_of_some (r : Compiled ρ) (h : (view L c).entries.lookup p = some r) :
    ∃ c', look L p c = (some r, c') ∧ view L c' = (view L c).refresh p r ∧
      c'.evicted = c.evicted := by
  obtain ⟨hvalue, hentries⟩ := hL.get_some p r c.store h
  refine ⟨(look L p c).2, Prod.ext hvalue rfl, ?_, rfl⟩
  show Cache.mk (L.capacity (L.get p c.store).2) (L.entries (L.get p c.store).2) _ = _
  rw [hL.capacity_get, hentries]
  rfl

theorem look_of_none (h : (view L c).entries.lookup p = none) :
    ∃ c', look L p c = (none, c') ∧ view L c' = view L c ∧ c'.evicted = c.evicted := by
  obtain ⟨hvalue, hentries⟩ := hL.get_none p c.store h
  refine ⟨(look L p c).2, Prod.ext hvalue rfl, ?_, rfl⟩
  show Cache.mk (L.capacity (L.get p c.store).2) (L.entries (L.get p c.store).2) _ = _
  rw [hL.capacity_get, hentries]
  rfl

theorem look_cases (hc : (view L c).Orderly) :
    ∃ c', look L p c = ((view L c).entries.lookup p, c') ∧ (view L c).Reorders (view L c') ∧
      c'.evicted = c.evicted := by
  cases hlook : (view L c).entries.lookup p with
  | some r =>
    obtain ⟨c', hfound, hview, hevicted⟩ := look_of_some hL c p r hlook
    exact ⟨c', hfound, hview ▸ hc.reorders_refresh r hlook, hevicted⟩
  | none =>
    obtain ⟨c', hfound, hview, hevicted⟩ := look_of_none hL c p hlook
    exact ⟨c', hfound, hview ▸ ⟨rfl, .refl _, rfl⟩, hevicted⟩

/-- What does not fit behind the new object gives way. -/
theorem view_keep (r : Compiled ρ) (h : (view L c).entries.lookup p = none)
    (hc : (view L c).Orderly) :
    view L (keep L p r c) = (view L c).insert p r ∧
      (keep L p r c).evicted =
        c.evicted ++ ((p, r) :: (view L c).entries).drop (view L c).capacity := by
  obtain ⟨hentries, hgone⟩ := hL.push_eq r h hc.pos hc.length_le
  constructor
  · show Cache.mk (L.capacity (L.push p r c.store).2) (L.entries (L.push p r c.store).2) _ = _
    rw [hL.capacity_push, hentries]
    rfl
  · show c.evicted ++ (L.push p r c.store).1.toList = _
    rw [hgone]
    rfl

/-! ## Requests -/

variable (compile : String → Option ρ)

/-- A request is answered as the cache that is shown would answer it. -/
theorem view_get (hc : (view L c).Orderly) :
    (get L compile p c).1 = ((view L c).get compile p).1 ∧
      view L (get L compile p c).2 = ((view L c).get compile p).2 := by
  cases hlook : (view L c).entries.lookup p with
  | some r =>
    obtain ⟨c', hfound, hview, -⟩ := look_of_some hL c p r hlook
    have hget : get L compile p c = (some r, c') := by simp only [get, hfound]
    rw [hget, (view L c).get_of_some compile p r hlook]
    exact ⟨rfl, hview⟩
  | none =>
    -- the second look finds what the first one left
    obtain ⟨c₁, hmiss, hview₁, -⟩ := look_of_none hL c p hlook
    obtain ⟨c₂, hmiss₁, hview₂, -⟩ := look_of_none hL c₁ p (hview₁ ▸ hlook)
    have hview : view L c₂ = view L c := hview₂.trans hview₁
    cases hcompile : compile p with
    | none =>
      have hget : get L compile p c = (none, c₂) := by simp only [get, hmiss, hmiss₁, hcompile]
      rw [hget, (view L c).get_of_uncompiled compile p hlook hcompile]
      exact ⟨rfl, hview⟩
    | some regex =>
      have hget : get L compile p c =
          (some (make regex c₂).1, keep L p (make regex c₂).1 (make regex c₂).2) := by
        simp only [get, hmiss, hmiss₁, hcompile]
      rw [hget, (view L c).get_of_none compile p regex hlook hcompile, ← hview]
      have horderly : (view L c₂).Orderly := hview ▸ hc
      have habsent : (view L c₂).entries.lookup p = none := hview ▸ hlook
      exact ⟨rfl, (view_keep hL (make regex c₂).2 p _ habsent horderly.made).1⟩

variable (n : Nat) (requests : List Request)

theorem view_after : view L (after L compile n requests) = Cache.after compile n requests := by
  induction requests using List.reverseRecOn with
  | nil => exact view_new hL n
  | append_singleton requests r ih =>
    have hnext : after L compile n (requests ++ [r]) =
        next L compile (after L compile n requests) r := List.foldl_append ..
    rw [hnext, Cache.after_snoc, ← ih]
    cases r with
    | contains p => exact view_contains hL _ p
    | get p =>
      exact (view_get hL _ p compile (ih ▸ Cache.orderly_after compile n requests)).2

theorem get_after : (get L compile p (after L compile n requests)).1 =
    Cache.answer compile n requests p := by
  have hview := view_after hL compile n requests
  rw [(view_get hL _ p compile (hview ▸ Cache.orderly_after compile n requests)).1, hview]
  rfl

end

/-- The patterns asked for last are cached.  Asking whether a pattern is cached changes nothing, nor
does a request for one that does not compile.  The object for a pattern stays the same as long as
fewer other patterns than there is room for were asked for between two requests for it. -/
theorem holds_most_recent (hL : L.Lawful) (compile : String → Option ρ) (n : Nat)
    (requests : List Request) :
    let c := after L compile n requests
    patterns L c = (recent compile requests).take (max n 1) ∧
      L.capacity c.store = max n 1 ∧ size L c ≤ max n 1 ∧
      (∀ p, (contains L p c).1 = decide (p ∈ patterns L c) ∧
        L.entries (contains L p c).2.store = L.entries c.store) ∧
      (∀ p, (get L compile p c).1.map (·.regex) = compile p) ∧
      (∀ p, compile p = none → L.entries (get L compile p c).2.store = L.entries c.store) ∧
      ∀ p between, compile p ≠ none →
        ((get L compile p (after L compile n (requests ++ .get p :: between))).1 =
            (get L compile p c).1 ↔
          ∀ gap ∈ between.splitOn (.get p), (recent compile gap).length < max n 1) := by
  intro c
  have hview : view L c = Cache.after compile n requests := view_after hL compile n requests
  have horderly : (view L c).Orderly := hview ▸ Cache.orderly_after compile n requests
  have hcapacity : (view L c).capacity = max n 1 := by
    rw [hview]
    exact Cache.capacity_after compile n requests
  have hreachable : Cache.Reachable compile (view L c) :=
    hview ▸ Cache.reachable_after compile n requests
  refine ⟨?_, hcapacity, ?_, fun p => ⟨?_, hL.entries_contains p c.store⟩, fun p => ?_,
    fun p hp => ?_, fun p between hp => ?_⟩
  · show (view L c).patterns = _
    rw [hview]
    exact Cache.patterns_after compile n requests
  · show L.size c.store ≤ max n 1
    rw [hL.size_eq, ← hcapacity]
    exact horderly.length_le
  · show (L.contains p c.store).1 = decide (p ∈ (view L c).entries.map Prod.fst)
    rw [hL.contains_eq, Bool.eq_iff_iff, decide_eq_true_iff, ← not_iff_not,
      ← lookup_eq_none_iff_notMem, Option.not_isSome_iff_eq_none]
    rfl
  · rw [(view_get hL c p compile horderly).1]
    exact Cache.get_regex compile _ p hreachable
  · have hsame := (view_get hL c p compile horderly).2
    rw [Cache.get_of_invalid compile _ p hreachable.faithful hp] at hsame
    exact congrArg Cache.entries hsame
  · have hvalid := Option.isSome_iff_ne_none.mpr hp
    obtain ⟨r, hr⟩ := Cache.exists_answer compile n p requests hvalid
    obtain ⟨r', hr'⟩ := Cache.exists_answer compile n p (requests ++ .get p :: between) hvalid
    rw [get_after hL, get_after hL, hr, hr', Option.some_inj]
    exact (Cache.answer_again compile n p hvalid between requests r r' hr hr').2

/-- Of three patterns two have room: one that is asked for again is kept, the other is not. -/
theorem holds_most_recent_asked_again :
    let compile := fun p : String => if p = "(" then none else some p.length
    let L : LruStore (Listed String (Compiled Nat)) String (Compiled Nat) := Listed.store
    let requests := [.get "1", .get "2", .get "(", .get "1", .contains "2", .get "3"]
    let again := fun between => (get L compile "1" (after L compile 2 (requests ++ between))).1
    L.Lawful ∧ patterns L (after L compile 2 requests) = ["3", "1"] ∧ compile "1" ≠ none ∧
      again [.get "1", .get "2"] = again [] ∧ again [.get "1", .get "2", .get "3"] ≠ again [] := by
  intro compile L requests again
  obtain ⟨hpatterns, -, -, -, -, -, hsame⟩ :=
    holds_most_recent Listed.store_lawful compile 2 requests
  have hone := hsame "1" [.get "2"] (by decide)
  have htwo := hsame "1" [.get "2", .get "3"] (by decide)
  refine ⟨Listed.store_lawful, hpatterns.trans (by decide), by decide, ?_, ?_⟩
  · exact hone.mpr (by decide)
  · exact fun heq => absurd (htwo.mp heq) (by decide)

end NumberPlan.Regex.SharedCache
