import NumberPlan.Metadata.Store

/-!
# What a store shows

    (s.acceptAll rs).find? k = (s.find? k).or (the first of rs with key k)       (find?_acceptAll)

The two shelves need no telling apart any more: a record is looked up under its key, and every
record has one key.  By key it can be read off what each shelf shows (`shown_acceptAll`).
-/

namespace NumberPlan

theorem Shelf.lookup_accept {κ : Type} [BEq κ] [LawfulBEq κ] [DecidableEq κ] (key : Record → κ)
    (r : Record) (s : Shelf κ) (k : κ) :
    (s.accept key r).lookup k = (s.lookup k).or (if key r = k then some r else none) := by
  unfold Shelf.accept
  split
  · next taken htaken =>
    by_cases hk : key r = k
    · rw [← hk, htaken]
      rfl
    · rw [if_neg hk, Option.or_none]
  · rw [List.lookup_append, List.lookup_cons, List.lookup_nil]
    by_cases hk : key r = k
    · rw [if_pos hk, hk, beq_self_eq_true]
    · rw [if_neg hk, beq_false_of_ne (Ne.symm hk)]

namespace Store

theorem find?_empty (k : RecordKey) : empty.find? k = none := by cases k <;> rfl

/-- A record is found under its key, if that was free. -/
theorem find?_accept (s : Store) (r : Record) (k : RecordKey) :
    (s.accept r).find? k = (s.find? k).or (if r.key = k then some r else none) := by
  unfold accept Record.key
  by_cases hmark : Region.isNonGeographic r.id = true
  · rw [if_pos hmark, if_pos hmark]
    cases k with
    | region id =>
      rw [if_neg (fun h => RecordKey.noConfusion h)]
      exact Option.or_none.symm
    | code c =>
      simp only [RecordKey.code.injEq]
      exact Shelf.lookup_accept Record.callingCode r s.byCode c
  · rw [if_neg hmark, if_neg hmark]
    cases k with
    | region id =>
      simp only [RecordKey.region.injEq]
      exact Shelf.lookup_accept Record.id r s.byRegion id
    | code c =>
      rw [if_neg (fun h => RecordKey.noConfusion h)]
      exact Option.or_none.symm

theorem acceptAll_snoc (s : Store) (rs : List Record) (r : Record) :
    s.acceptAll (rs ++ [r]) = (s.acceptAll rs).accept r := by
  unfold acceptAll
  rw [List.foldl_append]
  rfl

/-- The first record of a key stays. -/
theorem find?_acceptAll (s : Store) (rs : List Record) (k : RecordKey) :
    (s.acceptAll rs).find? k = (s.find? k).or (rs.find? fun r => r.key = k) := by
  induction rs generalizing s with
  | nil => exact Option.or_none.symm
  | cons r rs ih =>
    have hstep : s.acceptAll (r :: rs) = (s.accept r).acceptAll rs := rfl
    rw [hstep, ih, find?_accept, Option.or_assoc, List.find?_cons]
    by_cases hk : r.key = k
    · rw [if_pos hk, decide_eq_true hk]
      rfl
    · rw [if_neg hk, decide_eq_false hk]
      rfl

/-- What a key shows stays, whatever is taken in later. -/
theorem find?_acceptAll_of_some (s : Store) (later : List Record) (k : RecordKey) (r : Record)
    (h : s.find? k = some r) : (s.acceptAll later).find? k = some r := by
  rw [find?_acceptAll, h]
  rfl

theorem acceptAll_append (s : Store) (rs later : List Record) :
    s.acceptAll (rs ++ later) = (s.acceptAll rs).acceptAll later :=
  List.foldl_append

end Store

/-! ## What each shelf shows -/

theorem Record.key_eq_region (r : Record) (region : String) :
    r.key = .region region ↔ Region.isNonGeographic region = false ∧ r.id = region := by
  unfold Record.key
  cases hmark : Region.isNonGeographic r.id with
  | true =>
    refine ⟨fun h => RecordKey.noConfusion h, ?_⟩
    rintro ⟨hregion, rfl⟩
    cases hmark.symm.trans hregion
  | false =>
    constructor
    · intro h
      obtain rfl := RecordKey.region.inj h
      exact ⟨hmark, rfl⟩
    · rintro ⟨-, rfl⟩
      rfl

theorem Record.key_eq_code (r : Record) (code : Int) :
    r.key = .code code ↔ r.id = Region.nonGeographic ∧ r.callingCode = code := by
  have hiff : Region.isNonGeographic r.id = true ↔ r.id = Region.nonGeographic := beq_iff_eq
  unfold Record.key
  by_cases hmark : Region.isNonGeographic r.id = true
  · rw [if_pos hmark, RecordKey.code.injEq]
    exact ⟨fun hcode => ⟨hiff.mp hmark, hcode⟩, fun h => h.2⟩
  · rw [if_neg hmark]
    exact ⟨fun h => RecordKey.noConfusion h, fun h => absurd (hiff.mpr h.1) hmark⟩

namespace Store

theorem ofRegion?_acceptAll (rs : List Record) (region : String) :
    (empty.acceptAll rs).ofRegion? region =
      if Region.isNonGeographic region then none else rs.find? fun r => r.id = region := by
  have hfind := find?_acceptAll empty rs (.region region)
  rw [find?_empty, Option.none_or] at hfind
  refine hfind.trans ?_
  simp only [Record.key_eq_region]
  cases Region.isNonGeographic region with
  | true =>
    rw [if_pos rfl, List.find?_eq_none]
    exact fun r _ h => Bool.noConfusion (of_decide_eq_true h).1
  | false => simp only [true_and, Bool.false_eq_true, if_false]

theorem ofCode?_acceptAll (rs : List Record) (code : Int) :
    (empty.acceptAll rs).ofCode? code =
      rs.find? fun r => r.id = Region.nonGeographic ∧ r.callingCode = code := by
  have hfind := find?_acceptAll empty rs (.code code)
  rw [find?_empty, Option.none_or] at hfind
  refine hfind.trans ?_
  simp only [Record.key_eq_code]

/-- A region shows the first record with its id, unless it is the mark, and a code the first one
with the mark and this code.  So no record is shown on both shelves, and what is shown stays. -/
theorem shown_acceptAll (rs later : List Record) :
    (∀ region, (empty.acceptAll rs).ofRegion? region =
      if Region.isNonGeographic region then none else rs.find? fun r => r.id = region) ∧
    (∀ code, (empty.acceptAll rs).ofCode? code =
      rs.find? fun r => r.id = Region.nonGeographic ∧ r.callingCode = code) ∧
    (∀ region code r, (empty.acceptAll rs).ofRegion? region = some r →
      (empty.acceptAll rs).ofCode? code ≠ some r) ∧
    (∀ region r, (empty.acceptAll rs).ofRegion? region = some r →
      (empty.acceptAll (rs ++ later)).ofRegion? region = some r) ∧
    ∀ code r, (empty.acceptAll rs).ofCode? code = some r →
      (empty.acceptAll (rs ++ later)).ofCode? code = some r := by
  refine ⟨ofRegion?_acceptAll rs, ofCode?_acceptAll rs, fun region code r hregion hcode => ?_,
    fun region r h => ?_, fun code r h => ?_⟩
  · rw [ofRegion?_acceptAll] at hregion
    rw [ofCode?_acceptAll] at hcode
    -- the shelf of codes shows only records with the mark, that of regions none of them
    have hmark : r.id = Region.nonGeographic ∧ r.callingCode = code := by
      simpa using List.find?_some hcode
    split at hregion
    · cases hregion
    · next hgeo =>
      have hid : r.id = region := by simpa using List.find?_some hregion
      exact hgeo (beq_iff_eq.mpr (hid.symm.trans hmark.1))
  · rw [acceptAll_append]
    exact find?_acceptAll_of_some _ later (.region region) r h
  · rw [acceptAll_append]
    exact find?_acceptAll_of_some _ later (.code code) r h

/-- A record of no region and no code, kept under code 0, before one that has the same key. -/
theorem shown_acceptAll_unset :
    (empty.acceptAll [{ Record.empty with id? := some "001" }]).ofCode? 0 =
        some { Record.empty with id? := some "001" } ∧
      (empty.acceptAll [{ Record.empty with id? := some "001" },
          { Record.empty with id? := some "001", callingCode? := some 0 }]).ofCode? 0 =
        some { Record.empty with id? := some "001" } := by
  obtain ⟨-, -, -, -, hstays⟩ := shown_acceptAll [{ Record.empty with id? := some "001" }]
    [{ Record.empty with id? := some "001", callingCode? := some 0 }]
  exact ⟨rfl, hstays 0 _ rfl⟩

end Store

end NumberPlan
