import Mathlib.Data.List.Nodup
import Mathlib.Data.List.Perm.Lattice
import Mathlib.Data.List.Perm.Subperm
import NumberPlan.Text.SortedTable
import NumberPlan.Proofs.Text.Entries

/-!
# Members of sorted sets and tables

    k ∈ (SortedSet.ofList ks).keys ↔ k ∈ ks                       (mem_keys_ofList)
    (SortedSet.ofList ks).keys.length ≤ ks.length                 (length_keys_ofList_le)
    (SortedTable.ofList es).get? k = es.reverse.lookup k          (SortedTable.get?_ofList)
    ks ascending → (SortedSet.ofList ks).keys = ks                (keys_ofList_of_ascending)
    ks ascending, all below n → ks.length ≤ n                     (length_le_of_ascending)
    ks ascending, k ∈ ks → place? ks.toArray k = ks.idxOf k       (place?_eq_idxOf)
    ks ascending → (place? ks.toArray k = i ↔ ks[i]? = k)         (place?_eq_some_iff)

A table is what it gives for each key (`SortedTable.ext_get?`), so it is the table of its own
entries (`SortedTable.ofList_entries`).
-/

namespace NumberPlan

section

variable {κ ν : Type} [LT κ]

theorem SortedTable.keys_ascending (t : SortedTable κ ν) : t.keys.Pairwise (· < ·) := by
  unfold SortedTable.keys
  rw [List.pairwise_map]
  exact t.ascending

variable [LE κ] [Std.LawfulOrderLT κ]

theorem nodup_of_ascending {α : Type} (key : α → κ) (as : List α)
    (h : as.Pairwise fun a b => key a < key b) : as.Nodup :=
  h.imp fun {a b} (hlt : key a < key b) (heq : a = b) => Std.lt_irrefl (heq ▸ hlt)

theorem SortedTable.keys_distinct (t : SortedTable κ ν) :
    t.entries.Pairwise fun a b => a.1 ≠ b.1 :=
  t.ascending.imp fun {a b} (hlt : a.1 < b.1) (heq : a.1 = b.1) => Std.lt_irrefl (heq ▸ hlt)

variable [Std.IsLinearOrder κ]

/-- Lists with ascending keys and the same members are equal. -/
theorem eq_of_ascending {α : Type} (key : α → κ) (as bs : List α)
    (ha : as.Pairwise fun a b => key a < key b) (hb : bs.Pairwise fun a b => key a < key b)
    (h : ∀ a, a ∈ as ↔ a ∈ bs) : as = bs := by
  have hperm := (List.perm_ext_iff_of_nodup (nodup_of_ascending key as ha)
    (nodup_of_ascending key bs hb)).mpr h
  exact hperm.eq_of_pairwise (fun a b _ _ hab hba => absurd (Std.lt_trans hab hba) Std.lt_irrefl)
    ha hb

variable [DecidableLT κ]

theorem mem_keys_insertEntry (k a : κ) (v : ν) (es : List (κ × ν)) :
    a ∈ (insertEntry k v es).map (·.1) ↔ a = k ∨ a ∈ es.map (·.1) := by
  constructor
  · intro h
    obtain ⟨e, he, rfl⟩ := List.mem_map.mp h
    exact fst_mem_insertEntry k v es e he
  · induction es with
    | nil =>
      rintro (rfl | h)
      · exact List.mem_cons_self ..
      · cases h
    | cons e es ih =>
      intro h
      unfold insertEntry
      split
      · rcases h with rfl | h
        · exact List.mem_cons_self ..
        · exact List.mem_cons_of_mem _ h
      · next hk =>
        split
        · rw [List.map_cons]
          rcases h with rfl | h
          · exact List.mem_cons_of_mem _ (ih (Or.inl rfl))
          · rcases List.mem_cons.mp h with rfl | h
            · exact List.mem_cons_self ..
            · exact List.mem_cons_of_mem _ (ih (Or.inr h))
        · next hk' =>
          have hek : e.1 = k := Std.le_antisymm (Std.not_lt.1 hk) (Std.not_lt.1 hk')
          rcases h with rfl | h
          · rw [← hek]
            exact List.mem_cons_self ..
          · exact h

theorem SortedTable.mem_keys_ofList (es : List (κ × ν)) (a : κ) :
    a ∈ (SortedTable.ofList es).keys ↔ a ∈ es.map Prod.fst := by
  have hfold : ∀ (es : List (κ × ν)) (t : SortedTable κ ν),
      a ∈ (es.foldl (fun t e => t.insert e.1 e.2) t).keys ↔ a ∈ es.map Prod.fst ∨ a ∈ t.keys := by
    intro es
    induction es with
    | nil => exact fun t => (or_iff_right List.not_mem_nil).symm
    | cons e es ih =>
      intro t
      rw [List.foldl_cons, ih, List.map_cons, List.mem_cons]
      show a ∈ es.map Prod.fst ∨ a ∈ (insertEntry e.1 e.2 t.entries).map (·.1) ↔ _
      rw [mem_keys_insertEntry]
      show a ∈ es.map Prod.fst ∨ a = e.1 ∨ a ∈ t.keys ↔ (a = e.1 ∨ a ∈ es.map Prod.fst) ∨ a ∈ t.keys
      rw [← or_assoc, or_comm (a := a ∈ es.map Prod.fst)]
  exact (hfold es _).trans (or_iff_left List.not_mem_nil)

theorem mem_keys_ofList (ks : List κ) (a : κ) : a ∈ (SortedSet.ofList ks).keys ↔ a ∈ ks := by
  rw [SortedSet.ofList, SortedTable.mem_keys_ofList, List.map_map]
  exact Iff.of_eq (congrArg (a ∈ ·) (List.map_id ks))

/-- There are no more distinct keys than entries. -/
theorem SortedTable.length_ofList_le (es : List (κ × ν)) :
    (SortedTable.ofList es).entries.length ≤ es.length := by
  have hnd := nodup_of_ascending id _ (SortedTable.ofList es).keys_ascending
  have hsub : (SortedTable.ofList es).keys ⊆ es.map Prod.fst := fun k hk =>
    (SortedTable.mem_keys_ofList es k).mp hk
  have hle := (List.Nodup.subperm hnd hsub).length_le
  rwa [SortedTable.keys, List.length_map, List.length_map] at hle

theorem length_keys_ofList_le (ks : List κ) : (SortedSet.ofList ks).keys.length ≤ ks.length := by
  have hle := SortedTable.length_ofList_le (ks.map fun k => (k, ()))
  rwa [List.length_map, ← List.length_map (·.1)] at hle

/-- The last value given to a key is the one it has. -/
theorem SortedTable.get?_ofList [BEq κ] [LawfulBEq κ] (es : List (κ × ν)) (k : κ) :
    (SortedTable.ofList es).get? k = es.reverse.lookup k := by
  have hfold : ∀ (es : List (κ × ν)) (t : SortedTable κ ν),
      (es.foldl (fun t e => t.insert e.1 e.2) t).get? k = (es.reverse.lookup k).or (t.get? k) := by
    intro es
    induction es with
    | nil => exact fun t => rfl
    | cons e es ih =>
      intro t
      rw [List.foldl_cons, ih, SortedTable.get?_insert, List.reverse_cons, List.lookup_append,
        Option.or_assoc, List.lookup_cons]
      cases k == e.1 <;> rfl
  rw [SortedTable.ofList, hfold]
  exact Option.or_none

theorem keys_ofList_of_ascending (ks : List κ) (h : ks.Pairwise (· < ·)) :
    (SortedSet.ofList ks).keys = ks :=
  eq_of_ascending id _ _ (SortedTable.keys_ascending _) h fun k => mem_keys_ofList ks k

end

/-- There are at most `n` numbers below `n`. -/
theorem length_le_of_ascending (ks : List Nat) (h : ks.Pairwise (· < ·)) (n : Nat)
    (hlt : ∀ k ∈ ks, k < n) : ks.length ≤ n := by
  have hsub : ks ⊆ List.range n := fun k hk => List.mem_range.mpr (hlt k hk)
  have hle := (List.Nodup.subperm (nodup_of_ascending id ks h) hsub).length_le
  rwa [List.length_range] at hle

/-! ## Places -/

section

variable {κ : Type} [LT κ] [LE κ] [DecidableLT κ] [Std.IsLinearOrder κ] [Std.LawfulOrderLT κ]
  (ks : List κ) (h : ks.Pairwise (· < ·))

include h

/-- The halvings keep the place of the key between the ends. -/
theorem placeFrom?_eq (i : Nat) (hi : i < ks.length) (steps : Nat) : ∀ low high : Nat,
    low ≤ i → i < high → high ≤ ks.length → high - low < steps →
    placeFrom? ks.toArray ks[i] steps low high = some i := by
  have hlt : ∀ a b (ha : a < ks.length) (hb : b < ks.length), a < b → ks[a] < ks[b] :=
    List.pairwise_iff_getElem.mp h
  induction steps with
  | zero => intro low high _ _ _ hsteps; omega
  | succ steps ih =>
    intro low high hlow hhigh hlen hsteps
    rw [placeFrom?, if_pos (by omega)]
    dsimp only
    generalize hmid : low + (high - low) / 2 = mid
    have hbound : mid < ks.length := by omega
    simp only [List.getElem?_toArray, List.getElem?_eq_getElem hbound]
    rcases Nat.lt_trichotomy mid i with hbelow | rfl | habove
    · rw [if_pos (hlt mid i hbound hi hbelow)]
      exact ih (mid + 1) high (by omega) hhigh hlen (by omega)
    · rw [if_neg Std.lt_irrefl, if_neg Std.lt_irrefl]
    · have hka := hlt i mid hi hbound habove
      rw [if_neg (Std.not_lt.mpr (Std.le_of_lt hka)), if_pos hka]
      exact ih low mid hlow habove (by omega) (by omega)

theorem place?_of_getElem? (k : κ) (i : Nat) (hk : ks[i]? = some k) :
    place? ks.toArray k = some i := by
  obtain ⟨hi, rfl⟩ := List.getElem?_eq_some_iff.mp hk
  exact placeFrom?_eq ks h i hi (ks.length + 1) 0 ks.length (Nat.zero_le _) hi (Nat.le_refl _)
    (by omega)

theorem place?_eq_idxOf [BEq κ] [LawfulBEq κ] (k : κ) (hk : k ∈ ks) :
    place? ks.toArray k = some (ks.idxOf k) :=
  place?_of_getElem? ks h k _ (List.getElem?_idxOf hk)

omit h in
/-- What the halvings end at is the key. -/
theorem getElem?_of_placeFrom? (k : κ) (i : Nat) (steps : Nat) : ∀ low high : Nat,
    placeFrom? ks.toArray k steps low high = some i → ks[i]? = some k := by
  induction steps with
  | zero =>
    intro low high hplace
    cases hplace
  | succ steps ih =>
    intro low high hplace
    rw [placeFrom?] at hplace
    dsimp only at hplace
    split at hplace
    · split at hplace
      · cases hplace
      · next a ha =>
        rw [List.getElem?_toArray] at ha
        split at hplace
        · exact ih _ _ hplace
        · next hak =>
          split at hplace
          · exact ih _ _ hplace
          · next hka =>
            obtain rfl := Option.some.inj hplace
            rw [ha, Std.le_antisymm (Std.not_lt.1 hka) (Std.not_lt.1 hak)]
    · cases hplace

/-- Halving finds a key just where it is. -/
theorem place?_eq_some_iff (k : κ) (i : Nat) : place? ks.toArray k = some i ↔ ks[i]? = some k :=
  ⟨getElem?_of_placeFrom? ks k i _ _ _, place?_of_getElem? ks h k i⟩

end

/-! ## Keys and values -/

section

variable {κ ν : Type} [LT κ] [LE κ] [Std.LawfulOrderLT κ] [BEq κ] [LawfulBEq κ]
  (t : SortedTable κ ν)

theorem SortedTable.get?_iff (k : κ) (v : ν) : t.get? k = some v ↔ (k, v) ∈ t.entries :=
  ⟨mem_of_lookup t.entries k v, lookup_of_mem t.entries t.keys_distinct k v⟩

theorem SortedTable.mem_keys (k : κ) : k ∈ t.keys ↔ ∃ v, t.get? k = some v := by
  unfold SortedTable.keys
  rw [List.mem_map]
  constructor
  · rintro ⟨⟨k, v⟩, h, rfl⟩
    exact ⟨v, (t.get?_iff k v).mpr h⟩
  · rintro ⟨v, h⟩
    exact ⟨_, (t.get?_iff k v).mp h, rfl⟩

variable [Std.IsLinearOrder κ]

/-- Tables that give the same for every key are equal. -/
theorem SortedTable.ext_get? (s t : SortedTable κ ν) (h : ∀ k, s.get? k = t.get? k) : s = t := by
  have hentries : s.entries = t.entries :=
    eq_of_ascending Prod.fst _ _ s.ascending t.ascending fun e => by
      rw [← s.get?_iff, ← t.get?_iff, h]
  cases s
  cases t
  cases hentries
  rfl

variable [DecidableLT κ]

/-- Halving among the keys finds what the table gives. -/
theorem SortedTable.get?_eq_place? (k : κ) :
    t.get? k = (place? t.keys.toArray k).bind fun i => t.values[i]? := by
  have hplace := place?_eq_some_iff t.keys t.keys_ascending k
  cases hfound : place? t.keys.toArray k with
  | none =>
    cases hv : t.get? k with
    | none => rfl
    | some v =>
      obtain ⟨i, hi⟩ := List.mem_iff_getElem?.mp ((t.mem_keys k).mpr ⟨v, hv⟩)
      rw [(hplace i).mpr hi] at hfound
      cases hfound
  | some i =>
    have hkey := (hplace i).mp hfound
    rw [SortedTable.keys, List.getElem?_map, Option.map_eq_some_iff] at hkey
    obtain ⟨e, he, rfl⟩ := hkey
    rw [Option.bind_some, SortedTable.values, List.getElem?_map, he]
    exact (t.get?_iff e.1 e.2).mpr (List.mem_of_getElem? he)

theorem SortedTable.mem_of_mem_ofList (es : List (κ × ν)) (e : κ × ν)
    (h : e ∈ (SortedTable.ofList es).entries) : e ∈ es := by
  have hget := (SortedTable.get?_iff _ e.1 e.2).mpr h
  rw [SortedTable.get?_ofList] at hget
  exact List.mem_reverse.mp (mem_of_lookup _ e.1 e.2 hget)

theorem SortedTable.ofList_entries : SortedTable.ofList t.entries = t := by
  refine SortedTable.ext_get? _ _ fun k => Option.ext fun v => ?_
  rw [SortedTable.get?_ofList, t.get?_iff]
  constructor
  · exact fun h => List.mem_reverse.mp (mem_of_lookup _ k v h)
  · refine fun h => lookup_of_mem _ ?_ k v (List.mem_reverse.mpr h)
    exact List.pairwise_reverse.mpr (t.keys_distinct.imp Ne.symm)

theorem SortedSet.ofList_keys (s : SortedSet κ) : SortedSet.ofList s.keys = s := by
  have hentries : (s.keys.map fun k => (k, ())) = s.entries := by
    rw [SortedTable.keys, List.map_map]
    exact List.map_id _
  rw [SortedSet.ofList, hentries, SortedTable.ofList_entries]

theorem SortedSet.ext_keys (s s' : SortedSet κ) (h : ∀ k, k ∈ s.keys ↔ k ∈ s'.keys) : s = s' := by
  have hkeys : s.keys = s'.keys := eq_of_ascending id _ _ s.keys_ascending s'.keys_ascending h
  rw [← ofList_keys s, hkeys, ofList_keys]

end

end NumberPlan
