import NumberPlan.Regex.Lru
import NumberPlan.Proofs.Text.Entries

/-!
# The rules of a store

What is known of a store is `LruStore.Lawful`: getting makes an entry the one used last, asking
does not, and a new entry that finds no room takes the place of the one used least recently.  No
rule speaks of a push for a key that is there, or of a store that holds more than it has room for.

    L.entries (L.push k v s).2 = ((k, v) :: L.entries s).take (L.capacity s)        (Lawful.push_eq)

A list of entries keeps the rules (`Listed.store_lawful`).
-/

namespace NumberPlan.Regex

variable {σ κ ν : Type} [BEq κ]

/-- The rules that a store keeps. -/
structure LruStore.Lawful (L : LruStore σ κ ν) : Prop where
  capacity_withCapacity : ∀ n, 0 < n → L.capacity (L.withCapacity n) = n
  entries_withCapacity : ∀ n, 0 < n → L.entries (L.withCapacity n) = []
  size_eq : ∀ s, L.size s = (L.entries s).length
  /-- the entry that is got becomes the one used last -/
  get_some : ∀ k v s, (L.entries s).lookup k = some v → (L.get k s).1 = some v ∧
    L.entries (L.get k s).2 = (k, v) :: (L.entries s).filter fun e => e.1 != k
  get_none : ∀ k s, (L.entries s).lookup k = none → (L.get k s).1 = none ∧
    L.entries (L.get k s).2 = L.entries s
  capacity_get : ∀ k s, L.capacity (L.get k s).2 = L.capacity s
  contains_eq : ∀ k s, (L.contains k s).1 = ((L.entries s).lookup k).isSome
  entries_contains : ∀ k s, L.entries (L.contains k s).2 = L.entries s
  capacity_contains : ∀ k s, L.capacity (L.contains k s).2 = L.capacity s
  push_room : ∀ k v s, (L.entries s).lookup k = none → (L.entries s).length < L.capacity s →
    (L.push k v s).1 = none ∧ L.entries (L.push k v s).2 = (k, v) :: L.entries s
  /-- the entry used least recently gives way -/
  push_full : ∀ k v s es e, (L.entries s).lookup k = none → L.entries s = es ++ [e] →
    (L.entries s).length = L.capacity s →
    (L.push k v s).1 = some e ∧ L.entries (L.push k v s).2 = (k, v) :: es
  capacity_push : ∀ k v s, L.capacity (L.push k v s).2 = L.capacity s

section

variable {L : LruStore σ κ ν} (hL : L.Lawful) {k : κ} (v : ν) {s : σ}
  (habsent : (L.entries s).lookup k = none) (hpos : 0 < L.capacity s)
  (hsize : (L.entries s).length ≤ L.capacity s)

include hL habsent hpos hsize

/-- A push shows what there is room for, and what is left over gives way. -/
theorem LruStore.Lawful.push_eq :
    L.entries (L.push k v s).2 = ((k, v) :: L.entries s).take (L.capacity s) ∧
      (L.push k v s).1.toList = ((k, v) :: L.entries s).drop (L.capacity s) := by
  by_cases hroom : (L.entries s).length < L.capacity s
  · have hfits : ((k, v) :: L.entries s).length ≤ L.capacity s := hroom
    obtain ⟨hgone, hentries⟩ := hL.push_room k v s habsent hroom
    rw [hgone, hentries, List.take_of_length_le hfits, List.drop_eq_nil_of_le hfits]
    exact ⟨rfl, rfl⟩
  · have hfull : (L.entries s).length = L.capacity s := by omega
    have hne : L.entries s ≠ [] := List.length_pos_iff.mp (hfull ▸ hpos)
    obtain ⟨es, e, hes⟩ : ∃ es e, L.entries s = es ++ [e] :=
      ⟨_, _, (List.dropLast_concat_getLast hne).symm⟩
    obtain ⟨hgone, hentries⟩ := hL.push_full k v s es e habsent hes hfull
    have hcapacity : L.capacity s = ((k, v) :: es).length := by
      rw [← hfull, hes]
      simp
    rw [hgone, hentries, hes, hcapacity, ← List.cons_append]
    exact ⟨List.take_left.symm, List.drop_left.symm⟩

end

/-! ## A list of entries -/

namespace Listed

variable [LawfulBEq κ] (s : Listed κ ν) (k : κ)

theorem entries_front (v : ν) :
    (s.front k v).entries = ((k, v) :: s.entries.filter fun e => e.1 != k).take s.capacity := rfl

theorem get_of_some (v : ν) (h : s.entries.lookup k = some v) :
    s.get k = (some v, s.front k v) := by
  simp only [get, h]

theorem get_of_none (h : s.entries.lookup k = none) : s.get k = (none, s) := by
  simp only [get, h]

/-- An entry that is there has room in front of the others. -/
theorem entries_front_of_some (v : ν) (h : s.entries.lookup k = some v) :
    (s.front k v).entries = (k, v) :: s.entries.filter fun e => e.1 != k := by
  refine List.take_of_length_le ?_
  rw [(perm_front s.entries s.distinct k v h).length_eq]
  exact s.length_le

section

variable (h : s.entries.lookup k = none)

include h

theorem entries_front_of_none (v : ν) :
    (s.front k v).entries = ((k, v) :: s.entries).take s.capacity := by
  rw [entries_front, filter_of_lookup_none s.entries k h]

theorem push_of_room (v : ν) (hroom : s.entries.length < s.capacity) :
    s.push k v = (none, s.front k v) := by
  simp only [push, h, hroom, if_true]

theorem push_of_full (v : ν) (hfull : s.entries.length = s.capacity) :
    s.push k v = (s.entries.getLast?, s.front k v) := by
  have hnot : ¬s.entries.length < s.capacity := by omega
  simp only [push, h, hnot, if_false]

end

theorem store_lawful : (store : LruStore (Listed κ ν) κ ν).Lawful where
  capacity_withCapacity _ _ := rfl
  entries_withCapacity _ _ := rfl
  size_eq _ := rfl
  get_some k v s h := by
    show (s.get k).1 = some v ∧ (s.get k).2.entries = _
    rw [s.get_of_some k v h]
    exact ⟨rfl, s.entries_front_of_some k v h⟩
  get_none k s h := by
    show (s.get k).1 = none ∧ (s.get k).2.entries = s.entries
    rw [s.get_of_none k h]
    exact ⟨rfl, rfl⟩
  capacity_get k s := by
    show (s.get k).2.capacity = s.capacity
    unfold get
    split <;> rfl
  contains_eq _ _ := rfl
  entries_contains _ _ := rfl
  capacity_contains _ _ := rfl
  push_room k v s h hroom := by
    show (s.push k v).1 = none ∧ (s.push k v).2.entries = _
    rw [s.push_of_room k h v hroom, s.entries_front_of_none k h]
    exact ⟨rfl, List.take_of_length_le hroom⟩
  push_full k v s es e h hes hfull := by
    have hentries : s.entries = es ++ [e] := hes
    have hcapacity : s.capacity = ((k, v) :: es).length := by
      have hlength : s.entries.length = s.capacity := hfull
      rw [← hlength, hentries]
      simp
    show (s.push k v).1 = some e ∧ (s.push k v).2.entries = (k, v) :: es
    rw [s.push_of_full k h v hfull, s.entries_front_of_none k h, hentries, hcapacity,
      ← List.cons_append]
    exact ⟨List.getLast?_concat, List.take_left⟩
  capacity_push k v s := by
    show (s.push k v).2.capacity = s.capacity
    unfold push
    split <;> rfl

end Listed

end NumberPlan.Regex
