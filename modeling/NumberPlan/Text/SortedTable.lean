/-!
# Sorted tables

A table holds one value per key, its keys strictly ascending.

    (t.insert k v).get? k' = if k' == k then some v else t.get? k'

The place of a key among ascending ones is found by halving (`place?`).
-/

namespace NumberPlan

/-- Keys in strictly ascending order, each with its value. -/
structure SortedTable (κ ν : Type) [LT κ] where
  entries : List (κ × ν)
  ascending : entries.Pairwise fun a b => a.1 < b.1

/-- Distinct members in ascending order. -/
abbrev SortedSet (κ : Type) [LT κ] := SortedTable κ Unit

/-! ## Inserting -/

/-- Puts a value into an ascending list, in place of one with the same key. -/
def insertEntry {κ ν : Type} [LT κ] [DecidableLT κ] (k : κ) (v : ν) : List (κ × ν) → List (κ × ν)
  | [] => [(k, v)]
  | e :: es =>
    if k < e.1 then (k, v) :: e :: es
    else if e.1 < k then e :: insertEntry k v es
    else (e.1, v) :: es

theorem fst_mem_insertEntry {κ ν : Type} [LT κ] [DecidableLT κ] (k : κ) (v : ν)
    (es : List (κ × ν)) : ∀ a ∈ insertEntry k v es, a.1 = k ∨ a.1 ∈ es.map Prod.fst := by
  induction es with
  | nil =>
    intro a ha
    simp only [insertEntry, List.mem_singleton] at ha
    exact Or.inl (by rw [ha])
  | cons e es ih =>
    intro a ha
    unfold insertEntry at ha
    split at ha
    · rcases List.mem_cons.1 ha with rfl | ha
      · exact Or.inl rfl
      · exact Or.inr (List.mem_map_of_mem ha)
    · split at ha
      · rcases List.mem_cons.1 ha with rfl | ha
        · exact Or.inr (List.mem_cons_self ..)
        · exact (ih a ha).imp id (List.mem_cons_of_mem _)
      · rcases List.mem_cons.1 ha with rfl | ha
        · exact Or.inr (List.mem_cons_self ..)
        · exact Or.inr (List.mem_cons_of_mem _ (List.mem_map_of_mem ha))

theorem insertEntry_pairwise {κ ν : Type} [LT κ] [LE κ] [DecidableLT κ] [Std.IsLinearOrder κ]
    [Std.LawfulOrderLT κ] (k : κ) (v : ν) (es : List (κ × ν))
    (h : es.Pairwise fun a b => a.1 < b.1) :
    (insertEntry k v es).Pairwise fun a b => a.1 < b.1 := by
  induction es with
  | nil => exact List.pairwise_singleton _ _
  | cons e es ih =>
    obtain ⟨he, hes⟩ := List.pairwise_cons.1 h
    unfold insertEntry
    split
    · next hk =>
      refine List.pairwise_cons.2 ⟨fun a ha => ?_, h⟩
      rcases List.mem_cons.1 ha with rfl | ha
      · exact hk
      · exact Std.lt_trans hk (he a ha)
    · split
      · next hk =>
        refine List.pairwise_cons.2 ⟨fun a ha => ?_, ih hes⟩
        rcases fst_mem_insertEntry k v es a ha with h1 | h1
        · rw [h1]; exact hk
        · obtain ⟨b, hb, hab⟩ := List.mem_map.1 h1
          rw [← hab]; exact he b hb
      · exact List.pairwise_cons.2 ⟨he, hes⟩

theorem lookup_insertEntry {κ ν : Type} [LT κ] [LE κ] [DecidableLT κ] [Std.IsLinearOrder κ]
    [Std.LawfulOrderLT κ] [BEq κ] [LawfulBEq κ] (k k' : κ) (v : ν) (es : List (κ × ν)) :
    (insertEntry k v es).lookup k' = if k' == k then some v else es.lookup k' := by
  induction es with
  | nil => cases h : k' == k <;> simp [insertEntry, List.lookup_cons, h]
  | cons e es ih =>
    obtain ⟨a, b⟩ := e
    unfold insertEntry
    split
    · cases h : k' == k <;> simp [List.lookup_cons, h]
    · next hk =>
      split
      · next hk' =>
        cases ha : k' == a with
        | false => simp [List.lookup_cons, ha, ih]
        | true =>
          have hne : (k' == k) = false := by
            rw [eq_of_beq ha]
            exact beq_false_of_ne fun h => Std.lt_irrefl (h ▸ hk')
          simp [List.lookup_cons, ha, hne]
      · next hk' =>
        have hak : a = k := Std.le_antisymm (Std.not_lt.1 hk) (Std.not_lt.1 hk')
        cases h : k' == k <;> simp [List.lookup_cons, hak, h]

/-! ## Finding a place -/

/-- The place of a key among ascending ones, from `low` up to `high`; `steps` bounds the
halvings. -/
def placeFrom? {κ : Type} [LT κ] [DecidableLT κ] (keys : Array κ) (k : κ) :
    (steps low high : Nat) → Option Nat
  | 0, _, _ => none
  | steps + 1, low, high =>
    if low < high then
      let mid := low + (high - low) / 2
      match keys[mid]? with
      | none => none
      | some a =>
        if a < k then placeFrom? keys k steps (mid + 1) high
        else if k < a then placeFrom? keys k steps low mid
        else some mid
    else none

/-- The place of a key among ascending ones. -/
def place? {κ : Type} [LT κ] [DecidableLT κ] (keys : Array κ) (k : κ) : Option Nat :=
  placeFrom? keys k (keys.size + 1) 0 keys.size

/-! ## Tables -/

namespace SortedTable

variable {κ ν : Type} [LT κ]

instance [DecidableEq κ] [DecidableEq ν] : DecidableEq (SortedTable κ ν) := fun s t =>
  if h : s.entries = t.entries then
    .isTrue (by cases s; cases t; cases h; rfl)
  else .isFalse fun e => h (by rw [e])

def empty : SortedTable κ ν := ⟨[], List.Pairwise.nil⟩

def get? [BEq κ] (k : κ) (t : SortedTable κ ν) : Option ν := t.entries.lookup k

def keys (t : SortedTable κ ν) : List κ := t.entries.map (·.1)

def values (t : SortedTable κ ν) : List ν := t.entries.map (·.2)

variable [LE κ] [DecidableLT κ] [Std.IsLinearOrder κ] [Std.LawfulOrderLT κ]

/-- Gives a key its value, in place of one it has. -/
def insert (k : κ) (v : ν) (t : SortedTable κ ν) : SortedTable κ ν :=
  ⟨insertEntry k v t.entries, insertEntry_pairwise k v t.entries t.ascending⟩

theorem get?_insert [BEq κ] [LawfulBEq κ] (k k' : κ) (v : ν) (t : SortedTable κ ν) :
    (t.insert k v).get? k' = if k' == k then some v else t.get? k' :=
  lookup_insertEntry k k' v t.entries

/-- The table of a list of entries; a later value replaces an earlier one. -/
def ofList (es : List (κ × ν)) : SortedTable κ ν :=
  es.foldl (fun t e => t.insert e.1 e.2) empty

end SortedTable

/-- The distinct members of a list. -/
def SortedSet.ofList {κ : Type} [LT κ] [LE κ] [DecidableLT κ] [Std.IsLinearOrder κ]
    [Std.LawfulOrderLT κ] (ks : List κ) : SortedSet κ := SortedTable.ofList (ks.map fun k => (k, ()))

end NumberPlan
