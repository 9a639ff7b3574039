/-!
# Stores that keep the entries used last

A store has room for a limited number of entries.  An entry that is got becomes the one used last,
asking whether there is an entry is no use of it, and where a new entry finds no room, the one that
has not been used for the longest time gives way.

    (L.get k s).1 = (L.entries s).lookup k       for a store that keeps these rules

`LruStore` names the operations; `Listed.store` keeps a list.
-/

namespace NumberPlan.Regex

/-- The operations of a store, whose states are `σ`. -/
structure LruStore (σ κ ν : Type) where
  withCapacity : Nat → σ
  capacity : σ → Nat
  size : σ → Nat
  /-- all entries, the one used last first -/
  entries : σ → List (κ × ν)
  get : κ → σ → Option ν × σ
  contains : κ → σ → Bool × σ
  /-- the entry that gives way, and the store with the new one -/
  push : κ → ν → σ → Option (κ × ν) × σ

/-! ## A list of entries -/

/-- Entries in the order of their use, the one used last first. -/
structure Listed (κ ν : Type) where
  capacity : Nat
  entries : List (κ × ν)
  distinct : entries.Pairwise fun a b => a.1 ≠ b.1
  length_le : entries.length ≤ capacity

namespace Listed

variable {κ ν : Type} [BEq κ] [LawfulBEq κ]

/-- A value is put in front, as far as there is room. -/
def front (k : κ) (v : ν) (s : Listed κ ν) : Listed κ ν where
  capacity := s.capacity
  entries := ((k, v) :: s.entries.filter fun e => e.1 != k).take s.capacity
  distinct := by
    refine List.Pairwise.sublist (List.take_sublist _ _) ?_
    refine List.pairwise_cons.mpr ⟨fun e he => ?_, ?_⟩
    · exact fun h => bne_iff_ne.mp (List.mem_filter.mp he).2 h.symm
    · exact s.distinct.filter _
  length_le := List.length_take_le _ _

def get (k : κ) (s : Listed κ ν) : Option ν × Listed κ ν :=
  match s.entries.lookup k with
  | some v => (some v, s.front k v)
  | none => (none, s)

/-- The entry of the key gives way to a new one, else the last entry where there is no room. -/
def push (k : κ) (v : ν) (s : Listed κ ν) : Option (κ × ν) × Listed κ ν :=
  match s.entries.lookup k with
  | some old => (some (k, old), s.front k v)
  | none => (if s.entries.length < s.capacity then none else s.entries.getLast?, s.front k v)

def store : LruStore (Listed κ ν) κ ν where
  withCapacity n := ⟨n, [], .nil, Nat.zero_le n⟩
  capacity := capacity
  size s := s.entries.length
  entries := entries
  get := get
  contains k s := ((s.entries.lookup k).isSome, s)
  push := push

end Listed

end NumberPlan.Regex
