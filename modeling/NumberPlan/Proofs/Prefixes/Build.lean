import NumberPlan.Proofs.Prefixes.Search
import NumberPlan.Proofs.Prefixes.Storage

/-!
# Storages of tables

Either layout of a table holds its entries in order (`plainOf_holds`, `pooledOf_holds`) and can be
read back once written (`plainOf_proper`, `pooledOf_proper`), if the prefixes have 31 bits.  The
pool is sorted, so that halving finds each description in it, and the words are wide enough for
what is put into them (`pooled_ofTable`).  A map that is built has one of the two (`build_ok`), so

    build t = .ok m → ∃ bs, m.write = .ok bs ∧ (read.Takes bs m ∨ …)          (read_write)

where the other case is the table of all prefixes, which has too many entries to be counted.
-/

namespace NumberPlan

/-- All prefixes of a table can be written. -/
def PrefixesFit (t : PrefixTable) : Prop := ∀ k ∈ t.keys, k ≤ maxPrefix

/-- The plain layout of a table. -/
def plainOf (t : PrefixTable) : PlainStorage := ⟨t.entries.toArray, prefixLengths t⟩

/-- The distinct descriptions of a table. -/
def poolOf (t : PrefixTable) : List String := (SortedSet.ofList t.values).keys

/-- The entries of a table, with places in the pool for descriptions. -/
def indexed (t : PrefixTable) : List (Nat × Nat) :=
  t.entries.map fun e => (e.1, (poolOf t).idxOf e.2)

/-- The pooled layout of a table. -/
def pooledOf (t : PrefixTable) : PooledStorage :=
  ⟨.forValues t.keys, .forValues ((indexed t).map (·.2)), (indexed t).toArray, (poolOf t).toArray,
    prefixLengths t⟩

/-! ## What a table gives -/

theorem checkPrefixes_ok (ns : List Nat) (h : checkPrefixes ns = .ok ()) :
    ∀ n ∈ ns, n ≤ maxPrefix := by
  unfold checkPrefixes at h
  split at h
  · next hfind =>
    intro n hn
    have := List.find?_eq_none.mp hfind n hn
    exact Nat.not_lt.mp fun hlt => this (decide_eq_true hlt)
  · cases h

theorem checkPrefixes_of_le (ns : List Nat) (h : ∀ n ∈ ns, n ≤ maxPrefix) :
    checkPrefixes ns = .ok () := by
  have hnone : ns.find? (maxPrefix < ·) = none :=
    List.find?_eq_none.mpr fun n hn hlt => Nat.not_lt.mpr (h n hn) (of_decide_eq_true hlt)
  rw [checkPrefixes, hnone]

theorem plain_ofTable_ok (t : PrefixTable) (s : PlainStorage)
    (h : PlainStorage.ofTable t = .ok s) : PrefixesFit t ∧ s = plainOf t := by
  obtain ⟨u, hcheck, hs⟩ := map_eq_ok _ _ s h
  exact ⟨checkPrefixes_ok _ hcheck, hs.symm⟩

section

variable (t : PrefixTable)

theorem mem_poolOf (e : Nat × String) (h : e ∈ t.entries) : e.2 ∈ poolOf t := by
  unfold poolOf
  rw [mem_keys_ofList]
  exact List.mem_map_of_mem h

/-- There are no more descriptions than entries. -/
theorem length_poolOf_le : (poolOf t).length ≤ t.entries.length := by
  have hle := length_keys_ofList_le t.values
  rwa [SortedTable.values, List.length_map] at hle

/-! ## Holding a table -/

theorem plainOf_holds : (Storage.plain (plainOf t)).Holds t where
  size_eq := List.size_toArray
  entry i h := by
    have hget : (plainOf t).entries.getD i (0, "") = t.entries[i] := by
      rw [Array.getD_eq_getD_getElem?, plainOf, List.getElem?_toArray, List.getElem?_eq_getElem h]
      rfl
    unfold Storage.prefixAt Storage.descriptionAt
    dsimp only
    rw [hget]
    exact ⟨rfl, rfl⟩
  lengths_eq := rfl

theorem pooledOf_holds : (Storage.pooled (pooledOf t)).Holds t where
  size_eq := List.length_map _
  entry i h := by
    have hget : (pooledOf t).entries.getD i (0, 0)
        = (t.entries[i].1, (poolOf t).idxOf t.entries[i].2) := by
      rw [Array.getD_eq_getD_getElem?, pooledOf, List.getElem?_toArray, indexed, List.getElem?_map,
        List.getElem?_eq_getElem h]
      rfl
    have hmem := mem_poolOf t t.entries[i] (List.getElem_mem h)
    have hpool : (pooledOf t).pool.getD ((poolOf t).idxOf t.entries[i].2) "" = t.entries[i].2 := by
      rw [Array.getD_eq_getD_getElem?, pooledOf, List.getElem?_toArray, List.getElem?_idxOf hmem]
      rfl
    unfold Storage.prefixAt Storage.descriptionAt
    dsimp only
    rw [hget]
    exact ⟨rfl, hpool⟩
  lengths_eq := rfl

/-! ## Being read back -/

variable (h : PrefixesFit t)

include h

/-- A prefix has at most ten digits. -/
theorem prefixLengths_lt (l : Nat) (hl : l ∈ prefixLengths t) : l < 11 := by
  obtain ⟨k, hk, rfl⟩ := List.mem_map.mp ((mem_keys_ofList _ l).mp hl)
  have hmax : k < 10 ^ 10 := Nat.lt_of_le_of_lt (h k hk) (by decide)
  exact Nat.lt_succ_of_le ((Nat.length_toDigits_le_iff (by decide) (by decide)).mpr hmax)

theorem prefixLengths_fit : LengthsFit (prefixLengths t) where
  ascending := SortedTable.keys_ascending _
  few := Nat.lt_of_le_of_lt
    (length_le_of_ascending _ (SortedTable.keys_ascending _) 11 (prefixLengths_lt t h)) (by decide)
  lt l hl := Nat.lt_of_lt_of_le (prefixLengths_lt t h l hl) (by decide)

theorem length_entries_le : t.entries.length ≤ 0x80000000 := by
  have hle := length_le_of_ascending t.keys t.keys_ascending 0x80000000
    fun k hk => Nat.lt_succ_of_le (h k hk)
  rwa [SortedTable.keys, List.length_map] at hle

theorem plainOf_proper : (plainOf t).Proper where
  ascending := t.ascending
  lengths_fit := prefixLengths_fit t h

theorem idxOf_poolOf_lt (e : Nat × String) (he : e ∈ t.entries) :
    (poolOf t).idxOf e.2 < 0x100000000 := by
  have hlt := List.idxOf_lt_length_iff.mpr (mem_poolOf t e he)
  have hpool := length_poolOf_le t
  have hlen := length_entries_le t h
  omega

theorem pooledOf_fits (e : Nat × Nat) (he : e ∈ indexed t) :
    e.1 < 256 ^ (pooledOf t).prefixSize.bytes ∧ e.2 < 256 ^ (pooledOf t).indexSize.bytes := by
  obtain ⟨a, ha, rfl⟩ := List.mem_map.mp he
  have hkeys : ∀ k ∈ t.keys, k < 0x100000000 := fun k hk => Nat.lt_of_le_of_lt (h k hk) (by decide)
  have hindices : ∀ i ∈ (indexed t).map (·.2), i < 0x100000000 := by
    intro i hi
    obtain ⟨b, hb, rfl⟩ := List.mem_map.mp hi
    obtain ⟨c, hc, rfl⟩ := List.mem_map.mp hb
    exact idxOf_poolOf_lt t h c hc
  exact ⟨WordSize.lt_forValues _ hkeys _ (List.mem_map_of_mem ha),
    WordSize.lt_forValues _ hindices _ (List.mem_map_of_mem he)⟩

theorem pooledOf_proper : (pooledOf t).Proper where
  ascending := List.pairwise_map.mpr t.ascending
  fits := pooledOf_fits t h
  inside e he := by
    obtain ⟨a, ha, rfl⟩ := List.mem_map.mp he
    exact List.idxOf_lt_length_iff.mpr (mem_poolOf t a ha)
  lengths_fit := prefixLengths_fit t h

/-! ## Laying out -/

theorem plain_ofTable : PlainStorage.ofTable t = .ok (plainOf t) := by
  rw [PlainStorage.ofTable, checkPrefixes_of_le t.keys h]
  rfl

/-- The halvings find each description in the pool. -/
theorem indexIn_poolOf (e : Nat × String) (he : e ∈ t.entries) :
    PooledStorage.indexIn (poolOf t).toArray e.2 = (poolOf t).idxOf e.2 := by
  have hplace := place?_eq_idxOf (poolOf t) (SortedTable.keys_ascending _) e.2 (mem_poolOf t e he)
  rw [PooledStorage.indexIn, hplace]
  exact WordSize.hold_of_lt .four _ (idxOf_poolOf_lt t h e he)

/-- No word cuts off what it holds. -/
theorem pooled_ofTable : PooledStorage.ofTable t = .ok (pooledOf t) := by
  have hindices : t.values.map (PooledStorage.indexIn (poolOf t).toArray)
      = (indexed t).map (·.2) := by
    rw [SortedTable.values, indexed, List.map_map, List.map_map]
    exact List.map_congr_left (indexIn_poolOf t h)
  have hkeys : t.keys = (indexed t).map (·.1) := by
    rw [SortedTable.keys, indexed, List.map_map]
    rfl
  have hheld := WordSize.zip_hold _ _ (indexed t) (pooledOf_fits t h)
  rw [← hkeys] at hheld
  have hpool : (SortedSet.ofList t.values).keys = poolOf t := rfl
  rw [PooledStorage.ofTable, checkPrefixes_of_le t.keys h, Except.map]
  dsimp only
  rw [hpool, hindices]
  exact congrArg (fun es => Except.ok (PooledStorage.mk _ _ (List.toArray es) _ _)) hheld

end

/-! ## Built maps -/

namespace PrefixMap

open Decoder

/-- A built map has one of the layouts of its table, which can be written. -/
theorem build_ok (t : PrefixTable) (m : PrefixMap) (h : build t = .ok m) :
    PrefixesFit t ∧ (m.storage = .plain (plainOf t) ∨ m.storage = .pooled (pooledOf t)) ∧
      ∃ bs, m.storage.write = .ok bs := by
  unfold build at h
  split at h
  · cases h
  · next plain hplain =>
    obtain ⟨hfit, rfl⟩ := plain_ofTable_ok t plain hplain
    split at h
    · next hempty =>
      obtain rfl := Except.ok.inj h
      refine ⟨hfit, Or.inl rfl, ?_⟩
      have hnil : (plainOf t).entries.toList = [] := List.isEmpty_iff.mp hempty
      show ∃ bs, (plainOf t).write = .ok bs
      unfold PlainStorage.write
      rw [hnil]
      exact ⟨_, rfl⟩
    · split at h
      · cases h
      · next pooled hpooled =>
        obtain rfl := Except.ok.inj (hpooled.symm.trans (pooled_ofTable t hfit))
        split at h
        · cases h
        · cases h
        · next a b ha hb =>
          obtain rfl := Except.ok.inj h
          refine ⟨hfit, ?_⟩
          dsimp only
          split
          · exact ⟨Or.inr rfl, b, hb⟩
          · exact ⟨Or.inl rfl, a, ha⟩

/-- All descriptions of a table can be written. -/
def TextsFit (t : PrefixTable) : Prop := ∀ s ∈ t.values, ∃ bs, writeText s = .ok bs

section

variable (t : PrefixTable)

theorem write_pooledOf_iff : (∃ bs, (pooledOf t).write = .ok bs) ↔ TextsFit t := by
  constructor
  · rintro ⟨bs, hbs⟩ s hs
    obtain ⟨es, hes, -⟩ := (pooledOf t).write_ok bs hbs
    exact ok_of_writeEach _ _ es hes s ((mem_keys_ofList _ s).mpr hs)
  · intro htexts
    obtain ⟨es, hes⟩ := writeEach_of_ok writeText (poolOf t) fun s hs =>
      htexts s ((mem_keys_ofList _ s).mp hs)
    rw [PooledStorage.write, pooledOf, List.toList_toArray, hes]
    exact ⟨_, rfl⟩

variable (hfit : PrefixesFit t)

include hfit

theorem write_plainOf_iff : (∃ bs, (plainOf t).write = .ok bs) ↔ TextsFit t := by
  constructor
  · rintro ⟨bs, hbs⟩ s hs
    obtain ⟨es, hes, -⟩ := (plainOf t).write_ok bs hbs
    obtain ⟨e, he, rfl⟩ := List.mem_map.mp hs
    obtain ⟨cs, hcs⟩ := ok_of_writeEach _ _ es hes e he
    unfold PlainStorage.writeEntry at hcs
    split at hcs
    · cases hcs
    · obtain ⟨text, htext, -⟩ := map_eq_ok _ _ cs hcs
      exact ⟨text, htext⟩
  · intro htexts
    obtain ⟨es, hes⟩ := writeEach_of_ok PlainStorage.writeEntry t.entries fun e he => by
      obtain ⟨bs, hbs⟩ := htexts e.2 (List.mem_map_of_mem he)
      have hle : e.1 ≤ maxPrefix := hfit e.1 (List.mem_map_of_mem he)
      rw [PlainStorage.writeEntry, checkPrefix, if_pos hle]
      dsimp only
      rw [hbs]
      exact ⟨_, rfl⟩
    rw [PlainStorage.write, plainOf, List.toList_toArray, hes]
    exact ⟨_, rfl⟩

/-- A table whose prefixes and descriptions can be written can be built. -/
theorem build_of_fit (htexts : TextsFit t) : ∃ m, build t = .ok m := by
  obtain ⟨a, ha⟩ := (write_plainOf_iff t hfit).mpr htexts
  obtain ⟨b, hb⟩ := (write_pooledOf_iff t).mpr htexts
  unfold build
  rw [plain_ofTable t hfit]
  dsimp only
  by_cases hempty : t.entries.isEmpty = true
  · rw [if_pos hempty]
    exact ⟨_, rfl⟩
  · rw [if_neg hempty, pooled_ofTable t hfit]
    dsimp only
    rw [ha, hb]
    exact ⟨_, rfl⟩

end

theorem textsFit_of_build (t : PrefixTable) (m : PrefixMap) (h : build t = .ok m) : TextsFit t := by
  obtain ⟨hfit, hlayout, bs, hbs⟩ := build_ok t m h
  rcases hlayout with hplain | hpooled
  · rw [hplain] at hbs
    exact (write_plainOf_iff t hfit).mp ⟨bs, hbs⟩
  · rw [hpooled] at hbs
    exact (write_pooledOf_iff t).mp ⟨bs, hbs⟩

theorem build_holds (t : PrefixTable) (m : PrefixMap) (h : build t = .ok m) :
    m.storage.Holds t := by
  obtain ⟨-, hs | hs, -⟩ := build_ok t m h
  · exact hs ▸ plainOf_holds t
  · exact hs ▸ pooledOf_holds t

/-- A proper storage is read back with the mark of its layout. -/
theorem takes_plain (s : PlainStorage) (hs : s.Proper) (hsize : s.entries.size < 0x80000000)
    (bs : List UInt8) (h : PrefixMap.write ⟨.plain s⟩ = .ok bs) :
    PrefixMap.read.Takes bs ⟨.plain s⟩ := by
  obtain ⟨cs, hcs, rfl⟩ := map_eq_ok _ _ bs h
  exact (takes_bool false).andThen (s.takes_read hs cs hcs hsize).andThen_give

theorem takes_pooled (s : PooledStorage) (hs : s.Proper) (hpool : s.pool.size < 0x80000000)
    (hsize : s.entries.size < 0x80000000) (bs : List UInt8)
    (h : PrefixMap.write ⟨.pooled s⟩ = .ok bs) : PrefixMap.read.Takes bs ⟨.pooled s⟩ := by
  obtain ⟨cs, hcs, rfl⟩ := map_eq_ok _ _ bs h
  exact (takes_bool true).andThen (s.takes_read hs cs hcs hpool hsize).andThen_give

/-- A built map is read back from what is written of it, unless its entries are too many. -/
theorem read_write (t : PrefixTable) (m : PrefixMap) (h : build t = .ok m) :
    ∃ bs, m.write = .ok bs ∧ (read.Takes bs m ∨
      t.entries.length = 0x80000000 ∧ ∃ what, read.Refuses bs (.negativeCount what (-0x80000000))) := by
  obtain ⟨hfit, hlayout, bs, hbs⟩ := build_ok t m h
  obtain ⟨s⟩ := m
  have hlen := length_entries_le t hfit
  have hwrite : PrefixMap.write ⟨s⟩ = .ok (writeBool s.isPooled ++ bs) := by
    rw [write, hbs]
    rfl
  refine ⟨_, hwrite, ?_⟩
  rcases hlayout with rfl | rfl
  · have hsize : (plainOf t).entries.size = t.entries.length := (plainOf_holds t).size_eq
    rcases Nat.lt_or_eq_of_le hlen with hlt | heq
    · exact Or.inl (takes_plain _ (plainOf_proper t hfit) (hsize ▸ hlt) _ hwrite)
    · exact Or.inr ⟨heq, .entry, (takes_bool false).andThen_refuses
        fun rest => by
          rw [if_neg Bool.false_ne_true, Decoder.andThen,
            (plainOf t).refuses_read bs hbs (hsize.trans heq)]⟩
  · have hsize : (pooledOf t).entries.size = t.entries.length := (pooledOf_holds t).size_eq
    have hpool : (pooledOf t).pool.size ≤ t.entries.length := length_poolOf_le t
    have hproper := pooledOf_proper t hfit
    rcases Nat.lt_or_eq_of_le hlen with hlt | heq
    · exact Or.inl (takes_pooled _ hproper (Nat.lt_of_le_of_lt hpool hlt) (hsize ▸ hlt) _ hwrite)
    · obtain ⟨what, hwhat⟩ :=
        (pooledOf t).refuses_read hproper bs hbs (hsize ▸ hpool) (hsize.trans heq)
      exact Or.inr ⟨heq, what, (takes_bool true).andThen_refuses
        fun rest => by rw [if_pos rfl, Decoder.andThen, hwhat]⟩

end PrefixMap

end NumberPlan
