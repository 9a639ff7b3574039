import NumberPlan.Proofs.Prefixes.Build

/-!
# The two layouts answer alike

A search finds what trying every entry finds, so a lookup depends on the entries and the recorded
lengths only, as the dump depends on the entries.  So all storages that hold one table
(`Storage.Holds`) give the same lookups and the same dump, and either layout holds the table it was
made from:

    m.storage.Holds t → m'.storage.Holds t → m.Agree m'                     (agree_of_holds)
    keys of t ≤ maxPrefix → both layouts are made, and agree                (layouts_agree)
-/

namespace NumberPlan

open PrefixMap

/-! ## Maps of one table -/

/-- Nothing that can be asked of two maps tells them apart. -/
structure PrefixMap.Agree (m m' : PrefixMap) : Prop where
  size_eq : m.size = m'.size
  lookupDigits_eq : ∀ digits, m.lookupDigits digits = m'.lookupDigits digits
  lookup_eq : ∀ code number, m.lookup code number = m'.lookup code number
  dump_eq : m.dump = m'.dump

theorem PrefixMap.agree_of_holds (m m' : PrefixMap) (t : PrefixTable) (hm : m.storage.Holds t)
    (hm' : m'.storage.Holds t) : m.Agree m' := by
  have hsize : m.size = t.entries.length := hm.size_eq
  have hsize' : m'.size = t.entries.length := hm'.size_eq
  have hscan : ∀ w ls, scan m.storage w ls = scan m'.storage w ls := by
    intro w ls
    unfold scan
    rw [funext (hm.entryWith?_eq), funext (hm'.entryWith?_eq)]
  have hdigits : ∀ digits, m.lookupDigits digits = m'.lookupDigits digits := by
    intro digits
    rw [lookupDigits_eq_scan m hm.ascends hm.lengths_ascending,
      lookupDigits_eq_scan m' hm'.ascends hm'.lengths_ascending,
      hm.lengths_eq, hm'.lengths_eq]
    exact congrArg _ (funext fun w => hscan w _)
  constructor
  · rw [hsize, hsize']
  · exact hdigits
  · intro code number
    exact hdigits (toString code ++ number)
  · unfold dump
    rw [hm.entries_eq, hm'.entries_eq]

/-- Either layout of a table holds it, so that the two agree on everything; a map that is built
has one of them, and both can be written or neither can. -/
theorem layouts_agree (t : PrefixTable) (h : ∀ k ∈ t.keys, k ≤ maxPrefix) :
    ∃ a b, PlainStorage.ofTable t = .ok a ∧ PooledStorage.ofTable t = .ok b ∧
      (Storage.plain a).Holds t ∧ (Storage.pooled b).Holds t ∧
      PrefixMap.Agree ⟨.plain a⟩ ⟨.pooled b⟩ ∧
      (∀ m, build t = .ok m → m = ⟨.plain a⟩ ∨ m = ⟨.pooled b⟩) ∧
      ((∃ bs, a.write = .ok bs) ↔ ∃ bs, b.write = .ok bs) := by
  have hplain := plainOf_holds t
  have hpooled := pooledOf_holds t
  refine ⟨plainOf t, pooledOf t, plain_ofTable t h, pooled_ofTable t h, hplain, hpooled, ?_, ?_, ?_⟩
  · exact agree_of_holds _ _ t hplain hpooled
  · rintro ⟨s⟩ hbuild
    obtain ⟨-, rfl | rfl, -⟩ := build_ok t ⟨s⟩ hbuild
    · exact Or.inl rfl
    · exact Or.inr rfl
  · rw [write_plainOf_iff t h, write_pooledOf_iff t]

/-- The greatest prefix that fits a short word, the one after it, and a description that is given
twice. -/
def twoWidths : PrefixTable := ⟨[(32767, "Vaduz"), (32768, "Balzers"), (42379, "Vaduz")], by decide⟩

theorem layouts_agree_twoWidths :
    (∀ k ∈ twoWidths.keys, k ≤ maxPrefix) ∧
      ∃ a b, PlainStorage.ofTable twoWidths = .ok a ∧ PooledStorage.ofTable twoWidths = .ok b ∧
        b.prefixSize = .four ∧ b.indexSize = .two ∧ PrefixMap.Agree ⟨.plain a⟩ ⟨.pooled b⟩ := by
  have h : ∀ k ∈ twoWidths.keys, k ≤ maxPrefix := by decide
  obtain ⟨a, b, ha, hb, -, -, hagree, -⟩ := layouts_agree twoWidths h
  obtain rfl := Except.ok.inj (hb.symm.trans (pooled_ofTable twoWidths h))
  exact ⟨h, a, _, ha, hb, rfl, rfl, hagree⟩

end NumberPlan
