import NumberPlan.Prefixes.Mapping
import NumberPlan.Proofs.Prefixes.Decoder
import NumberPlan.Proofs.Text.SortedTable

/-!
# Mappings are read back

A file lists keys and their languages in any order, and may repeat either.  The last entry of a key
counts, and its languages are a set (`Describes`), so entries describe one mapping only:

    writeListing es = .ok bs → read (bs ++ rest) = .ok (ofEntries es, rest)      (takes_listing)
    m.Describes es ↔ m = ofEntries es                                            (describes_iff)

A mapping is written as a listing that describes it, so it is read back from what is written of it
(`read_listing`).  Its keys ascend, whatever the order in the file, so halving finds each of them.
-/

namespace NumberPlan.Mapping

open Decoder

/-! ## Listings -/

/-- What is written for an entry with any languages, in the order given. -/
def writeListed (e : Int × List String) : Except PrefixError (List UInt8) :=
  (writeEach writeText e.2).map fun ls => writeInt32 e.1 ++ writeCount e.2.length ++ ls

/-- What is written for any entries, in the order given. -/
def writeListing (es : List (Int × List String)) : Except PrefixError (List UInt8) :=
  (writeEach writeListed es).map (writeCount es.length ++ ·)

/-- The entries have a place in a file: words of 32 bits hold the keys and the counts, and texts
have at most 65535 bytes. -/
structure Listable (es : List (Int × List String)) : Prop where
  few : es.length < 0x80000000
  key : ∀ e ∈ es, -0x80000000 ≤ e.1 ∧ e.1 < 0x80000000
  few_languages : ∀ e ∈ es, e.2.length < 0x80000000
  text : ∀ e ∈ es, ∀ l ∈ e.2, (encodeText l).length ≤ 65535

/-- The entries that a mapping is written as. -/
def listing (m : Mapping) : List (Int × List String) := m.table.entries.map fun e => (e.1, e.2.keys)

/-- The languages of a key are those of its last entry, in whatever order it lists them. -/
def Describes (m : Mapping) (es : List (Int × List String)) : Prop :=
  ∀ key languages, m.table.get? key = some languages ↔
    ∃ before listed after, es = before ++ (key, listed) :: after ∧ key ∉ after.map Prod.fst ∧
      ∀ l, l ∈ languages.keys ↔ l ∈ listed

/-- The place of a key among those of a mapping, by halving. -/
def placeOf? (m : Mapping) (key : Int) : Option Nat := place? m.table.keys.toArray key

/-! ## Reading -/

theorem takes_listed (e : Int × List String) (hlow : -0x80000000 ≤ e.1) (hhigh : e.1 < 0x80000000)
    (hfew : e.2.length < 0x80000000) (cs : List UInt8) (h : writeListed e = .ok cs) :
    readEntry.Takes cs e := by
  obtain ⟨ls, hls, rfl⟩ := map_eq_ok _ _ cs h
  have hlanguages := (takes_many text writeText e.2 ls hls fun l _ bs hbs => takes_text l bs hbs)
  rw [List.append_assoc]
  exact (takes_int32 e.1 hlow hhigh).andThen
    ((takes_count .language e.2.length hfew).andThen hlanguages.andThen_give)

/-- Entries that have a place in a file can be written, and the mapping that is read is theirs. -/
theorem takes_listing (es : List (Int × List String)) (h : Listable es) :
    ∃ bs, writeListing es = .ok bs ∧ read.Takes bs (ofEntries es) := by
  have hlisted : ∀ e ∈ es, ∃ cs, writeListed e = .ok cs := by
    intro e he
    obtain ⟨ls, hls⟩ := writeEach_of_ok writeText e.2 fun l hl =>
      ⟨_, (writeText_eq_ok l _).mpr ⟨Nat.lt_succ_of_le (h.text e he l hl), rfl⟩⟩
    exact ⟨_, by rw [writeListed, hls]; rfl⟩
  obtain ⟨cs, hcs⟩ := writeEach_of_ok writeListed es hlisted
  have hentries := takes_many readEntry writeListed es cs hcs fun e he bs hbs =>
    takes_listed e (h.key e he).1 (h.key e he).2 (h.few_languages e he) bs hbs
  refine ⟨writeCount es.length ++ cs, by rw [writeListing, hcs]; rfl, ?_⟩
  exact (takes_count .callingCode es.length h.few).andThen hentries.andThen_give

/-! ## What entries describe -/

theorem get?_ofEntries (es : List (Int × List String)) (key : Int) :
    (ofEntries es).table.get? key = (es.reverse.lookup key).map SortedSet.ofList := by
  rw [ofEntries, SortedTable.get?_ofList, ← List.map_reverse, lookup_map]

theorem describes_ofEntries (es : List (Int × List String)) : (ofEntries es).Describes es := by
  intro key languages
  rw [get?_ofEntries, Option.map_eq_some_iff]
  simp only [lookup_reverse_eq_some_iff]
  constructor
  · rintro ⟨listed, ⟨before, after, hes, hlast⟩, rfl⟩
    exact ⟨before, listed, after, hes, hlast, mem_keys_ofList listed⟩
  · rintro ⟨before, listed, after, hes, hlast, hsame⟩
    refine ⟨listed, ⟨before, after, hes, hlast⟩, SortedSet.ext_keys _ _ fun l => ?_⟩
    rw [mem_keys_ofList, hsame]

/-- Entries describe one mapping. -/
theorem describes_iff (m : Mapping) (es : List (Int × List String)) :
    m.Describes es ↔ m = ofEntries es := by
  constructor
  · intro h
    have htable : m.table = (ofEntries es).table := by
      refine SortedTable.ext_get? _ _ fun key => Option.ext fun languages => ?_
      exact (h key languages).trans (describes_ofEntries es key languages).symm
    cases m
    cases htable
    rfl
  · rintro rfl
    exact describes_ofEntries es

theorem placeOf?_eq_some_iff (m : Mapping) (key : Int) (i : Nat) :
    m.placeOf? key = some i ↔ m.table.keys[i]? = some key :=
  place?_eq_some_iff m.table.keys m.table.keys_ascending key i

theorem exists_placeOf?_iff (es : List (Int × List String)) (key : Int) :
    (∃ i, (ofEntries es).placeOf? key = some i) ↔ key ∈ es.map Prod.fst := by
  simp only [placeOf?_eq_some_iff]
  rw [← List.mem_iff_getElem?, ofEntries, SortedTable.mem_keys_ofList, List.map_map]
  rfl

/-! ## Writing -/

theorem write_eq (m : Mapping) : m.write = writeListing m.listing := by
  have heach : ∀ es : List (Int × Languages),
      writeEach writeEntry es = writeEach writeListed (es.map fun e => (e.1, e.2.keys)) := by
    intro es
    induction es with
    | nil => rfl
    | cons e es ih =>
      rw [List.map_cons, writeEach, writeEach, ih]
      rfl
  rw [write, heach, writeListing, listing, List.length_map]

theorem ofEntries_listing (m : Mapping) : ofEntries m.listing = m := by
  have hentries : (m.listing.map fun e => (e.1, SortedSet.ofList e.2)) = m.table.entries := by
    rw [listing, List.map_map]
    refine (List.map_congr_left fun e _ => ?_).trans (List.map_id _)
    rw [Function.comp_apply, SortedSet.ofList_keys]
    rfl
  rw [ofEntries, hentries, SortedTable.ofList_entries]

/-- Leaving out what is repeated leaves a listing that has a place in a file. -/
theorem Listable.of_repeats {es : List (Int × List String)} (h : Listable es) :
    Listable (ofEntries es).listing := by
  have hmem : ∀ e ∈ (ofEntries es).listing, ∃ listed, (e.1, listed) ∈ es ∧
      e.2 = (SortedSet.ofList listed).keys := by
    intro e he
    obtain ⟨a, ha, rfl⟩ := List.mem_map.mp he
    obtain ⟨b, hb, rfl⟩ := List.mem_map.mp (SortedTable.mem_of_mem_ofList _ a ha)
    exact ⟨b.2, hb, rfl⟩
  refine ⟨?_, fun e he => ?_, fun e he => ?_, fun e he l hl => ?_⟩
  · have hle := SortedTable.length_ofList_le (es.map fun e => (e.1, SortedSet.ofList e.2))
    rw [List.length_map] at hle
    rw [listing, List.length_map]
    exact Nat.lt_of_le_of_lt hle h.few
  · obtain ⟨listed, hlisted, -⟩ := hmem e he
    exact h.key (e.1, listed) hlisted
  · obtain ⟨listed, hlisted, heq⟩ := hmem e he
    rw [heq]
    exact Nat.lt_of_le_of_lt (length_keys_ofList_le listed) (h.few_languages _ hlisted)
  · obtain ⟨listed, hlisted, heq⟩ := hmem e he
    rw [heq, mem_keys_ofList] at hl
    exact h.text _ hlisted l hl

/-- Whatever the order of entries and their repeats, the mapping that is read is the one they
describe, halving finds its keys, and it is read back from what is written of it. -/
theorem read_listing (es : List (Int × List String)) (h : Listable es) :
    (∃ bs, writeListing es = .ok bs ∧ ∀ rest, read (bs ++ rest) = .ok (ofEntries es, rest)) ∧
      (∀ m : Mapping, m.Describes es ↔ m = ofEntries es) ∧
      (ofEntries es).table.keys.Pairwise (· < ·) ∧
      (∀ key, ((∃ i, (ofEntries es).placeOf? key = some i) ↔ key ∈ es.map Prod.fst) ∧
        (ofEntries es).table.get? key =
          ((ofEntries es).placeOf? key).bind fun i => (ofEntries es).table.values[i]?) ∧
      ∃ bs, (ofEntries es).write = .ok bs ∧
        ∀ rest, read (bs ++ rest) = .ok (ofEntries es, rest) := by
  have hback := takes_listing _ h.of_repeats
  rw [← write_eq, ofEntries_listing] at hback
  refine ⟨takes_listing es h, fun m => describes_iff m es, SortedTable.keys_ascending _,
    fun key => ⟨exists_placeOf?_iff es key, SortedTable.get?_eq_place? _ key⟩, hback⟩

/-- A negative key after a positive one, which is then listed again, and a language twice. -/
def unordered : List (Int × List String) :=
  [(7, ["ru", "en"]), (-2, ["en"]), (7, ["de", "be", "de"])]

theorem read_listing_unordered :
    ∃ bs m, writeListing unordered = .ok bs ∧ read (bs ++ [9]) = .ok (m, [9]) ∧
      m.listing = [(-2, ["en"]), (7, ["be", "de"])] := by
  have hlistable : Listable unordered := ⟨by decide, by decide, by decide, by decide⟩
  obtain ⟨⟨bs, hbs, hread⟩, -⟩ := read_listing unordered hlistable
  exact ⟨bs, _, hbs, hread [9], by decide +kernel⟩

end NumberPlan.Mapping
