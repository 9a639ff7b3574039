import NumberPlan.Prefixes.Storage
import NumberPlan.Proofs.Prefixes.Decoder
import NumberPlan.Proofs.Text.SortedTable

/-!
# Storages are read back

    s.Proper → s.write = .ok bs → read.Takes bs s          (PlainStorage.takes_read,
                                                            PooledStorage.takes_read)

for a storage whose entries and lengths ascend and whose values fit the words they are written
in.  The counts have to fit too: with 2 ^ 31 entries or descriptions reading fails
(`PlainStorage.refuses_read`, `PooledStorage.refuses_read`).
-/

namespace NumberPlan

open Decoder

/-! ## Lengths -/

/-- Ascending lengths that can be written and counted. -/
structure LengthsFit (ls : List Nat) : Prop where
  ascending : ls.Pairwise (· < ·)
  few : ls.length < 0x80000000
  lt : ∀ l ∈ ls, l < 0x80000000

theorem takes_lengths (ls : List Nat) (h : LengthsFit ls) :
    readLengths.Takes (writeLengths ls) ls := by
  have hmany := takes_many readLength (fun n => .ok (writeInt32 n)) ls _ (writeEach_ok _ ls)
    fun l hl cs hcs => by
      obtain rfl := Except.ok.inj hcs
      exact takes_count .prefixLength l (h.lt l hl)
  have hsorted := hmany.andThen_give (f := fun ls => (SortedSet.ofList ls).keys)
  rw [keys_ofList_of_ascending ls h.ascending] at hsorted
  exact (takes_count .possibleLength ls.length h.few).andThen hsorted

/-! ## Entries in order -/

section

variable {ν : Type} (before after : List (Nat × ν)) (e : Nat × ν)
  (h : (before ++ e :: after).Pairwise fun a b => a.1 < b.1)

include h

/-- The entry just before is below. -/
theorem head?_any_of_ascending :
    ((before.reverse ++ []).head?.any fun a : Nat × ν => decide (e.1 ≤ a.1)) = false := by
  rw [List.append_nil]
  cases hhead : before.reverse.head? with
  | none => rfl
  | some a =>
    have ha : a ∈ before := List.mem_reverse.mp (List.mem_of_head? hhead)
    have hlt := (List.pairwise_append.mp h).2.2 a ha e (List.mem_cons_self ..)
    exact decide_eq_false (Nat.not_le.mpr hlt)

end

/-! ## The plain layout -/

namespace PlainStorage

/-- Entries and lengths ascend. -/
structure Proper (s : PlainStorage) : Prop where
  ascending : s.entries.toList.Pairwise fun a b => a.1 < b.1
  lengths_fit : LengthsFit s.lengths

/-- An entry is read back after lower ones. -/
theorem takes_readEntry (i : Nat) (done : List (Nat × String)) (e : Nat × String)
    (hdone : (done.head?.any fun a => decide (e.1 ≤ a.1)) = false) (bs : List UInt8)
    (hbs : writeEntry e = .ok bs) : (readEntry i done).Takes bs e := by
  unfold writeEntry checkPrefix at hbs
  by_cases hmax : e.1 ≤ maxPrefix
  · rw [if_pos hmax] at hbs
    obtain ⟨cs, htext, rfl⟩ := map_eq_ok _ _ bs hbs
    unfold maxPrefix at hmax
    refine (takes_int32 e.1 (by omega) (by omega)).andThen ?_
    rw [Int.toNat_natCast, if_neg]
    · exact (takes_text e.2 cs htext).andThen_give
    · rintro (hneg | hle)
      · omega
      · exact Bool.noConfusion (hdone.symm.trans hle)
  · rw [if_neg hmax] at hbs
    cases hbs

theorem write_ok (s : PlainStorage) (bs : List UInt8) (h : s.write = .ok bs) :
    ∃ es, writeEach writeEntry s.entries.toList = .ok es ∧
      bs = writeCount s.entries.size ++ (es ++ writeLengths s.lengths) := by
  obtain ⟨es, hes, rfl⟩ := map_eq_ok _ _ bs h
  exact ⟨es, hes, List.append_assoc ..⟩

theorem takes_read (s : PlainStorage) (hs : s.Proper) (bs : List UInt8) (h : s.write = .ok bs)
    (hsize : s.entries.size < 0x80000000) : read.Takes bs s := by
  obtain ⟨es, hes, rfl⟩ := s.write_ok bs h
  have hentries := takes_manyFrom readEntry writeEntry s.entries.toList 0 [] es hes
    fun before e after hsplit cs hcs =>
      takes_readEntry _ _ e (head?_any_of_ascending before after e (hsplit ▸ hs.ascending)) cs hcs
  exact (takes_count .entry _ hsize).andThen
    (hentries.andThen (takes_lengths s.lengths hs.lengths_fit).andThen_give)

theorem refuses_read (s : PlainStorage) (bs : List UInt8) (h : s.write = .ok bs)
    (hsize : s.entries.size = 0x80000000) :
    read.Refuses bs (.negativeCount .entry (-0x80000000)) := by
  obtain ⟨es, -, rfl⟩ := s.write_ok bs h
  rw [hsize]
  exact (refuses_count .entry).andThen _

end PlainStorage

/-! ## Words of the pooled layout -/

namespace WordSize

theorem takes_read (w : WordSize) (n : Nat) (h : n < 256 ^ w.bytes) : w.read.Takes (w.write n) n := by
  cases w <;> exact takes_bigEndian n _ h

theorem takes_readSizes (v w : WordSize) :
    PooledStorage.readSizes.Takes (writeInt32 v.bytes ++ writeInt32 w.bytes) (v, w) := by
  have hsize : ∀ w : WordSize, int32.Takes (writeInt32 w.bytes) w.bytes := by
    intro w
    cases w <;> exact takes_int32 _ (by decide) (by decide)
  have hword : ∀ w : WordSize, ofInt? w.bytes = some w := by
    intro w
    cases w <;> rfl
  intro rest
  rw [List.append_assoc, PooledStorage.readSizes, Decoder.andThen, hsize]
  dsimp only
  rw [Decoder.andThen, hsize]
  dsimp only
  rw [hword, hword]
  rfl

/-- A word holds a value that fits it. -/
theorem hold_of_lt (w : WordSize) (n : Nat) (h : n < 256 ^ w.bytes) : w.hold n = n := by
  cases w <;> exact Nat.mod_eq_of_lt h

/-- Two columns of words hold values that fit them. -/
theorem zip_hold (v w : WordSize) (es : List (Nat × Nat))
    (h : ∀ e ∈ es, e.1 < 256 ^ v.bytes ∧ e.2 < 256 ^ w.bytes) :
    ((es.map (·.1)).map v.hold).zip ((es.map (·.2)).map w.hold) = es := by
  rw [List.map_map, List.map_map, List.zip_map']
  refine (List.map_congr_left fun e he => ?_).trans (List.map_id es)
  obtain ⟨hfirst, hsecond⟩ := h e he
  exact Prod.ext (hold_of_lt v _ hfirst) (hold_of_lt w _ hsecond)

/-- The size chosen for some values has room for each. -/
theorem lt_forValues (ns : List Nat) (h : ∀ n ∈ ns, n < 0x100000000) :
    ∀ n ∈ ns, n < 256 ^ (forValues ns).bytes := by
  intro n hn
  unfold forValues
  by_cases hall : ns.all (· ≤ maxShort) = true
  · have hle := of_decide_eq_true (List.all_eq_true.mp hall n hn)
    rw [if_pos hall]
    exact Nat.lt_of_le_of_lt hle (by decide)
  · rw [if_neg hall]
    exact h n hn

end WordSize

/-! ## The pooled layout -/

namespace PooledStorage

/-- Entries and lengths ascend, prefixes and indices fit their words, and indices are inside
the pool. -/
structure Proper (s : PooledStorage) : Prop where
  ascending : s.entries.toList.Pairwise fun a b => a.1 < b.1
  fits : ∀ e ∈ s.entries.toList, e.1 < 256 ^ s.prefixSize.bytes ∧ e.2 < 256 ^ s.indexSize.bytes
  inside : ∀ e ∈ s.entries.toList, e.2 < s.pool.size
  lengths_fit : LengthsFit s.lengths

section

variable (s : PooledStorage) (hs : s.Proper) (bs : List UInt8) (h : s.write = .ok bs)

/-- What is written of an entry. -/
def entryBytes (e : Nat × Nat) : List UInt8 := s.prefixSize.write e.1 ++ s.indexSize.write e.2

/-- An entry is read back after lower ones. -/
theorem takes_readEntry (i : Nat) (done : List (Nat × Nat)) (e : Nat × Nat)
    (hdone : (done.head?.any fun a => decide (e.1 ≤ a.1)) = false)
    (hfits : e.1 < 256 ^ s.prefixSize.bytes ∧ e.2 < 256 ^ s.indexSize.bytes)
    (hinside : e.2 < s.pool.size) :
    (readEntry s.prefixSize s.indexSize s.pool.size i done).Takes (s.entryBytes e) e := by
  refine (s.prefixSize.takes_read e.1 hfits.1).andThen ?_
  rw [hdone, if_neg Bool.false_ne_true]
  intro rest
  rw [Decoder.andThen, s.indexSize.takes_read e.2 hfits.2]
  dsimp only
  rw [if_neg (Nat.not_le.mpr hinside)]
  rfl

include h

theorem write_ok :
    ∃ pool, writeEach writeText s.pool.toList = .ok pool ∧
      bs = writeInt32 s.prefixSize.bytes ++ writeInt32 s.indexSize.bytes ++ (writeLengths s.lengths
        ++ (writeCount s.pool.size ++ (pool ++ (writeCount s.entries.size
          ++ s.entries.toList.flatMap s.entryBytes)))) := by
  obtain ⟨pool, hpool, rfl⟩ := map_eq_ok _ _ bs h
  refine ⟨pool, hpool, ?_⟩
  simp only [List.append_assoc]
  rfl

include hs

theorem takes_read (hpool : s.pool.size < 0x80000000) (hsize : s.entries.size < 0x80000000) :
    read.Takes bs s := by
  obtain ⟨pool, hwritten, rfl⟩ := s.write_ok bs h
  have htexts := takes_many text writeText s.pool.toList pool hwritten
    fun t _ cs hcs => takes_text t cs hcs
  have hentries := takes_manyFrom (readEntry s.prefixSize s.indexSize s.pool.size)
    (fun e => .ok (s.entryBytes e)) s.entries.toList 0 [] _ (writeEach_ok _ _)
    fun before e after hsplit cs hcs => by
      have hmem : e ∈ s.entries.toList := by
        rw [hsplit]
        exact List.mem_append_right _ (List.mem_cons_self ..)
      obtain rfl := Except.ok.inj hcs
      exact s.takes_readEntry _ _ e (head?_any_of_ascending before after e (hsplit ▸ hs.ascending))
        (hs.fits e hmem) (hs.inside e hmem)
  exact (WordSize.takes_readSizes _ _).andThen ((takes_lengths s.lengths hs.lengths_fit).andThen
    ((takes_count .description _ hpool).andThen (htexts.andThen
      ((takes_count .entry _ hsize).andThen hentries.andThen_give))))

theorem refuses_read (hpool : s.pool.size ≤ s.entries.size)
    (hsize : s.entries.size = 0x80000000) :
    ∃ what, read.Refuses bs (.negativeCount what (-0x80000000)) := by
  obtain ⟨pool, hwritten, rfl⟩ := s.write_ok bs h
  rcases Nat.lt_or_eq_of_le hpool with hlt | heq
  · have htexts := takes_many text writeText s.pool.toList pool hwritten
      fun t _ cs hcs => takes_text t cs hcs
    rw [hsize] at hlt ⊢
    exact ⟨.entry, (WordSize.takes_readSizes _ _).andThen_refuses
      ((takes_lengths s.lengths hs.lengths_fit).andThen_refuses
        ((takes_count .description _ hlt).andThen_refuses
          (htexts.andThen_refuses ((refuses_count .entry).andThen _))))⟩
  · rw [heq, hsize]
    exact ⟨.description, (WordSize.takes_readSizes _ _).andThen_refuses
      ((takes_lengths s.lengths hs.lengths_fit).andThen_refuses
        ((refuses_count .description).andThen _))⟩

end

end PooledStorage

end NumberPlan
