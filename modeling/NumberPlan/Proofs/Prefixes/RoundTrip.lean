import Mathlib.Data.List.Chain
import Mathlib.Data.List.Induction
import NumberPlan.Proofs.Prefixes.Build

/-!
# Maps are read back

A map comes from a table or from a file.  Whatever a file holds, the storage that is read from it
is proper (`PlainStorage.proper_of_gives`, `PooledStorage.proper_of_gives`): the reader refuses
what the writer could not say.  So a map that is written is read back as it was, and what follows
it is left:

    m.Obtained → m.write = .ok bs → PrefixMap.read (bs ++ rest) = .ok (m, rest)   (read_write_obtained)
-/

namespace NumberPlan

open Decoder

/-! ## Storages that were read -/

theorem LengthsFit.of_gives (ls : List Nat) (h : readLengths.Gives ls) : LengthsFit ls := by
  obtain ⟨n, hn, hrest⟩ := h.andThen
  obtain ⟨ks, hks, hls⟩ := hrest.andThen
  obtain ⟨hlen, hlengths⟩ := hks.many
  rw [hls.give]
  refine ⟨SortedTable.keys_ascending _, ?_, fun l hl => ?_⟩
  · exact Nat.lt_of_le_of_lt (length_keys_ofList_le ks) (hlen ▸ hn.count)
  · have hlength : (count .prefixLength).Gives l := hlengths l ((mem_keys_ofList ks l).mp hl)
    exact hlength.count

/-- Entries ascend if each is above the one just before. -/
theorem ascending_of_heads {ν : Type} (es : List (Nat × ν))
    (h : ∀ before e after, es = before ++ e :: after →
      ((before.reverse ++ []).head?.any fun a => decide (e.1 ≤ a.1)) = false) :
    es.Pairwise fun a b => a.1 < b.1 := by
  have : IsTrans (Nat × ν) fun a b => a.1 < b.1 := ⟨fun _ _ _ => Nat.lt_trans⟩
  rw [← List.isChain_iff_pairwise]
  induction es using List.reverseRecOn with
  | nil => exact List.isChain_nil
  | append_singleton es e ih =>
    refine List.isChain_append.mpr ⟨ih fun before a after hsplit => ?_, List.isChain_singleton e, ?_⟩
    · exact h before a (after ++ [e]) (by rw [hsplit, List.append_assoc]; rfl)
    · intro a ha b hb
      obtain rfl := Option.mem_some_iff.mp hb
      have hhead := h es e [] rfl
      rw [List.append_nil, List.head?_reverse, Option.mem_def.mp ha] at hhead
      exact Nat.not_le.mp (of_decide_eq_false hhead)

namespace PlainStorage

theorem gives_readEntry (i : Nat) (done : List (Nat × String)) (e : Nat × String)
    (h : (readEntry i done).Gives e) : (done.head?.any fun a => decide (e.1 ≤ a.1)) = false := by
  obtain ⟨k, -, h⟩ := h.andThen
  obtain ⟨hk, h⟩ := h.of_ite
  obtain ⟨s, -, h⟩ := h.andThen
  rw [h.give]
  exact Bool.eq_false_iff.mpr fun hany => hk (Or.inr hany)

theorem proper_of_gives (s : PlainStorage) (h : read.Gives s) :
    s.Proper ∧ s.entries.size < 0x80000000 := by
  obtain ⟨n, hn, hrest⟩ := h.andThen
  obtain ⟨es, hes, hrest⟩ := hrest.andThen
  obtain ⟨ls, hls, hs⟩ := hrest.andThen
  obtain ⟨_, rfl, hlen, hentries⟩ := hes.manyFrom
  rw [hs.give]
  refine ⟨⟨?_, LengthsFit.of_gives ls hls⟩, ?_⟩
  · exact ascending_of_heads es fun before e after hsplit =>
      gives_readEntry _ _ e (hentries before e after hsplit)
  · rw [List.size_toArray, hlen]
    exact hn.count

end PlainStorage

namespace PooledStorage

theorem gives_word (w : WordSize) (n : Nat) (h : w.read.Gives n) : n < 256 ^ w.bytes := by
  cases w <;> exact Gives.bigEndian h

theorem gives_readEntry (v w : WordSize) (pool i : Nat) (done : List (Nat × Nat)) (e : Nat × Nat)
    (h : (readEntry v w pool i done).Gives e) :
    (done.head?.any fun a => decide (e.1 ≤ a.1)) = false ∧
      (e.1 < 256 ^ v.bytes ∧ e.2 < 256 ^ w.bytes) ∧ e.2 < pool := by
  obtain ⟨k, hk, h⟩ := h.andThen
  obtain ⟨habove, h⟩ := h.of_ite
  obtain ⟨j, hj, h⟩ := h.andThen
  obtain ⟨hinside, h⟩ := h.of_ite
  rw [h.give]
  exact ⟨Bool.eq_false_iff.mpr habove, ⟨gives_word v k hk, gives_word w j hj⟩,
    Nat.not_le.mp hinside⟩

theorem proper_of_gives (s : PooledStorage) (h : read.Gives s) :
    s.Proper ∧ s.pool.size < 0x80000000 ∧ s.entries.size < 0x80000000 := by
  obtain ⟨⟨v, w⟩, -, hrest⟩ := h.andThen
  obtain ⟨ls, hls, hrest⟩ := hrest.andThen
  obtain ⟨p, hp, hrest⟩ := hrest.andThen
  obtain ⟨pool, hpool, hrest⟩ := hrest.andThen
  obtain ⟨n, hn, hrest⟩ := hrest.andThen
  obtain ⟨es, hes, hs⟩ := hrest.andThen
  obtain ⟨hcount, -⟩ := hpool.many
  obtain ⟨_, rfl, hlen, hentries⟩ := hes.manyFrom
  have hentry : ∀ e ∈ es, (e.1 < 256 ^ v.bytes ∧ e.2 < 256 ^ w.bytes) ∧ e.2 < p := by
    intro e he
    obtain ⟨before, after, hsplit⟩ := List.append_of_mem he
    exact (gives_readEntry v w _ _ _ e (hentries before e after hsplit)).2
  rw [hs.give]
  dsimp only
  rw [List.size_toArray, List.size_toArray, hcount, hlen]
  refine ⟨⟨?_, fun e he => (hentry e he).1, fun e he => ?_, LengthsFit.of_gives ls hls⟩,
    hp.count, hn.count⟩
  · exact ascending_of_heads es fun before e after hsplit =>
      (gives_readEntry v w _ _ _ e (hentries before e after hsplit)).1
  · rw [List.size_toArray, hcount]
    exact (hentry e he).2

end PooledStorage

/-! ## Maps that were built or read -/

namespace PrefixMap

/-- The map was built of a table whose entries can be counted, or it was read. -/
inductive Obtained : PrefixMap → Prop
  | built (t : PrefixTable) (m : PrefixMap) (h : build t = .ok m)
    (few : t.entries.length < 0x80000000) : Obtained m
  | read (input rest : List UInt8) (m : PrefixMap) (h : PrefixMap.read input = .ok (m, rest)) :
    Obtained m

theorem gives_read (m : PrefixMap) (h : PrefixMap.read.Gives m) :
    (∃ s, m = ⟨.plain s⟩ ∧ PlainStorage.read.Gives s) ∨
      ∃ s, m = ⟨.pooled s⟩ ∧ PooledStorage.read.Gives s := by
  obtain ⟨pooled, -, h⟩ := h.andThen
  cases pooled with
  | true =>
    obtain ⟨s, hs, h⟩ := h.andThen
    exact Or.inr ⟨s, h.give, hs⟩
  | false =>
    obtain ⟨s, hs, h⟩ := h.andThen
    exact Or.inl ⟨s, h.give, hs⟩

/-- A map that was built or read, and then written, is read back. -/
theorem read_write_obtained (m : PrefixMap) (hm : m.Obtained) (bs : List UInt8)
    (h : m.write = .ok bs) (rest : List UInt8) : PrefixMap.read (bs ++ rest) = .ok (m, rest) := by
  cases hm with
  | built t _ hbuild few =>
    obtain ⟨written, hwritten, htakes | ⟨hmany, -⟩⟩ := read_write t m hbuild
    · obtain rfl := Except.ok.inj (hwritten.symm.trans h)
      exact htakes rest
    · omega
  | read input left _ hread =>
    rcases gives_read m ⟨input, left, hread⟩ with ⟨s, rfl, hs⟩ | ⟨s, rfl, hs⟩
    · obtain ⟨hproper, hsize⟩ := s.proper_of_gives hs
      exact takes_plain s hproper hsize bs h rest
    · obtain ⟨hproper, hpool, hsize⟩ := s.proper_of_gives hs
      exact takes_pooled s hproper hpool hsize bs h rest

/-- A pooled map with words of four bytes, a prefix of 32 bits and a pool that repeats itself, read
from a file that lists its lengths in descending order. -/
def repeatedPool : PrefixMap :=
  ⟨.pooled ⟨.four, .four, #[(33, 2), (0x80000001, 0)], #["b", "a", "b"], [2, 10]⟩⟩

theorem read_write_repeatedPool :
    ∃ bs, repeatedPool.write = .ok bs ∧ PrefixMap.read (bs ++ [7]) = .ok (repeatedPool, [7]) :=
  ⟨_, rfl, read_write_obtained repeatedPool
    (.read [1, 0, 0, 0, 4, 0, 0, 0, 4, 0, 0, 0, 2, 0, 0, 0, 10, 0, 0, 0, 2, 0, 0, 0, 3, 0, 1, 98, 0, 1,
      97, 0, 1, 98, 0, 0, 0, 2, 0, 0, 0, 33, 0, 0, 0, 2, 128, 0, 0, 1, 0, 0, 0, 0] []
      repeatedPool rfl)
    _ rfl [7]⟩

end PrefixMap

end NumberPlan
