import Mathlib.Logic.Basic
import NumberPlan.Proofs.Prefixes.RoundTrip

/-!
# Maps that were read are saved

A map that was read has prefixes that fit their words, so writing it can fail at its texts only.
These were told in 16 bits, and writing makes them no longer (`length_encodeText_le`) but where a
file has the byte zero in a text, which is written as two bytes.

    PrefixMap.read input = .ok (m, rest) →
      ((∃ bs, m.write = .ok bs) ↔ ∀ t ∈ m.storage.texts, (encodeText t).length ≤ 65535) ∧ …
                                                                        (write_of_read)

So every map without a NUL can be saved, and one that cannot be saved has a text of more than 65535
bytes with NULs in it.  Such a file exists (`write_of_read_refused`).
-/

namespace NumberPlan

open Decoder

/-- All texts that a storage keeps. -/
def Storage.texts : Storage → List String
  | .plain s => s.entries.toList.map (·.2)
  | .pooled s => s.pool.toList

/-! ## Values that were read -/

theorem Decoder.Gives.int32 {i : Int} (h : int32.Gives i) : i < 0x80000000 := by
  obtain ⟨w, hw, hi⟩ := h.andThen
  have hword : w < 0x100000000 := hw.bigEndian
  have hsign := hi.give
  split at hsign <;> omega

/-- A text that was read has its length in 16 bits. -/
theorem Decoder.Gives.text {t : String} (h : text.Gives t) :
    (encodeText t).length ≤ 65535 + t.toList.count '\x00' := by
  obtain ⟨n, hn, h⟩ := h.andThen
  obtain ⟨bs, hbs, h⟩ := h.andThen
  have hlen : n < 0x10000 := hn.bigEndian
  split at h
  · exact absurd h (not_gives_fail _ t)
  · next s hs =>
    obtain rfl := h.give
    have hwritten := length_encodeText_le bs t hs
    rw [hbs.bytes] at hwritten
    omega

/-- What was read of an entry of the plain layout. -/
theorem PlainStorage.fits_of_gives (i : Nat) (done : List (Nat × String)) (e : Nat × String)
    (h : (readEntry i done).Gives e) : e.1 ≤ maxPrefix ∧ text.Gives e.2 := by
  obtain ⟨k, hk, h⟩ := h.andThen
  obtain ⟨-, h⟩ := h.of_ite
  obtain ⟨t, ht, h⟩ := h.andThen
  obtain rfl := h.give
  have hlt := hk.int32
  unfold maxPrefix
  exact ⟨by dsimp only; omega, ht⟩

theorem PlainStorage.entries_of_gives (s : PlainStorage) (h : read.Gives s) :
    ∀ e ∈ s.entries.toList, e.1 ≤ maxPrefix ∧ text.Gives e.2 := by
  obtain ⟨n, -, hrest⟩ := h.andThen
  obtain ⟨es, hes, hrest⟩ := hrest.andThen
  obtain ⟨ls, -, hs⟩ := hrest.andThen
  obtain ⟨_, rfl, -, hentries⟩ := hes.manyFrom
  obtain rfl := hs.give
  intro e he
  obtain ⟨before, after, hsplit⟩ := List.append_of_mem he
  exact fits_of_gives _ _ e (hentries before e after hsplit)

theorem PooledStorage.texts_of_gives (s : PooledStorage) (h : read.Gives s) :
    ∀ t ∈ s.pool.toList, text.Gives t := by
  obtain ⟨sizes, -, hrest⟩ := h.andThen
  obtain ⟨ls, -, hrest⟩ := hrest.andThen
  obtain ⟨p, -, hrest⟩ := hrest.andThen
  obtain ⟨pool, hpool, hrest⟩ := hrest.andThen
  obtain ⟨n, -, hrest⟩ := hrest.andThen
  obtain ⟨es, -, hs⟩ := hrest.andThen
  obtain rfl := hs.give
  exact hpool.many.2

/-! ## Writing -/

theorem exists_writeText_iff (t : String) :
    (∃ bs, writeText t = .ok bs) ↔ (encodeText t).length ≤ 65535 := by
  constructor
  · rintro ⟨bs, hbs⟩
    exact Nat.le_of_lt_succ ((writeText_eq_ok t bs).mp hbs).1
  · exact fun hlen => ⟨_, (writeText_eq_ok t _).mpr ⟨Nat.lt_succ_of_le hlen, rfl⟩⟩

theorem writeText_eq_error (t : String) (e : PrefixError) : writeText t = .error e ↔
    65535 < (encodeText t).length ∧ e = .textTooLong (encodeText t).length := by
  unfold writeText
  dsimp only
  by_cases hlen : (encodeText t).length < 0x10000
  · rw [if_pos hlen]
    exact ⟨fun h => (by cases h), fun h => absurd h.1 (by omega)⟩
  · rw [if_neg hlen, Except.error.injEq]
    exact ⟨fun h => ⟨by omega, h.symm⟩, fun h => h.2.symm⟩

/-- Writing fails just where a text cannot be written, and then with the error of one. -/
structure FailsWithTexts (written : Except PrefixError (List UInt8)) (texts : List String) :
    Prop where
  ok_iff : (∃ bs, written = .ok bs) ↔ ∀ t ∈ texts, ∃ bs, writeText t = .ok bs
  exists_text : ∀ e, written = .error e → ∃ t ∈ texts, writeText t = .error e

theorem FailsWithTexts.map {written : Except PrefixError (List UInt8)} {texts : List String}
    (h : FailsWithTexts written texts) (f : List UInt8 → List UInt8) :
    FailsWithTexts (written.map f) texts := by
  cases written with
  | error e =>
    refine ⟨⟨fun ⟨bs, hbs⟩ => (by cases hbs), fun htexts => ?_⟩, fun e' he => ?_⟩
    · obtain ⟨bs, hbs⟩ := h.ok_iff.mpr htexts
      cases hbs
    · obtain rfl := Except.error.inj he
      exact h.exists_text e rfl
  | ok bs =>
    refine ⟨⟨fun _ => h.ok_iff.mp ⟨bs, rfl⟩, fun _ => ⟨f bs, rfl⟩⟩, fun e he => ?_⟩
    cases he

/-- What is written of each element fails with its text. -/
theorem failsWithTexts_writeEach {α : Type} (f : α → Except PrefixError (List UInt8))
    (text : α → String) (as : List α) (h : ∀ a ∈ as, FailsWithTexts (f a) [text a]) :
    FailsWithTexts (writeEach f as) (as.map text) := by
  induction as with
  | nil =>
    refine ⟨⟨fun _ t ht => absurd ht List.not_mem_nil, fun _ => ⟨[], rfl⟩⟩, fun e he => ?_⟩
    cases he
  | cons a as ih =>
    have ha := h a (List.mem_cons_self ..)
    have has := ih fun b hb => h b (List.mem_cons_of_mem a hb)
    refine ⟨⟨?_, ?_⟩, ?_⟩
    · rintro ⟨bs, hbs⟩ t ht
      obtain ⟨cs, rest, hcs, hrest, -⟩ := writeEach_cons f a as bs hbs
      rcases List.mem_cons.mp ht with rfl | ht
      · exact ha.ok_iff.mp ⟨cs, hcs⟩ _ (List.mem_singleton_self _)
      · exact has.ok_iff.mp ⟨rest, hrest⟩ t ht
    · intro htexts
      obtain ⟨cs, hcs⟩ := ha.ok_iff.mpr fun t ht =>
        htexts t (List.mem_singleton.mp ht ▸ List.mem_cons_self ..)
      obtain ⟨rest, hrest⟩ := has.ok_iff.mpr fun t ht => htexts t (List.mem_cons_of_mem _ ht)
      exact ⟨cs ++ rest, by rw [writeEach, hcs, hrest]⟩
    · intro e he
      rw [writeEach] at he
      split at he
      · next e' hfirst =>
        obtain rfl := Except.error.inj he
        obtain ⟨t, ht, hte⟩ := ha.exists_text e' hfirst
        exact ⟨t, List.mem_singleton.mp ht ▸ List.mem_cons_self .., hte⟩
      · split at he
        · next e' hlater =>
          obtain rfl := Except.error.inj he
          obtain ⟨t, ht, hte⟩ := has.exists_text e' hlater
          exact ⟨t, List.mem_cons_of_mem _ ht, hte⟩
        · cases he

theorem failsWithTexts_writeText (t : String) : FailsWithTexts (writeText t) [t] := by
  refine ⟨⟨fun h s hs => ?_, fun h => h t (List.mem_singleton_self t)⟩, fun e he => ?_⟩
  · rw [List.mem_singleton.mp hs]
    exact h
  · exact ⟨t, List.mem_singleton_self t, he⟩

theorem PlainStorage.failsWithTexts (s : PlainStorage)
    (h : ∀ e ∈ s.entries.toList, e.1 ≤ maxPrefix) :
    FailsWithTexts s.write (Storage.plain s).texts := by
  refine (failsWithTexts_writeEach writeEntry (·.2) s.entries.toList fun e he => ?_).map _
  rw [writeEntry, checkPrefix, if_pos (h e he)]
  exact (failsWithTexts_writeText e.2).map _

theorem PooledStorage.failsWithTexts (s : PooledStorage) :
    FailsWithTexts s.write (Storage.pooled s).texts := by
  have heach := failsWithTexts_writeEach writeText id s.pool.toList fun t _ =>
    failsWithTexts_writeText t
  rw [List.map_id] at heach
  exact heach.map _

/-! ## Maps -/

namespace PrefixMap

/-- A map that was read is written just where its texts are, and these were read. -/
theorem failsWithTexts_of_gives (m : PrefixMap) (h : PrefixMap.read.Gives m) :
    FailsWithTexts m.write m.storage.texts ∧ ∀ t ∈ m.storage.texts, text.Gives t := by
  rcases gives_read m h with ⟨s, rfl, hs⟩ | ⟨s, rfl, hs⟩
  · have hentries := s.entries_of_gives hs
    refine ⟨(s.failsWithTexts fun e he => (hentries e he).1).map _, fun t ht => ?_⟩
    obtain ⟨e, he, rfl⟩ := List.mem_map.mp ht
    exact (hentries e he).2
  · exact ⟨s.failsWithTexts.map _, s.texts_of_gives hs⟩

/-- A map that was read is written if each of its texts has its length in 16 bits, which only a NUL
can prevent; nothing but such a text makes writing fail. -/
theorem write_of_read (input rest : List UInt8) (m : PrefixMap)
    (h : PrefixMap.read input = .ok (m, rest)) :
    ((∃ bs, m.write = .ok bs) ↔ ∀ t ∈ m.storage.texts, (encodeText t).length ≤ 65535) ∧
      (∀ t ∈ m.storage.texts, (encodeText t).length ≤ 65535 + t.toList.count '\x00') ∧
      ∀ e, m.write = .error e →
        ∃ t ∈ m.storage.texts, '\x00' ∈ t.toList ∧ e = .textTooLong (encodeText t).length := by
  obtain ⟨hwritten, htexts⟩ := m.failsWithTexts_of_gives ⟨input, rest, h⟩
  refine ⟨?_, fun t ht => (htexts t ht).text, fun e he => ?_⟩
  · rw [hwritten.ok_iff]
    exact forall₂_congr fun t _ => exists_writeText_iff t
  · obtain ⟨t, ht, hte⟩ := hwritten.exists_text e he
    obtain ⟨hlong, rfl⟩ := (writeText_eq_error t e).mp hte
    have hbound := (htexts t ht).text
    exact ⟨t, ht, List.count_pos_iff.mp (by omega), rfl⟩

/-- A map of one text in longer forms: NUL in one byte, a letter in two, and NUL in three. -/
theorem write_of_read_longForms :
    ∃ input m, PrefixMap.read input = .ok (m, []) ∧ m.storage.texts = ["\x00A\x00"] ∧
      ∃ bs, m.write = .ok bs ∧ bs ≠ input := by
  have hread : PrefixMap.read [0, 0, 0, 0, 1, 0, 0, 0, 33, 0, 6, 0, 0xC1, 0x81, 0xE0, 0x80, 0x80,
      0, 0, 0, 0] = .ok (⟨.plain ⟨#[(33, "\x00A\x00")], []⟩⟩, []) := by rfl
  obtain ⟨hwritten, -, -⟩ := write_of_read _ _ _ hread
  obtain ⟨bs, hbs⟩ := hwritten.mpr (by decide)
  refine ⟨_, _, hread, rfl, bs, hbs, ?_⟩
  rintro rfl
  cases hbs

/-! ## A file that is read and not written -/

/-- A text of NULs. -/
def nuls (n : Nat) : String := String.ofList (List.replicate n '\x00')

def nulMap (n : Nat) : PrefixMap := ⟨.plain ⟨#[(1, nuls n)], [1]⟩⟩

/-- A file in which the text has a byte for each NUL. -/
def nulFile (n : Nat) : List UInt8 :=
  writeBool false ++ (writeCount 1 ++ ((writeInt32 1 ++ (writeWord16 n ++ List.replicate n 0)) ++
    writeLengths [1]))

theorem decodeText?_zeros (n : Nat) : decodeText? (List.replicate n 0) = some (nuls n) := by
  have hunits : ∀ done, unitsOfBytes? done (List.replicate n 0) =
      some (done.reverse ++ List.replicate n 0) := by
    induction n with
    | zero => exact fun done => congrArg some (List.append_nil _).symm
    | succ n ih =>
      intro done
      rw [List.replicate_succ, unitsOfBytes?.eq_def]
      show unitsOfBytes? (0 :: done) (List.replicate n 0) = _
      rw [ih, List.reverse_cons, List.append_assoc]
      rfl
  have hchars := charsOfUnits?_chars (List.replicate n '\x00') []
  have hnul : unitsOf '\x00' = [0] := by decide
  rw [List.flatMap_replicate, hnul] at hchars
  rw [decodeText?, hunits]
  simpa [nuls] using congrArg (Option.map String.ofList) hchars

theorem encodeText_nuls (n : Nat) : (encodeText (nuls n)).length = 2 * n := by
  have hnul : unitsOf '\x00' = [0] := by decide
  have hbytes : (bytesOfUnit 0).length = 2 := by decide
  rw [encodeText, nuls, String.toList_ofList]
  simp [List.flatMap_replicate, hnul, hbytes, Nat.mul_comm]

theorem read_nulFile (n : Nat) (hn : n < 0x10000) :
    PrefixMap.read (nulFile n) = .ok (nulMap n, []) := by
  have htext : text.Takes (writeWord16 n ++ List.replicate n 0) (nuls n) := by
    have hbytes := takes_bytes (List.replicate n 0)
    rw [List.length_replicate] at hbytes
    refine (takes_word16 n hn).andThen fun rest => ?_
    rw [Decoder.andThen, hbytes]
    dsimp only
    rw [decodeText?_zeros]
    rfl
  have hentry : (PlainStorage.readEntry 0 []).Takes
      (writeInt32 1 ++ (writeWord16 n ++ List.replicate n 0)) (1, nuls n) :=
    (takes_int32 1 (by decide) (by decide)).andThen htext.andThen_give
  have hentries : (manyFrom PlainStorage.readEntry 0 [] 1).Takes
      ((writeInt32 1 ++ (writeWord16 n ++ List.replicate n 0)) ++ []) [(1, nuls n)] :=
    hentry.andThen (takes_give [(1, nuls n)])
  rw [List.append_nil] at hentries
  have hlengths := takes_lengths [1]
    ⟨List.pairwise_singleton _ _, by decide, fun l hl => by rw [List.mem_singleton.mp hl]; decide⟩
  have hmap : PrefixMap.read.Takes (nulFile n) (nulMap n) :=
    (takes_bool false).andThen ((takes_count .entry 1 (by decide)).andThen
      (hentries.andThen hlengths.andThen_give)).andThen_give
  simpa using hmap []

/-- The length of 32768 NULs fits 16 bits where each is one byte, and not where each is two. -/
theorem write_of_read_refused : ¬ ∀ input rest m, PrefixMap.read input = .ok (m, rest) →
    ∃ bs, m.write = .ok bs := by
  intro h
  obtain ⟨bs, hbs⟩ := h _ _ _ (read_nulFile 32768 (by decide))
  have hwritten := (failsWithTexts_of_gives (nulMap 32768) ⟨_, _, read_nulFile 32768 (by decide)⟩).1
  obtain ⟨cs, hcs⟩ := hwritten.ok_iff.mp ⟨bs, hbs⟩ (nuls 32768) (List.mem_singleton_self _)
  have hlen := (exists_writeText_iff _).mp ⟨cs, hcs⟩
  rw [encodeText_nuls] at hlen
  omega

end PrefixMap

end NumberPlan
