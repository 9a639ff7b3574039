import NumberPlan.Prefixes.Access
import NumberPlan.Proofs.Checked
import NumberPlan.Proofs.Prefixes.Layouts
import NumberPlan.Proofs.Prefixes.Lines
import NumberPlan.Proofs.Prefixes.RoundTrip

/-!
# No lookup reaches outside its data

What a reader gives is sound (`Storage.Sound`): prefixes and lengths ascend, every prefix has a
description, and an index is inside the pool.  On a sound storage each access of a lookup and of
the dump is to a place that exists, so none of them faults, whatever digits are looked up:

    PrefixMap.read input = .ok (m, rest) →
      m.storage.Sound ∧ m.lookupDigitsChecked digits = .ok (m.lookupDigits digits) ∧ …  (read_sound)

The recorded lengths need not be those of the prefixes.  A length of 0 gives an empty candidate,
and one beyond the digits gives all of them; both are cut out of the digits without a fault.
-/

namespace NumberPlan

open PrefixMap

/-! ## Sound storages -/

/-- Prefixes and lengths ascend, and each prefix has a description.  That the two arrays of a layout
are of one length holds of every storage, since they are kept as one array of pairs; what a reader
has to ensure is the rest. -/
def Storage.Sound : Storage → Prop
  | .plain s => s.prefixes.toList.Pairwise (· < ·) ∧ s.prefixes.size = s.descriptions.size ∧
      s.lengths.Pairwise (· < ·)
  | .pooled s => s.prefixes.toList.Pairwise (· < ·) ∧ s.prefixes.size = s.indices.size ∧
      (∀ i ∈ s.indices, i < s.pool.size) ∧ s.lengths.Pairwise (· < ·)

theorem PlainStorage.Proper.sound (s : PlainStorage) (h : s.Proper) :
    (Storage.plain s).Sound := by
  refine ⟨?_, ?_, h.lengths_fit.ascending⟩
  · rw [PlainStorage.prefixes, Array.toList_map]
    exact List.pairwise_map.mpr h.ascending
  · simp [PlainStorage.prefixes, PlainStorage.descriptions]

theorem PooledStorage.Proper.sound (s : PooledStorage) (h : s.Proper) :
    (Storage.pooled s).Sound := by
  refine ⟨?_, ?_, ?_, h.lengths_fit.ascending⟩
  · rw [PooledStorage.prefixes, Array.toList_map]
    exact List.pairwise_map.mpr h.ascending
  · simp [PooledStorage.prefixes, PooledStorage.indices]
  · intro i hi
    obtain ⟨e, he, rfl⟩ := Array.mem_map.mp hi
    exact h.inside e (Array.mem_toList_iff.mpr he)

/-! ## Cutting texts -/

namespace Checked

/-- Digits have one byte each, so that they are cut between any two. -/
theorem leadingBytes_digits (w : List Digit) : ∀ n : Nat, n ≤ w.length →
    leadingBytes n (w.map Digit.toChar) = .ok ((w.take n).map Digit.toChar) := by
  have hsize : ∀ d : Digit, d.toChar.utf8Size = 1 := by decide
  induction w with
  | nil =>
    intro n hn
    have h0 : n = 0 := by simpa using hn
    subst h0
    rfl
  | cons d w ih =>
    intro n hn
    cases n with
    | zero => rfl
    | succ n =>
      have hrest : n ≤ w.length := by simpa using hn
      rw [List.map_cons, leadingBytes, hsize, if_neg (by omega), if_pos (by omega),
        Nat.add_sub_cancel, ih n hrest]
      rfl

end Checked

open Checked

/-! ## Single accesses -/

/-- Every place of a storage can be read. -/
def Storage.Readable (s : Storage) : Prop := ∀ i < s.size,
  s.prefixChecked i = .ok (s.prefixAt i) ∧ s.descriptionChecked i = .ok (s.descriptionAt i)

theorem Storage.Sound.readable (s : Storage) (h : s.Sound) : s.Readable := by
  cases s with
  | plain s =>
    intro i hi
    have hentry : i < s.entries.size := hi
    obtain ⟨-, hpaired, -⟩ := h
    have hkeys : i < s.prefixes.size := by simpa [PlainStorage.prefixes] using hentry
    have hdescriptions : i < s.descriptions.size := by omega
    constructor
    · show element s.prefixes i = _
      rw [element_of_lt s.prefixes i hkeys]
      simp [PlainStorage.prefixes, Storage.prefixAt, hentry]
    · show element s.descriptions i = _
      rw [element_of_lt s.descriptions i hdescriptions]
      simp [PlainStorage.descriptions, Storage.descriptionAt, hentry]
  | pooled s =>
    intro i hi
    have hentry : i < s.entries.size := hi
    obtain ⟨-, hpaired, hinside, -⟩ := h
    have hkeys : i < s.prefixes.size := by simpa [PooledStorage.prefixes] using hentry
    have hindices : i < s.indices.size := by omega
    have hpool : s.indices[i] < s.pool.size := hinside _ (Array.getElem_mem hindices)
    constructor
    · show element s.prefixes i = _
      rw [element_of_lt s.prefixes i hkeys]
      simp [PooledStorage.prefixes, Storage.prefixAt, hentry]
    · show (element s.indices i >>= element s.pool) = _
      rw [element_of_lt s.indices i hindices, ok_bind, element_of_lt s.pool _ hpool]
      have hindex : s.indices[i] = (s.entries.getD i (0, 0)).2 := by
        simp [PooledStorage.indices, hentry]
      rw [Storage.descriptionAt, ← hindex]
      simp [hpool]

/-! ## Candidates -/

theorem candidate?_eq_readNumber32 (w : List Digit) (l : Nat) :
    candidate? w l = (readNumber32 ((w.take l).map Digit.toChar)).toOption := by
  rw [readNumber32_digits]
  unfold candidate?
  dsimp only
  by_cases hempty : (w.take l).isEmpty
  · rw [if_pos hempty, if_pos hempty]
    rfl
  · rw [if_neg hempty, if_neg hempty]
    show (if numberOf (w.take l) < 0x100000000 then some (numberOf (w.take l)) else none) = _
    split <;> rfl

theorem utf8ByteSize_digits (w : List Digit) : (asciiOfDigits w).utf8ByteSize = w.length := by
  have hsize : ∀ d : Digit, d.toChar.utf8Size = 1 := by decide
  unfold asciiOfDigits
  induction w with
  | nil => rfl
  | cons d w ih =>
    rw [List.map_cons, String.ofList_cons]
    simp [ih, hsize, Nat.add_comm]

/-- The candidate is cut out of the digits without a fault. -/
theorem leadingBytes_candidate (w : List Digit) (l : Nat) :
    leadingBytes (min (asciiOfDigits w).utf8ByteSize l) (asciiOfDigits w).toList =
      .ok ((w.take l).map Digit.toChar) := by
  rw [utf8ByteSize_digits, asciiOfDigits, String.toList_ofList,
    leadingBytes_digits w _ (Nat.min_le_left _ _), Nat.min_comm, ← List.take_eq_take_min]

theorem eq_asciiOfDigits (digits : String) (w : List Digit) (h : plainDigits? digits = some w) :
    digits = asciiOfDigits w := by
  have hmap : ∀ (cs : List Char) (w : List Digit), cs.mapM Digit.ofAscii? = some w →
      cs = w.map Digit.toChar := by
    intro cs
    induction cs with
    | nil =>
      intro w h
      obtain rfl := Option.some.inj h
      rfl
    | cons c cs ih =>
      intro w h
      rw [List.mapM_cons] at h
      obtain ⟨d, hd, h⟩ := Option.bind_eq_some_iff.mp h
      obtain ⟨v, hv, h⟩ := Option.bind_eq_some_iff.mp h
      obtain rfl := Option.some.inj h
      rw [List.map_cons, ← ih v hv, (ofAscii?_eq_some c d).mp hd]
  unfold plainDigits? at h
  split at h
  · cases h
  · rw [asciiOfDigits, ← hmap _ w h, String.ofList_toList]

/-! ## The search -/

theorem upperBound_le (s : Storage) (value steps : Nat) : ∀ low high : Nat, low ≤ high →
    upperBound s value steps low high ≤ high := by
  induction steps with
  | zero => intro low high hle; exact hle
  | succ steps ih =>
    intro low high hle
    rw [upperBound]
    by_cases hlt : low < high
    · rw [if_pos hlt]
      dsimp only
      by_cases hk : s.prefixAt (low + (high - low) / 2) ≤ value
      · rw [if_pos hk]
        exact ih _ high (by omega)
      · rw [if_neg hk]
        have hmid := ih low (low + (high - low) / 2) (by omega)
        omega
    · rw [if_neg hlt]
      exact hle

theorem lastAtMost?_le (s : Storage) (last value i : Nat)
    (h : lastAtMost? s last value = some i) : i ≤ last := by
  have hle := upperBound_le s value (last + 2) 0 (last + 1) (Nat.zero_le _)
  unfold lastAtMost? at h
  split at h
  · cases h
  · next j hj =>
    obtain rfl := Option.some.inj h
    omega

section

variable (s : Storage) (hs : s.Readable) (hsize : s.size ≤ 0x80000000)

include hs hsize

theorem upperBoundChecked_eq (value steps : Nat) : ∀ low high : Nat, high ≤ s.size →
    high - low < steps →
    upperBoundChecked s value steps low high = .ok (upperBound s value steps low high) := by
  induction steps with
  | zero => intro low high _ hsteps; omega
  | succ steps ih =>
    intro low high hhigh hsteps
    rw [upperBoundChecked, upperBound]
    by_cases hlt : low < high
    · have hmid : low + (high - low) / 2 < s.size := by omega
      have hgap := minus_of_le high low (by omega)
      have hplace := plus_of_le low ((high - low) / 2) (by unfold maxPlace; omega)
      have hnext := plus_of_le (low + (high - low) / 2) 1 (by unfold maxPlace; omega)
      rw [if_pos hlt, if_pos hlt]
      simp only [hgap, hplace, (hs _ hmid).1, ok_bind]
      by_cases hk : s.prefixAt (low + (high - low) / 2) ≤ value
      · rw [if_pos hk, if_pos hk, hnext]
        exact ih _ high hhigh (by omega)
      · rw [if_neg hk, if_neg hk]
        exact ih low _ (by omega) (by omega)
    · rw [if_neg hlt, if_neg hlt]

theorem lastAtMostChecked_eq (last value : Nat) (hlast : last < s.size) :
    lastAtMostChecked s last value = .ok (lastAtMost? s last value) := by
  have hhigh := plus_of_le last 1 (by unfold maxPlace; omega)
  have hbound := upperBoundChecked_eq s hs hsize value (last + 2) 0 (last + 1) hlast (by omega)
  unfold lastAtMostChecked lastAtMost?
  simp only [hhigh, hbound, ok_bind]
  rfl

theorem searchChecked_eq (w : List Digit) (ls : List Nat) : ∀ last : Nat, last < s.size →
    searchChecked s (asciiOfDigits w) ls last = .ok (search s w ls last) := by
  induction ls with
  | nil => intro last _; rfl
  | cons l ls ih =>
    intro last hlast
    rw [searchChecked, search, candidate?_eq_readNumber32, leadingBytes_candidate, ok_bind]
    cases readNumber32 ((w.take l).map Digit.toChar) with
    | error fault => exact ih last hlast
    | ok n =>
      simp only [lastAtMostChecked_eq s hs hsize last n hlast, ok_bind, Except.toOption]
      cases hi : lastAtMost? s last n with
      | none => rfl
      | some i =>
        have hle := lastAtMost?_le s last n i hi
        obtain ⟨hkey, hdescription⟩ := hs i (by omega)
        simp only [hkey, hdescription, ok_bind]
        by_cases hk : s.prefixAt i = n
        · rw [if_pos hk, if_pos hk]
          rfl
        · rw [if_neg hk, if_neg hk]
          exact ih i (by omega)

end

/-! ## Maps -/

namespace PrefixMap

section

variable (m : PrefixMap) (hm : m.storage.Readable) (hsize : m.size ≤ 0x80000000)

include hm

theorem dumpChecked_eq : m.dumpChecked = .ok m.dump := by
  unfold dumpChecked dump
  rw [m.storage.entries_eq_map_range, List.map_map, mapM_eq_ok _
    ((fun e => toString e.1 ++ "|" ++ e.2 ++ "\n") ∘
      fun i => (m.storage.prefixAt i, m.storage.descriptionAt i))]
  · rfl
  · intro i hi
    obtain ⟨hkey, hdescription⟩ := hm i (List.mem_range.mp hi)
    simp only [hkey, hdescription, ok_bind]
    rfl

include hsize

theorem lookupDigitsChecked_eq (digits : String) :
    m.lookupDigitsChecked digits = .ok (m.lookupDigits digits) := by
  unfold lookupDigitsChecked lookupDigits
  cases hw : plainDigits? digits with
  | none => rfl
  | some w =>
    rw [eq_asciiOfDigits digits w hw]
    cases hlen : m.size with
    | zero => rfl
    | succ n =>
      have hlast : n < m.storage.size := by
        have : m.storage.size = n + 1 := hlen
        omega
      exact searchChecked_eq m.storage hm hsize w _ n hlast

end

/-- A map that was read is sound, and no lookup in it and no dump of it faults. -/
theorem read_sound (input rest : List UInt8) (m : PrefixMap)
    (h : PrefixMap.read input = .ok (m, rest)) :
    m.storage.Sound ∧
      (∀ digits, m.lookupDigitsChecked digits = .ok (m.lookupDigits digits)) ∧
      (∀ code number, m.lookupChecked code number = .ok (m.lookup code number)) ∧
      m.dumpChecked = .ok m.dump := by
  have hsound : m.storage.Sound ∧ m.size < 0x80000000 := by
    rcases gives_read m ⟨input, rest, h⟩ with ⟨s, rfl, hs⟩ | ⟨s, rfl, hs⟩
    · obtain ⟨hproper, hsize⟩ := s.proper_of_gives hs
      exact ⟨hproper.sound, hsize⟩
    · obtain ⟨hproper, -, hsize⟩ := s.proper_of_gives hs
      exact ⟨hproper.sound, hsize⟩
  obtain ⟨hsound, hsize⟩ := hsound
  have hreadable := hsound.readable
  have hdigits := m.lookupDigitsChecked_eq hreadable (Nat.le_of_lt hsize)
  exact ⟨hsound, hdigits, fun code number => hdigits _, m.dumpChecked_eq hreadable⟩

/-- A map of one prefix whose file records the lengths 0, 2 and 2 ^ 31 - 1, in no order. -/
def oddLengths : PrefixMap := ⟨.plain ⟨#[(33, "France")], [0, 2, 0x7FFFFFFF]⟩⟩

theorem read_sound_oddLengths :
    ∃ input, PrefixMap.read input = .ok (oddLengths, []) ∧ oddLengths.storage.Sound ∧
      oddLengths.lookupDigitsChecked "331" = .ok (some "France") := by
  have hread : PrefixMap.read [0, 0, 0, 0, 1, 0, 0, 0, 33, 0, 6, 70, 114, 97, 110, 99, 101,
      0, 0, 0, 3, 0x7F, 0xFF, 0xFF, 0xFF, 0, 0, 0, 0, 0, 0, 0, 2] = .ok (oddLengths, []) := by rfl
  obtain ⟨hsound, hdigits, -⟩ := read_sound _ [] oddLengths hread
  have hfound : oddLengths.lookupDigits "331" = some "France" := by rfl
  exact ⟨_, hread, hsound, (hdigits "331").trans (congrArg Except.ok hfound)⟩

end PrefixMap

end NumberPlan
