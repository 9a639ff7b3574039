import NumberPlan.Prefixes.Map
import NumberPlan.Proofs.Digit
import NumberPlan.Proofs.Text.SortedTable

/-!
# Searching for the longest prefix

The search goes through the lengths from the greatest down and keeps that entries after the
current end are above every candidate to come (`Narrowed`).  Shorter candidates are smaller, so the
end only moves down, and a search that finds nothing below a candidate finds nothing below the
shorter ones either.  So the search finds what trying every entry finds:

    Narrowed s w ls last → search s w ls last = scan s w ls              (search_eq_scan)
    m.lookupDigits digits = (plainDigits? digits).bind fun w => scan …   (lookupDigits_eq_scan)

The scan keeps that no prefix of a length it has passed leads the digits (`Searching`), so that
the first prefix it finds is the longest:

    Searching t w ls → LongestLeads t w (scan s w ls)                    (scan_longest)
-/

namespace NumberPlan

open PrefixMap

/-! ## Prefixes that lead digits -/

/-- The numeral of `k` is a leading part of the digits. -/
def Leads (k : Nat) (w : List Digit) : Prop :=
  prefixLength k ≤ w.length ∧ numberOf (w.take (prefixLength k)) = k

/-- What the longest prefix that leads the digits stands for, if any does. -/
def LongestLeads (t : PrefixTable) (w : List Digit) : Option String → Prop
  | some v => ∃ k, t.get? k = some v ∧ Leads k w ∧
      ∀ j ∈ t.keys, Leads j w → prefixLength j ≤ prefixLength k
  | none => ∀ k ∈ t.keys, ¬ Leads k w

theorem prefixLength_pos (k : Nat) : 0 < prefixLength k := Nat.length_toDigits_pos

section

variable (w : List Digit) (hne : w ≠ []) (h0 : w.head? ≠ some 0)

include hne h0

theorem take_numeral (l : Nat) (hl : 0 < l) :
    Nat.toDigits 10 (numberOf (w.take l)) = (w.take l).map Digit.toChar := by
  cases w with
  | nil => exact absurd rfl hne
  | cons d w =>
    obtain ⟨l, rfl⟩ : ∃ k, l = k + 1 := ⟨l - 1, by omega⟩
    exact toDigits_numberOf (d :: w.take l) (List.cons_ne_nil _ _) h0

theorem prefixLength_take (l : Nat) (hl : 0 < l) :
    prefixLength (numberOf (w.take l)) = min l w.length := by
  rw [prefixLength, take_numeral w hne h0 l hl, List.length_map, List.length_take]

/-- A candidate leads the digits, also where it is all of them. -/
theorem leads_take (l : Nat) (hl : 0 < l) : Leads (numberOf (w.take l)) w := by
  have hlen := prefixLength_take w hne h0 l hl
  refine ⟨by rw [hlen]; exact Nat.min_le_right _ _, ?_⟩
  rw [hlen, ← List.take_take, List.take_length]

theorem leads_iff (k : Nat) : Nat.toDigits 10 k <+: w.map Digit.toChar ↔ Leads k w := by
  constructor
  · rintro ⟨r, hr⟩
    obtain ⟨ds, -, hdigits, hnum, -⟩ := exists_numeral k
    rw [hdigits] at hr
    obtain ⟨a, b, rfl, ha, -⟩ := List.map_eq_append_iff.mp hr.symm
    obtain rfl : a = ds := List.map_injective_iff.mpr (fun d e => toChar_injective d e) ha
    have hlen : prefixLength k = a.length := by rw [prefixLength, hdigits, List.length_map]
    refine ⟨by rw [hlen, List.length_append]; exact Nat.le_add_right _ _, ?_⟩
    rw [hlen, List.take_left]
    exact hnum
  · rintro ⟨-, hk⟩
    have hdigits := take_numeral w hne h0 _ (prefixLength_pos k)
    rw [hk] at hdigits
    rw [hdigits]
    exact (List.take_prefix _ w).map _

end

/-! ## Entries by place -/

theorem Storage.length_entries (s : Storage) : s.entries.length = s.size := by
  cases s <;> simp [Storage.entries, Storage.size]

/-- The entry at a place is made of what the places give. -/
theorem Storage.getElem_entries (s : Storage) (i : Nat) (h : i < s.entries.length) :
    s.entries[i] = (s.prefixAt i, s.descriptionAt i) := by
  have hsize := s.length_entries ▸ h
  cases s with
  | plain s =>
    have hi : i < s.entries.size := hsize
    simp [Storage.entries, Storage.prefixAt, Storage.descriptionAt, hi]
  | pooled s =>
    have hi : i < s.entries.size := hsize
    simp [Storage.entries, Storage.prefixAt, Storage.descriptionAt, hi]

theorem Storage.entries_eq_map_range (s : Storage) :
    s.entries = (List.range s.size).map fun i => (s.prefixAt i, s.descriptionAt i) := by
  apply List.ext_getElem
  · simp [s.length_entries]
  · intro i hi hi'
    simp [s.getElem_entries i hi]

/-! ## Storages of a table -/

/-- A storage with the entries of a table and the lengths of its prefixes. -/
structure Storage.Holds (s : Storage) (t : PrefixTable) : Prop where
  size_eq : s.size = t.entries.length
  entry : ∀ i, (h : i < t.entries.length) →
    s.prefixAt i = (t.entries[i]).1 ∧ s.descriptionAt i = (t.entries[i]).2
  lengths_eq : s.lengths = prefixLengths t

/-- Every prefix is above those of the entries before it. -/
def Storage.Ascends (s : Storage) : Prop := s.entries.Pairwise fun a b => a.1 < b.1

section

variable {s : Storage} {t : PrefixTable} (hs : s.Holds t)

include hs

theorem Storage.Holds.entries_eq : s.entries = t.entries := by
  apply List.ext_getElem
  · rw [s.length_entries, hs.size_eq]
  · intro i hi hi'
    obtain ⟨hkey, hdescription⟩ := hs.entry i hi'
    rw [s.getElem_entries i hi, hkey, hdescription]

theorem Storage.Holds.ascends : s.Ascends := by
  unfold Storage.Ascends
  rw [hs.entries_eq]
  exact t.ascending

theorem Storage.Holds.lengths_ascending : s.lengths.Pairwise (· < ·) := by
  rw [hs.lengths_eq]
  exact SortedTable.keys_ascending _

theorem Storage.Holds.entryWith?_eq (n : Nat) : entryWith? s n = t.get? n := by
  rw [entryWith?, hs.entries_eq]
  rfl

end

/-! ## Ascending entries -/

theorem entryWith?_eq_none (s : Storage) (n : Nat) (h : ∀ i < s.size, s.prefixAt i ≠ n) :
    entryWith? s n = none := by
  refine (lookup_eq_none_iff_notMem s.entries n).mpr fun hmem => ?_
  obtain ⟨e, he, hn⟩ := List.mem_map.mp hmem
  obtain ⟨i, hi, rfl⟩ := List.mem_iff_getElem.mp he
  rw [s.getElem_entries i hi] at hn
  exact h i (s.length_entries ▸ hi) hn

section

variable {s : Storage} (hs : s.Ascends)

include hs

theorem Storage.Ascends.prefixAt_lt (i j : Nat) (hij : i < j) (hj : j < s.size) :
    s.prefixAt i < s.prefixAt j := by
  have hlen := s.length_entries
  have hlt := List.pairwise_iff_getElem.mp hs i j (by omega) (by omega) hij
  rwa [s.getElem_entries, s.getElem_entries] at hlt

theorem Storage.Ascends.prefixAt_le (i j : Nat) (hij : i ≤ j) (hj : j < s.size) :
    s.prefixAt i ≤ s.prefixAt j := by
  rcases Nat.lt_or_eq_of_le hij with hlt | rfl
  · exact Nat.le_of_lt (hs.prefixAt_lt i j hlt hj)
  · exact Nat.le_refl _

theorem Storage.Ascends.entryWith?_prefixAt (i : Nat) (hi : i < s.size) :
    entryWith? s (s.prefixAt i) = some (s.descriptionAt i) := by
  have hlen : i < s.entries.length := s.length_entries.symm ▸ hi
  have hmem := List.getElem_mem hlen
  rw [s.getElem_entries i hlen] at hmem
  exact lookup_of_mem s.entries (hs.imp fun hlt => Nat.ne_of_lt hlt) _ _ hmem

/-! ## Binary search -/

/-- The halvings end at the first place above the value. -/
theorem upperBound_spec (value steps : Nat) : ∀ low high : Nat, low ≤ high →
    high ≤ s.size → high - low < steps →
    low ≤ upperBound s value steps low high ∧
      upperBound s value steps low high ≤ high ∧
      (∀ j, low ≤ j → j < upperBound s value steps low high → s.prefixAt j ≤ value) ∧
      ∀ j, upperBound s value steps low high ≤ j → j < high → value < s.prefixAt j := by
  induction steps with
  | zero => exact fun _ _ _ _ h => absurd h (Nat.not_lt_zero _)
  | succ steps ih =>
    intro low high hle hhigh hsteps
    rw [upperBound]
    by_cases hlt : low < high
    · rw [if_pos hlt]
      dsimp only
      generalize hmid : low + (high - low) / 2 = mid
      have hlow : low ≤ mid := by omega
      have hbound : mid < high := by omega
      by_cases hv : s.prefixAt mid ≤ value
      · rw [if_pos hv]
        obtain ⟨h1, h2, h3, h4⟩ := ih (mid + 1) high (by omega) hhigh (by omega)
        refine ⟨by omega, h2, fun j hj hr => ?_, h4⟩
        by_cases hjm : j ≤ mid
        · have hle := hs.prefixAt_le j mid hjm (by omega)
          omega
        · exact h3 j (by omega) hr
      · rw [if_neg hv]
        obtain ⟨h1, h2, h3, h4⟩ := ih low mid hlow (by omega) (by omega)
        refine ⟨h1, by omega, h3, fun j hr hj => ?_⟩
        by_cases hjm : j < mid
        · exact h4 j hr hjm
        · have hle := hs.prefixAt_le mid j (by omega) (by omega)
          omega
    · rw [if_neg hlt]
      exact ⟨Nat.le_refl _, hle, fun j h1 h2 => by omega, fun j h1 h2 => by omega⟩

/-- The place found is the last one not above the value. -/
theorem lastAtMost?_spec (last value : Nat) (hlast : last < s.size) :
    match lastAtMost? s last value with
    | none => ∀ j ≤ last, value < s.prefixAt j
    | some i => i ≤ last ∧ s.prefixAt i ≤ value ∧ ∀ j, i < j → j ≤ last → value < s.prefixAt j := by
  obtain ⟨-, hhigh, hbelow, habove⟩ :=
    upperBound_spec hs value (last + 2) 0 (last + 1) (Nat.zero_le _) hlast (by omega)
  unfold lastAtMost?
  cases hb : upperBound s value (last + 2) 0 (last + 1) with
  | zero =>
    rw [hb] at habove
    exact fun j hj => habove j (Nat.zero_le _) (by omega)
  | succ i =>
    rw [hb] at hhigh hbelow habove
    exact ⟨by omega, hbelow i (Nat.zero_le _) (by omega), fun j hij hj => habove j hij (by omega)⟩

end

/-! ## Narrowing -/

/-- A candidate is the number of leading digits, unless there are none or it has more than 32
bits. -/
theorem candidate?_eq (w : List Digit) (l : Nat) :
    candidate? w l = if w.take l = [] ∨ 0xFFFFFFFF < numberOf (w.take l) then none
      else some (numberOf (w.take l)) := by
  have hvalue : valueOf (w.take l) = numberOf (w.take l) := rfl
  unfold candidate?
  dsimp only
  rw [hvalue]
  by_cases hempty : (w.take l).isEmpty = true
  · rw [if_pos hempty, if_pos (Or.inl (List.isEmpty_iff.mp hempty))]
  · have hne : w.take l ≠ [] := fun hnil => hempty (List.isEmpty_iff.mpr hnil)
    rw [if_neg hempty]
    by_cases hfits : numberOf (w.take l) < 0x100000000
    · rw [if_pos hfits, if_neg (not_or.mpr ⟨hne, by omega⟩)]
    · rw [if_neg hfits, if_pos (Or.inr (by omega))]

theorem candidate?_eq_some (w : List Digit) (l n : Nat) :
    candidate? w l = some n ↔ w.take l ≠ [] ∧ numberOf (w.take l) = n ∧ n < 0x100000000 := by
  rw [candidate?_eq]
  by_cases hskip : w.take l = [] ∨ 0xFFFFFFFF < numberOf (w.take l)
  · rw [if_pos hskip]
    constructor
    · intro h
      cases h
    · rintro ⟨hne, rfl, hlt⟩
      rcases hskip with hnil | hbig
      · exact absurd hnil hne
      · omega
  · obtain ⟨hne, hle⟩ := not_or.mp hskip
    rw [if_neg hskip, Option.some.injEq]
    exact ⟨fun h => ⟨hne, h, by omega⟩, fun h => h.2.1⟩

theorem scan_cons (s : Storage) (w : List Digit) (l : Nat) (ls : List Nat) :
    scan s w (l :: ls) = ((candidate? w l).bind (entryWith? s)).or (scan s w ls) := by
  unfold scan
  rw [List.findSome?_cons]
  cases (candidate? w l).bind (entryWith? s) <;> rfl

/-- What the narrowing keeps: the entries after `last` are above all candidates to come. -/
structure Narrowed (s : Storage) (w : List Digit) (ls : List Nat) (last : Nat) : Prop where
  descending : ls.Pairwise (· > ·)
  last_lt : last < s.size
  above : ∀ i, last < i → i < s.size → ∀ l ∈ ls, numberOf (w.take l) < s.prefixAt i

namespace Narrowed

variable {s : Storage} {w : List Digit} {l : Nat} {ls : List Nat} {last : Nat}
  (h : Narrowed s w (l :: ls) last)

include h

/-- A shorter candidate is not above a longer one. -/
theorem candidate_le (l' : Nat) (hl' : l' ∈ l :: ls) :
    numberOf (w.take l') ≤ numberOf (w.take l) := by
  rcases List.mem_cons.mp hl' with rfl | hl'
  · exact Nat.le_refl _
  · have hlt := (List.pairwise_cons.mp h.descending).1 l' hl'
    exact numberOf_take_le w l' l (by omega)

/-- A candidate is passed, up to an entry that all after it are above. -/
theorem next (i : Nat) (hi : i < s.size)
    (hafter : ∀ j, i < j → j < s.size → numberOf (w.take l) < s.prefixAt j) :
    Narrowed s w ls i where
  descending := (List.pairwise_cons.mp h.descending).2
  last_lt := hi
  above j hij hj l' hl' := by
    have hle := h.candidate_le l' (List.mem_cons_of_mem _ hl')
    have hlt := hafter j hij hj
    omega

/-- Where all entries are above the candidate, no entry has it or a shorter one. -/
theorem miss (hnone : ∀ j ≤ last, numberOf (w.take l) < s.prefixAt j) :
    scan s w (l :: ls) = none := by
  refine List.findSome?_eq_none_iff.mpr fun l' hl' => Option.bind_eq_none_iff.mpr fun n hn => ?_
  obtain ⟨-, rfl, -⟩ := (candidate?_eq_some w l' n).mp hn
  refine entryWith?_eq_none s _ fun i hi heq => ?_
  have hle := h.candidate_le l' hl'
  by_cases hil : i ≤ last
  · have hlt := hnone i hil
    omega
  · have hlt := h.above i (by omega) hi l' hl'
    omega

end Narrowed

/-- Narrowing the range loses no entry that trying all of them would find. -/
theorem search_eq_scan (s : Storage) (hs : s.Ascends) (w : List Digit) (ls : List Nat) :
    ∀ last : Nat, Narrowed s w ls last → search s w ls last = scan s w ls := by
  induction ls with
  | nil => exact fun _ _ => rfl
  | cons l ls ih =>
    intro last h
    have hlast := h.last_lt
    rw [search, scan_cons]
    cases hc : candidate? w l with
    | none =>
      exact ih last (h.next last hlast fun j hj hlt =>
        h.above j hj hlt l (List.mem_cons_self ..))
    | some n =>
      obtain ⟨-, rfl, -⟩ := (candidate?_eq_some w l n).mp hc
      have hfound := lastAtMost?_spec hs last (numberOf (w.take l)) hlast
      dsimp only
      rw [Option.bind_some]
      cases hi : lastAtMost? s last (numberOf (w.take l)) with
      | none =>
        rw [hi] at hfound
        have hmiss := h.miss hfound
        rw [scan_cons, hc] at hmiss
        exact hmiss.symm
      | some i =>
        rw [hi] at hfound
        obtain ⟨hil, hile, hgt⟩ := hfound
        -- up to `last` by the binary search, behind it since longer candidates were below too
        have hafter : ∀ j, i < j → j < s.size → numberOf (w.take l) < s.prefixAt j := by
          intro j hij hj
          by_cases hjl : j ≤ last
          · exact hgt j hij hjl
          · exact h.above j (by omega) hj l (List.mem_cons_self ..)
        dsimp only
        by_cases heq : s.prefixAt i = numberOf (w.take l)
        · rw [if_pos heq, ← heq, hs.entryWith?_prefixAt i (by omega)]
          rfl
        · rw [if_neg heq, entryWith?_eq_none s _ fun j hj hjn => ?_]
          · exact ih i (h.next i (by omega) hafter)
          · rcases Nat.lt_trichotomy j i with hji | rfl | hij
            · have hlt := hs.prefixAt_lt j i hji (by omega)
              omega
            · exact heq hjn
            · have hlt := hafter j hij hj
              omega

/-- A map is searched as if every entry were tried for each length. -/
theorem lookupDigits_eq_scan (m : PrefixMap) (hs : m.storage.Ascends)
    (hlengths : m.storage.lengths.Pairwise (· < ·)) (digits : String) :
    m.lookupDigits digits =
      (plainDigits? digits).bind fun w => scan m.storage w m.storage.lengths.reverse := by
  unfold lookupDigits
  cases plainDigits? digits with
  | none => rfl
  | some w =>
    dsimp only
    rw [Option.bind_some]
    cases hsize : m.size with
    | zero =>
      refine (List.findSome?_eq_none_iff.mpr fun l _ => Option.bind_eq_none_iff.mpr fun n _ => ?_).symm
      refine entryWith?_eq_none m.storage n fun i hi => ?_
      exact absurd (hsize ▸ hi : i < 0) (Nat.not_lt_zero i)
    | succ n =>
      have hlast : n < m.storage.size := Nat.lt_of_succ_le (Nat.le_of_eq hsize.symm)
      have hend : m.storage.size = n + 1 := hsize
      exact search_eq_scan m.storage hs w _ n
        ⟨List.pairwise_reverse.mpr hlengths, hlast, fun i hi hlt => by omega⟩

/-! ## The longest prefix -/

/-- What the scan keeps: prefixes that lead the digits have a length still to be tried. -/
structure Searching (t : PrefixTable) (w : List Digit) (ls : List Nat) : Prop where
  descending : ls.Pairwise (· > ·)
  pos : ∀ l ∈ ls, 0 < l
  left : ∀ k ∈ t.keys, Leads k w → prefixLength k ∈ ls

namespace Searching

variable {t : PrefixTable} {w : List Digit} {l : Nat} {ls : List Nat}
  (h : Searching t w (l :: ls))

include h

/-- A candidate that is no prefix is passed. -/
theorem next (hkey : numberOf (w.take l) ∉ t.keys) : Searching t w ls where
  descending := (List.pairwise_cons.mp h.descending).2
  pos l' hl' := h.pos l' (List.mem_cons_of_mem _ hl')
  left k hk hlead := by
    rcases List.mem_cons.mp (h.left k hk hlead) with heq | hmem
    · have hk' := hlead.2
      rw [heq] at hk'
      exact absurd (hk' ▸ hk) hkey
    · exact hmem

/-- A candidate that is a prefix is the longest. -/
theorem hit (hne : w ≠ []) (h0 : w.head? ≠ some 0) (v : String)
    (hv : t.get? (numberOf (w.take l)) = some v) : LongestLeads t w (some v) := by
  have hpos := h.pos l (List.mem_cons_self ..)
  refine ⟨_, hv, leads_take w hne h0 l hpos, ?_⟩
  intro j hj hlead
  have hlen := hlead.1
  rw [prefixLength_take w hne h0 l hpos]
  rcases List.mem_cons.mp (h.left j hj hlead) with hjl | hmem
  · omega
  · have hlt := (List.pairwise_cons.mp h.descending).1 _ hmem
    omega

end Searching

theorem scan_longest (s : Storage) (t : PrefixTable) (hs : s.Holds t)
    (hmax : ∀ k ∈ t.keys, k < 0x100000000) (w : List Digit) (hne : w ≠ [])
    (h0 : w.head? ≠ some 0) (ls : List Nat) (h : Searching t w ls) :
    LongestLeads t w (scan s w ls) := by
  induction ls with
  | nil =>
    intro k hk hlead
    cases h.left k hk hlead
  | cons l ls ih =>
    have hne' : w.take l ≠ [] := by
      rw [ne_eq, List.take_eq_nil_iff, not_or]
      exact ⟨Nat.ne_of_gt (h.pos l (List.mem_cons_self ..)), hne⟩
    rw [scan_cons]
    cases hfound : (candidate? w l).bind (entryWith? s) with
    | some v =>
      obtain ⟨n, hn, hv⟩ := Option.bind_eq_some_iff.mp hfound
      obtain ⟨-, rfl, -⟩ := (candidate?_eq_some w l n).mp hn
      exact h.hit hne h0 v (hs.entryWith?_eq _ ▸ hv)
    | none =>
      refine ih (h.next fun hk => ?_)
      obtain ⟨v, hv⟩ := (t.mem_keys _).mp hk
      have hcandidate := (candidate?_eq_some w l _).mpr ⟨hne', rfl, hmax _ hk⟩
      have hentry := Option.bind_eq_none_iff.mp hfound _ hcandidate
      rw [hs.entryWith?_eq, hv] at hentry
      cases hentry

end NumberPlan
