import NumberPlan.Prefixes.ModifiedUtf8

/-!
# Modified UTF-8 is read back

    decodeText? (encodeText s) = some s                       (decodeText?_encodeText)
    encodeText s = encodeText s' → s = s'                     (encodeText_injective)
    0 ∉ encodeText s                                          (zero_notMem_encodeText)

A text may be read from other bytes than are written of it.  No more are written than were read,
but for the byte zero, which is written as two:

    decodeText? bs = some s → (encodeText s).length ≤ bs.length + s.toList.count '\x00'
                                                              (length_encodeText_le)
-/

namespace NumberPlan

/-! ## Bytes of units -/

theorem continued?_of_six_bits (x : Nat) (h : x < 64) :
    continued? (UInt8.ofNat (0x80 + x)) = some x := by
  unfold continued?
  rw [UInt8.toNat_ofNat', if_pos (by omega)]
  congr 1
  omega

/-- The bytes of a unit are read as the unit. -/
theorem unitsOfBytes?_unit (u : Nat) (h : u < 0x10000) (done : List Nat) (rest : List UInt8) :
    unitsOfBytes? done (bytesOfUnit u ++ rest) = unitsOfBytes? (u :: done) rest := by
  unfold bytesOfUnit
  by_cases h1 : 1 ≤ u ∧ u < 0x80
  · rw [if_pos h1, List.singleton_append, unitsOfBytes?.eq_def]
    dsimp only
    rw [UInt8.toNat_ofNat', Nat.mod_eq_of_lt (by omega), if_pos h1.2]
  · rw [if_neg h1]
    by_cases h2 : u < 0x800
    · have hlead : (UInt8.ofNat (0xC0 + u / 64)).toNat = 0xC0 + u / 64 := by
        rw [UInt8.toNat_ofNat']
        omega
      rw [if_pos h2, List.cons_append, List.singleton_append, unitsOfBytes?.eq_def]
      dsimp only
      rw [hlead, if_neg (by omega), if_pos (by omega),
        continued?_of_six_bits _ (Nat.mod_lt u (by decide))]
      dsimp only
      congr 2
      omega
    · have hlead : (UInt8.ofNat (0xE0 + u / 4096)).toNat = 0xE0 + u / 4096 := by
        rw [UInt8.toNat_ofNat']
        omega
      rw [if_neg h2, List.cons_append, List.cons_append, List.singleton_append,
        unitsOfBytes?.eq_def]
      dsimp only
      rw [hlead, if_neg (by omega), if_neg (by omega), if_pos (by omega),
        continued?_of_six_bits _ (Nat.mod_lt _ (by decide)),
        continued?_of_six_bits _ (Nat.mod_lt _ (by decide))]
      dsimp only
      congr 2
      omega

theorem unitsOfBytes?_units (us : List Nat) (h : ∀ u ∈ us, u < 0x10000) : ∀ done,
    unitsOfBytes? done (us.flatMap bytesOfUnit) = some (done.reverse ++ us) := by
  induction us with
  | nil =>
    intro done
    rw [List.append_nil]
    rfl
  | cons u us ih =>
    intro done
    rw [List.flatMap_cons, unitsOfBytes?_unit u (h u (List.mem_cons_self ..)),
      ih fun v hv => h v (List.mem_cons_of_mem _ hv), List.reverse_cons, List.append_assoc]
    rfl

/-! ## Units of characters -/

theorem charOf?_toNat (c : Char) : charOf? c.toNat = some c := by
  have hvalid : c.toNat.isValidChar := c.valid
  unfold charOf?
  rw [if_pos hvalid, Char.ofNat_toNat]

/-- A character is below the surrogates or above them, and at most 0x10FFFF. -/
theorem toNat_bounds (c : Char) :
    c.toNat < 0xD800 ∨ 0xDFFF < c.toNat ∧ c.toNat < 0x110000 := c.valid

/-- The units of a character are read as the character. -/
theorem charsOfUnits?_char (c : Char) (done : List Char) (rest : List Nat) :
    charsOfUnits? done (unitsOf c ++ rest) = charsOfUnits? (c :: done) rest := by
  have hbounds := toNat_bounds c
  unfold unitsOf
  dsimp only
  by_cases hsmall : c.toNat < 0x10000
  · rw [if_pos hsmall]
    cases rest with
    | nil =>
      have hread : charsOfUnits? done [c.toNat] =
          (charOf? c.toNat).map fun c => (c :: done).reverse := rfl
      rw [List.singleton_append, hread, charOf?_toNat]
      rfl
    | cons v us =>
      rw [List.singleton_append, charsOfUnits?, if_neg (by omega), charOf?_toNat, Option.bind_some]
  · have hcode : 0x10000 + (0xD800 + (c.toNat - 0x10000) / 0x400 - 0xD800) * 0x400
        + (0xDC00 + (c.toNat - 0x10000) % 0x400 - 0xDC00) = c.toNat := by omega
    rw [if_neg hsmall, List.cons_append, List.singleton_append, charsOfUnits?, if_pos (by omega),
      if_pos (by omega), hcode, charOf?_toNat, Option.bind_some]

theorem charsOfUnits?_chars (cs : List Char) : ∀ done,
    charsOfUnits? done (cs.flatMap unitsOf) = some (done.reverse ++ cs) := by
  induction cs with
  | nil =>
    intro done
    rw [List.append_nil]
    rfl
  | cons c cs ih =>
    intro done
    rw [List.flatMap_cons, charsOfUnits?_char, ih, List.reverse_cons, List.append_assoc]
    rfl

theorem unitsOf_lt (c : Char) : ∀ u ∈ unitsOf c, u < 0x10000 := by
  have hbounds := toNat_bounds c
  intro u hu
  unfold unitsOf at hu
  dsimp only at hu
  split at hu
  · next h =>
    rw [List.mem_singleton.mp hu]
    exact h
  · rcases List.mem_cons.mp hu with rfl | hu
    · omega
    · rw [List.mem_singleton.mp hu]
      omega

theorem units_lt (s : String) : ∀ u ∈ s.toList.flatMap unitsOf, u < 0x10000 := by
  intro u hu
  obtain ⟨c, -, hc⟩ := List.mem_flatMap.mp hu
  exact unitsOf_lt c u hc

/-- A text is read back from its bytes. -/
theorem decodeText?_encodeText (s : String) : decodeText? (encodeText s) = some s := by
  unfold decodeText? encodeText
  rw [unitsOfBytes?_units _ (units_lt s), List.reverse_nil, List.nil_append, Option.bind_some,
    charsOfUnits?_chars, List.reverse_nil, List.nil_append, Option.map_some, String.ofList_toList]

theorem encodeText_injective (s s' : String) (h : encodeText s = encodeText s') : s = s' := by
  have hread := decodeText?_encodeText s
  rw [h, decodeText?_encodeText] at hread
  exact (Option.some.inj hread).symm

/-! ## No byte is zero -/

theorem ofNat_ne_zero (n : Nat) (hpos : 0 < n) (hlt : n < 0x100) : UInt8.ofNat n ≠ 0 := by
  intro h
  have hvalue := congrArg UInt8.toNat h
  rw [UInt8.toNat_ofNat', Nat.mod_eq_of_lt hlt] at hvalue
  exact Nat.ne_of_gt hpos hvalue

/-- One byte is the unit itself, which is not 0, and each of several has its highest bit set. -/
theorem zero_notMem_bytesOfUnit (u : Nat) (h : u < 0x10000) : 0 ∉ bytesOfUnit u := by
  unfold bytesOfUnit
  by_cases h1 : 1 ≤ u ∧ u < 0x80
  · rw [if_pos h1, List.mem_singleton]
    exact (ofNat_ne_zero u h1.1 (by omega)).symm
  · rw [if_neg h1]
    by_cases h2 : u < 0x800
    · rw [if_pos h2, List.mem_cons, List.mem_singleton, not_or]
      exact ⟨(ofNat_ne_zero _ (by omega) (by omega)).symm,
        (ofNat_ne_zero _ (by omega) (by omega)).symm⟩
    · rw [if_neg h2, List.mem_cons, List.mem_cons, List.mem_singleton, not_or, not_or]
      exact ⟨(ofNat_ne_zero _ (by omega) (by omega)).symm,
        (ofNat_ne_zero _ (by omega) (by omega)).symm, (ofNat_ne_zero _ (by omega) (by omega)).symm⟩

theorem zero_notMem_encodeText (s : String) : 0 ∉ encodeText s := by
  intro hmem
  obtain ⟨u, hu, hzero⟩ := List.mem_flatMap.mp hmem
  exact zero_notMem_bytesOfUnit u (units_lt s u hu) hzero

/-! ## Forms that are read and not written -/

theorem length_bytesOfUnit (u : Nat) : (bytesOfUnit u).length ≤ 3 ∧
    (u < 0x800 → (bytesOfUnit u).length ≤ 2) ∧
    (u < 0x80 → (bytesOfUnit u).length = 1 + [u].count 0) := by
  unfold bytesOfUnit
  by_cases h1 : 1 ≤ u ∧ u < 0x80
  · rw [if_pos h1, List.count_singleton, if_neg (by simp; omega)]
    exact ⟨Nat.le_add_left 1 2, fun _ => Nat.le_add_left 1 1, fun _ => rfl⟩
  · rw [if_neg h1]
    by_cases h2 : u < 0x800
    · rw [if_pos h2]
      refine ⟨Nat.le_succ 2, fun _ => Nat.le_refl 2, fun h => ?_⟩
      obtain rfl : u = 0 := by omega
      rfl
    · rw [if_neg h2]
      exact ⟨Nat.le_refl 3, fun h => absurd h h2, fun h => by omega⟩

/-- Units of 16 bits that are written in at most `n` bytes, and one more for each unit 0. -/
def UnitsWithin (n : Nat) (us : List Nat) : Prop :=
  (∀ u ∈ us, u < 0x10000) ∧ (us.flatMap bytesOfUnit).length ≤ n + us.count 0

theorem UnitsWithin.cons {n : Nat} {us : List Nat} (h : UnitsWithin n us) (u k : Nat)
    (hu : u < 0x10000) (hk : (bytesOfUnit u).length ≤ k + [u].count 0) :
    UnitsWithin (n + k) (u :: us) := by
  obtain ⟨hlt, hlen⟩ := h
  refine ⟨fun v hv => ?_, ?_⟩
  · rcases List.mem_cons.mp hv with rfl | hv
    · exact hu
    · exact hlt v hv
  · have hcount : (u :: us).count 0 = [u].count 0 + us.count 0 := by
      rw [← List.count_append]
      rfl
    rw [List.flatMap_cons, List.length_append, hcount]
    omega

theorem continued?_lt (b : UInt8) (x : Nat) (h : continued? b = some x) : x < 64 := by
  unfold continued? at h
  split at h
  · obtain rfl := Option.some.inj h
    exact Nat.mod_lt _ (by decide)
  · cases h

/-- No form of a unit that is read is shorter than what is written, but for the byte zero. -/
theorem unitsWithin_of_read (done : List Nat) (bs : List UInt8) (us : List Nat)
    (h : unitsOfBytes? done bs = some us) :
    ∃ vs, us = done.reverse ++ vs ∧ UnitsWithin bs.length vs := by
  fun_induction unitsOfBytes? done bs with
  | case1 done =>
    obtain rfl := Option.some.inj h
    exact ⟨[], (List.append_nil _).symm, fun v hv => absurd hv List.not_mem_nil, Nat.le_refl 0⟩
  | case2 done a bs n hn ih =>
    obtain ⟨vs, rfl, hvs⟩ := ih h
    refine ⟨n :: vs, by rw [List.reverse_cons, List.append_assoc]; rfl, ?_⟩
    exact hvs.cons n 1 (by omega) (Nat.le_of_eq ((length_bytesOfUnit n).2.2 hn))
  | case3 done a n hsmall hn b bs x hx ih =>
    obtain ⟨vs, rfl, hvs⟩ := ih h
    have hlt := continued?_lt b x hx
    refine ⟨(n % 32 * 64 + x) :: vs, by rw [List.reverse_cons, List.append_assoc]; rfl, ?_⟩
    exact hvs.cons _ 2 (by omega)
      (Nat.le_trans ((length_bytesOfUnit _).2.1 (by omega)) (Nat.le_add_right 2 _))
  | case6 done a n hsmall hmiddle hn b c bs x y hy hx ih =>
    obtain ⟨vs, rfl, hvs⟩ := ih h
    have hltx := continued?_lt b x hx
    have hlty := continued?_lt c y hy
    refine ⟨(n % 16 * 4096 + x * 64 + y) :: vs,
      by rw [List.reverse_cons, List.append_assoc]; rfl, ?_⟩
    exact hvs.cons _ 3 (by omega)
      (Nat.le_trans (length_bytesOfUnit _).1 (Nat.le_add_right 3 _))
  | case4 => cases h
  | case5 => cases h
  | case7 => cases h
  | case8 => cases h
  | case9 => cases h

theorem toNat_of_charOf? (n : Nat) (c : Char) (h : charOf? n = some c) : c.toNat = n := by
  unfold charOf? at h
  split at h
  · next hvalid =>
    obtain rfl := Option.some.inj h
    rw [Char.ofNat, dif_pos hvalid]
    rfl
  · cases h

theorem unitsOf_of_charOf? (u : Nat) (c : Char) (h : charOf? u = some c) (hu : u < 0x10000) :
    unitsOf c = [u] := by
  have hcode := toNat_of_charOf? u c h
  unfold unitsOf
  dsimp only
  rw [hcode, if_pos hu]

/-- Units that make up characters are the units of these characters. -/
theorem units_of_charsOfUnits? (done : List Char) (us : List Nat) (hus : ∀ u ∈ us, u < 0x10000)
    (cs : List Char) (h : charsOfUnits? done us = some cs) :
    ∃ ds, cs = done.reverse ++ ds ∧ ds.flatMap unitsOf = us := by
  fun_induction charsOfUnits? done us with
  | case1 done =>
    obtain rfl := Option.some.inj h
    exact ⟨[], (List.append_nil _).symm, rfl⟩
  | case2 done u =>
    obtain ⟨c, hc, rfl⟩ := Option.map_eq_some_iff.mp h
    refine ⟨[c], List.reverse_cons, ?_⟩
    rw [List.flatMap_singleton, unitsOf_of_charOf? u c hc (hus u (List.mem_singleton_self u))]
  | case3 done u v us hhigh hlow ih =>
    obtain ⟨c, hc, h⟩ := Option.bind_eq_some_iff.mp h
    obtain ⟨ds, rfl, rfl⟩ := ih c (fun w hw => hus w (by simp [hw])) h
    refine ⟨c :: ds, by rw [List.reverse_cons, List.append_assoc]; rfl, ?_⟩
    have hcode := toNat_of_charOf? _ c hc
    have hfirst : 0xD800 + (c.toNat - 0x10000) / 0x400 = u := by omega
    have hsecond : 0xDC00 + (c.toNat - 0x10000) % 0x400 = v := by omega
    have hpair : unitsOf c = [u, v] := by
      unfold unitsOf
      dsimp only
      rw [if_neg (by omega), hfirst, hsecond]
    rw [List.flatMap_cons, hpair]
    rfl
  | case4 => cases h
  | case5 done u v us _ ih =>
    obtain ⟨c, hc, h⟩ := Option.bind_eq_some_iff.mp h
    obtain ⟨ds, rfl, hds⟩ := ih c (fun w hw => hus w (List.mem_cons_of_mem u hw)) h
    refine ⟨c :: ds, by rw [List.reverse_cons, List.append_assoc]; rfl, ?_⟩
    rw [List.flatMap_cons, hds, unitsOf_of_charOf? u c hc (hus u (List.mem_cons_self ..))]
    rfl

/-- The unit 0 stands for NUL only. -/
theorem count_zero_units (cs : List Char) :
    (cs.flatMap unitsOf).count 0 = cs.count '\x00' := by
  induction cs with
  | nil => rfl
  | cons c cs ih =>
    have hunits : (unitsOf c).count 0 = [c].count '\x00' := by
      have hnul : c = '\x00' ↔ c.toNat = 0 :=
        ⟨fun h => h ▸ rfl, fun h => Char.ext (UInt32.toNat.inj h)⟩
      unfold unitsOf
      dsimp only
      split
      · rw [List.count_singleton, List.count_singleton]
        simp only [beq_iff_eq, hnul]
      · rw [List.count_singleton, if_neg (by rw [beq_iff_eq, hnul]; omega)]
        simp
    have hcount : (c :: cs).count '\x00' = [c].count '\x00' + cs.count '\x00' := by
      rw [← List.count_append]
      rfl
    rw [List.flatMap_cons, List.count_append, hunits, ih, hcount]

/-- What is written of a text is no longer than what it was read from, with one more byte for each
NUL. -/
theorem length_encodeText_le (bs : List UInt8) (s : String) (h : decodeText? bs = some s) :
    (encodeText s).length ≤ bs.length + s.toList.count '\x00' := by
  obtain ⟨cs, hcs, rfl⟩ := Option.map_eq_some_iff.mp h
  obtain ⟨us, hus, hcs⟩ := Option.bind_eq_some_iff.mp hcs
  obtain ⟨us, rfl, hlt, hlen⟩ := unitsWithin_of_read [] bs us hus
  obtain ⟨cs, rfl, rfl⟩ := units_of_charsOfUnits? [] us hlt cs hcs
  rw [count_zero_units] at hlen
  rw [encodeText, String.toList_ofList]
  exact hlen

end NumberPlan
