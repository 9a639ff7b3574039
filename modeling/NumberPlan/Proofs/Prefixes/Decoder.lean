import NumberPlan.Prefixes.Decoder
import NumberPlan.Proofs.Prefixes.ModifiedUtf8
import NumberPlan.Proofs.Wire.BigEndian

/-!
# Values of prefix files are read back

A decoder takes a value from some bytes if it does so whatever comes after them.  Two in a row
take both values (`Takes.andThen`), so a file is read back one field at a time:

    int32.Takes (writeInt32 i) i              for i in range           (takes_int32)
    writeText s = .ok bs → text.Takes bs s                             (takes_text)
    writeEach f as = .ok bs → (manyFrom …).Takes bs as                 (takes_manyFrom)

A count of 2 ^ 31 is written as a negative one, which is refused (`refuses_count`).

What a decoder can give at all is told by its steps too (`Gives.andThen`, `Gives.manyFrom`).
-/

namespace NumberPlan

theorem map_eq_ok {ε α β : Type} (f : α → β) (x : Except ε α) (b : β) (h : x.map f = .ok b) :
    ∃ a, x = .ok a ∧ f a = b := by
  cases x with
  | error e => cases h
  | ok a => exact ⟨a, rfl, Except.ok.inj h⟩

namespace Decoder

variable {α β : Type}

/-- The decoder reads the value from the bytes and leaves what follows them. -/
def Takes (d : Decoder α) (bs : List UInt8) (a : α) : Prop := ∀ rest, d (bs ++ rest) = .ok (a, rest)

/-- The decoder fails on what starts with the bytes. -/
def Refuses (d : Decoder α) (bs : List UInt8) (e : PrefixError) : Prop :=
  ∀ rest, d (bs ++ rest) = .error e

/-! ## One decoder after another -/

theorem takes_give (a : α) : (give a).Takes [] a := fun _ => rfl

theorem Takes.andThen {d : Decoder α} {f : α → Decoder β} {as bs : List UInt8} {a : α} {b : β}
    (h : d.Takes as a) (h' : (f a).Takes bs b) : (d.andThen f).Takes (as ++ bs) b := by
  intro rest
  rw [List.append_assoc, Decoder.andThen, h]
  exact h' rest

theorem Takes.andThen_give {d : Decoder α} {f : α → β} {bs : List UInt8} {a : α}
    (h : d.Takes bs a) : (d.andThen fun a => give (f a)).Takes bs (f a) := by
  intro rest
  rw [Decoder.andThen, h]
  rfl

theorem Takes.andThen_refuses {d : Decoder α} {f : α → Decoder β} {as bs : List UInt8} {a : α}
    {e : PrefixError} (h : d.Takes as a) (h' : (f a).Refuses bs e) :
    (d.andThen f).Refuses (as ++ bs) e := by
  intro rest
  rw [List.append_assoc, Decoder.andThen, h]
  exact h' rest

theorem Refuses.andThen {d : Decoder α} {f : α → Decoder β} {as : List UInt8} {e : PrefixError}
    (h : d.Refuses as e) (bs : List UInt8) : (d.andThen f).Refuses (as ++ bs) e := by
  intro rest
  rw [List.append_assoc, Decoder.andThen, h]

/-! ## Words -/

theorem takes_bytes (bs : List UInt8) : (bytes bs.length).Takes bs bs := by
  intro rest
  unfold bytes
  rw [List.splitAt_eq, List.take_left, List.drop_left]
  exact if_pos rfl

theorem takes_bigEndian (n k : Nat) (h : n < 256 ^ k) :
    ((bytes k).andThen fun bs => give (ofBigEndian bs)).Takes (bigEndian n k) n := by
  have htake := takes_bytes (bigEndian n k)
  rw [length_bigEndian] at htake
  have hword := htake.andThen_give (f := ofBigEndian)
  rwa [ofBigEndian_bigEndian_of_lt n k h] at hword

theorem takes_word16 (n : Nat) (h : n < 0x10000) : word16.Takes (writeWord16 n) n :=
  takes_bigEndian n 2 h

theorem takes_bool (b : Bool) : bool.Takes (writeBool b) b := by
  have hbyte := (takes_bytes (writeBool b)).andThen_give (f := fun bs => ofBigEndian bs != 0)
  have hb : (ofBigEndian (writeBool b) != 0) = b := by cases b <;> rfl
  rwa [hb] at hbyte

/-- The sign of a word is its highest bit. -/
theorem takes_int32 (i : Int) (hlow : -0x80000000 ≤ i) (hhigh : i < 0x80000000) :
    int32.Takes (writeInt32 i) i := by
  have hword := (takes_bigEndian (i % 0x100000000).toNat 4 (by omega)).andThen_give
    (f := fun n : Nat => if n < 0x80000000 then (n : Int) else (n : Int) - 0x100000000)
  have hsign : (if (i % 0x100000000).toNat < 0x80000000 then ((i % 0x100000000).toNat : Int)
      else ((i % 0x100000000).toNat : Int) - 0x100000000) = i := by
    split <;> omega
  rwa [hsign] at hword

theorem takes_count (what : Counted) (n : Nat) (h : n < 0x80000000) :
    (count what).Takes (writeCount n) n := by
  intro rest
  rw [count, Decoder.andThen, writeCount, takes_int32 n (by omega) (by omega)]
  dsimp only
  rw [if_neg (by omega)]
  rfl

theorem refuses_count (what : Counted) :
    (count what).Refuses (writeCount 0x80000000) (.negativeCount what (-0x80000000)) := by
  intro rest
  have hwritten : writeCount 0x80000000 = writeInt32 (-0x80000000) := rfl
  rw [count, Decoder.andThen, hwritten, takes_int32 _ (by omega) (by omega)]
  rfl

/-! ## Texts -/

theorem writeText_eq_ok (s : String) (bs : List UInt8) : writeText s = .ok bs ↔
    (encodeText s).length < 0x10000 ∧
      bs = writeWord16 (encodeText s).length ++ encodeText s := by
  unfold writeText
  dsimp only
  by_cases hlen : (encodeText s).length < 0x10000
  · rw [if_pos hlen, Except.ok.injEq]
    exact ⟨fun h => ⟨hlen, h.symm⟩, fun h => h.2.symm⟩
  · rw [if_neg hlen]
    constructor
    · intro h
      cases h
    · exact fun h => absurd h.1 hlen

theorem takes_text (s : String) (bs : List UInt8) (h : writeText s = .ok bs) : text.Takes bs s := by
  obtain ⟨hlen, rfl⟩ := (writeText_eq_ok s bs).mp h
  refine (takes_word16 _ hlen).andThen fun rest => ?_
  rw [Decoder.andThen, takes_bytes]
  dsimp only
  rw [decodeText?_encodeText]
  rfl

/-- A text is written if 16 bits can tell its length, and is then read back whatever follows it.
No byte of it is zero, and no other text has the same bytes. -/
theorem text_writeText (s : String) :
    ((∃ bs, writeText s = .ok bs) ↔ (encodeText s).length ≤ 65535) ∧
      (∀ bs, writeText s = .ok bs → bs = writeWord16 (encodeText s).length ++ encodeText s ∧
        ∀ rest, text (bs ++ rest) = .ok (s, rest)) ∧
      0 ∉ encodeText s ∧ ∀ s', encodeText s' = encodeText s → s' = s := by
  refine ⟨⟨?_, ?_⟩, ?_, zero_notMem_encodeText s, fun s' => encodeText_injective s' s⟩
  · rintro ⟨bs, hbs⟩
    exact Nat.le_of_lt_succ ((writeText_eq_ok s bs).mp hbs).1
  · intro hlen
    exact ⟨_, (writeText_eq_ok s _).mpr ⟨Nat.lt_succ_of_le hlen, rfl⟩⟩
  · intro bs hbs
    exact ⟨((writeText_eq_ok s bs).mp hbs).2, takes_text s bs hbs⟩

/-- The unit 0, units of each number of bytes at their bounds, and a pair of surrogates. -/
theorem text_writeText_bounds :
    ∃ bs, writeText "\x00\x7F\u0080\u07FF\u0800\uFFFF😀" = .ok bs ∧
      text (bs ++ [0xC0, 0x80]) = .ok ("\x00\x7F\u0080\u07FF\u0800\uFFFF😀", [0xC0, 0x80]) := by
  obtain ⟨hwritten, hread, -⟩ := text_writeText "\x00\x7F\u0080\u07FF\u0800\uFFFF😀"
  obtain ⟨bs, hbs⟩ := hwritten.mpr (by decide)
  exact ⟨bs, hbs, (hread bs hbs).2 _⟩

end Decoder

/-! ## Many values -/

theorem writeEach_cons {α : Type} (f : α → Except PrefixError (List UInt8)) (a : α) (as : List α)
    (bs : List UInt8) (h : writeEach f (a :: as) = .ok bs) :
    ∃ cs rest, f a = .ok cs ∧ writeEach f as = .ok rest ∧ bs = cs ++ rest := by
  rw [writeEach] at h
  split at h
  · cases h
  · next cs hcs =>
    split at h
    · cases h
    · next rest hrest => exact ⟨cs, rest, hcs, hrest, (Except.ok.inj h).symm⟩

/-- Elements that can each be written can be written in order. -/
theorem writeEach_of_ok {α : Type} (f : α → Except PrefixError (List UInt8)) (as : List α)
    (h : ∀ a ∈ as, ∃ bs, f a = .ok bs) : ∃ bs, writeEach f as = .ok bs := by
  induction as with
  | nil => exact ⟨[], rfl⟩
  | cons a as ih =>
    obtain ⟨bs, hbs⟩ := h a (List.mem_cons_self ..)
    obtain ⟨rest, hrest⟩ := ih fun b hb => h b (List.mem_cons_of_mem a hb)
    exact ⟨bs ++ rest, by rw [writeEach, hbs, hrest]⟩

theorem ok_of_writeEach {α : Type} (f : α → Except PrefixError (List UInt8)) (as : List α)
    (bs : List UInt8) (h : writeEach f as = .ok bs) : ∀ a ∈ as, ∃ cs, f a = .ok cs := by
  induction as generalizing bs with
  | nil =>
    intro a ha
    cases ha
  | cons b as ih =>
    obtain ⟨cs, rest, hcs, hrest, -⟩ := writeEach_cons f b as bs h
    intro a ha
    rcases List.mem_cons.mp ha with rfl | ha
    · exact ⟨cs, hcs⟩
    · exact ih rest hrest a ha

theorem writeEach_ok {α : Type} (f : α → List UInt8) (as : List α) :
    writeEach (fun a => .ok (f a)) as = .ok (as.flatMap f) := by
  induction as with
  | nil => rfl
  | cons a as ih =>
    rw [writeEach, ih]
    rfl

namespace Decoder

variable {α : Type}

/-- Values are read back if each is, after the values before it. -/
theorem takes_manyFrom (d : Nat → List α → Decoder α) (f : α → Except PrefixError (List UInt8))
    (as : List α) : ∀ (i : Nat) (done : List α) (bs : List UInt8), writeEach f as = .ok bs →
    (∀ before a after, as = before ++ a :: after → ∀ cs, f a = .ok cs →
      (d (i + before.length) (before.reverse ++ done)).Takes cs a) →
    (manyFrom d i done as.length).Takes bs (done.reverse ++ as) := by
  induction as with
  | nil =>
    intro i done bs hbs _
    obtain rfl := Except.ok.inj hbs
    rw [List.append_nil]
    exact takes_give _
  | cons a as ih =>
    intro i done bs hbs hd
    obtain ⟨cs, rest, hcs, hrest, rfl⟩ := writeEach_cons f a as bs hbs
    have hnext := ih (i + 1) (a :: done) rest hrest fun before b after hsplit => by
      have := hd (a :: before) b after (by rw [hsplit]; rfl)
      rw [List.reverse_cons, List.append_assoc, List.length_cons,
        Nat.add_comm before.length, ← Nat.add_assoc] at this
      exact this
    rw [List.reverse_cons, List.append_assoc] at hnext
    exact (hd [] a as rfl cs hcs).andThen hnext

/-- Values that are read back whatever is before them. -/
theorem takes_many (d : Decoder α) (f : α → Except PrefixError (List UInt8)) (as : List α)
    (bs : List UInt8) (hbs : writeEach f as = .ok bs)
    (hd : ∀ a ∈ as, ∀ cs, f a = .ok cs → d.Takes cs a) : (many d as.length).Takes bs as :=
  takes_manyFrom _ f as 0 [] bs hbs fun before a after hsplit =>
    hd a (by rw [hsplit]; exact List.mem_append_right _ (List.mem_cons_self ..))

/-! ## What is given -/

variable {β : Type}

/-- The decoder gives the value for some input. -/
def Gives (d : Decoder α) (a : α) : Prop := ∃ input rest, d input = .ok (a, rest)

theorem Gives.andThen {d : Decoder α} {f : α → Decoder β} {b : β} (h : (d.andThen f).Gives b) :
    ∃ a, d.Gives a ∧ (f a).Gives b := by
  obtain ⟨input, rest, h⟩ := h
  unfold Decoder.andThen at h
  split at h
  · cases h
  · next a middle ha => exact ⟨a, ⟨input, middle, ha⟩, middle, rest, h⟩

theorem Gives.give {a b : α} (h : (give a).Gives b) : b = a := by
  obtain ⟨input, rest, h⟩ := h
  exact (Prod.mk.inj (Except.ok.inj h)).1.symm

theorem not_gives_fail (e : PrefixError) (a : α) : ¬ (fail e).Gives a := by
  rintro ⟨input, rest, h⟩
  cases h

/-- A decoder that checks what it gives. -/
theorem Gives.of_ite {p : Prop} [Decidable p] {e : PrefixError} {d : Decoder α} {a : α}
    (h : (if p then fail e else d).Gives a) : ¬ p ∧ d.Gives a := by
  by_cases hp : p
  · rw [if_pos hp] at h
    exact absurd h (not_gives_fail e a)
  · rw [if_neg hp] at h
    exact ⟨hp, h⟩

theorem Gives.bytes {n : Nat} {bs : List UInt8} (h : (bytes n).Gives bs) : bs.length = n := by
  obtain ⟨input, rest, h⟩ := h
  unfold Decoder.bytes at h
  dsimp only at h
  split at h
  · next hlen =>
    obtain ⟨rfl, -⟩ := Prod.mk.inj (Except.ok.inj h)
    exact hlen
  · cases h

theorem Gives.bigEndian {n k : Nat}
    (h : ((Decoder.bytes k).andThen fun bs => Decoder.give (ofBigEndian bs)).Gives n) :
    n < 256 ^ k := by
  obtain ⟨bs, hbs, hn⟩ := h.andThen
  rw [hn.give, ← hbs.bytes]
  exact ofBigEndian_lt bs

theorem Gives.count {what : Counted} {n : Nat} (h : (count what).Gives n) : n < 0x80000000 := by
  obtain ⟨i, hi, hn⟩ := h.andThen
  obtain ⟨-, hn⟩ := hn.of_ite
  obtain ⟨w, hw, hi⟩ := hi.andThen
  have hword : w < 0x100000000 := hw.bigEndian
  have hsign := hi.give
  rw [hn.give]
  split at hsign <;> omega

/-- Each of many values is given after those before it. -/
theorem Gives.manyFrom {d : Nat → List α → Decoder α} {n : Nat} : ∀ {i : Nat} {done as : List α},
    (manyFrom d i done n).Gives as → ∃ bs, as = done.reverse ++ bs ∧ bs.length = n ∧
      ∀ before a after, bs = before ++ a :: after →
        (d (i + before.length) (before.reverse ++ done)).Gives a := by
  induction n with
  | zero =>
    intro i done as h
    refine ⟨[], by rw [h.give, List.append_nil], rfl, fun before a after hsplit => ?_⟩
    exact absurd hsplit.symm (List.append_ne_nil_of_right_ne_nil before (List.cons_ne_nil a after))
  | succ n ih =>
    intro i done as h
    obtain ⟨b, hb, hrest⟩ := h.andThen
    obtain ⟨bs, rfl, hlen, hbs⟩ := ih hrest
    refine ⟨b :: bs, ?_, congrArg (· + 1) hlen, ?_⟩
    · rw [List.reverse_cons, List.append_assoc]
      rfl
    · intro before a after hsplit
      cases before with
      | nil =>
        obtain ⟨rfl, -⟩ := List.cons.inj hsplit
        exact hb
      | cons c before =>
        obtain ⟨rfl, htail⟩ := List.cons.inj hsplit
        have ha := hbs before a after htail
        rw [List.reverse_cons, List.append_assoc, List.length_cons, Nat.add_comm before.length,
          ← Nat.add_assoc]
        exact ha

theorem Gives.many {d : Decoder α} {n : Nat} {as : List α} (h : (many d n).Gives as) :
    as.length = n ∧ ∀ a ∈ as, d.Gives a := by
  obtain ⟨bs, rfl, hlen, hbs⟩ := h.manyFrom
  refine ⟨hlen, fun a ha => ?_⟩
  obtain ⟨before, after, hsplit⟩ := List.append_of_mem ha
  exact hbs before a after hsplit

end Decoder

end NumberPlan
