import NumberPlan.Prefixes.Map
import NumberPlan.Prefixes.Mapping
import NumberPlan.Proofs.Prefixes.Decoder

/-!
# Truncated files are detected

A decoder is exact if it looks at no bytes but those it takes its value from, and can do without
none of them (`Exact`).  Two exact decoders in a row are exact, since what the second sees after
the first has taken its bytes is again a leading part of its own bytes (`Exact.andThen`); so are
counted loops, also where each value is told those before it (`Exact.manyFrom`).  All readers of
prefix files are made of these:

    PrefixMap.read.Exact, PlainStorage.read.Exact, PooledStorage.read.Exact, Mapping.read.Exact
                                                                     (readers_exact)
-/

namespace NumberPlan

namespace Decoder

variable {α β : Type}

/-- The value is taken from some bytes at the front of the input.  Whatever follows them, it is
the same; and where the input ends inside them, that is the error. -/
def Exact (d : Decoder α) : Prop := ∀ input a rest, d input = .ok (a, rest) →
  ∃ bs, input = bs ++ rest ∧ d.Takes bs a ∧
    ∀ n < bs.length, d (bs.take n) = .error (.input .endsEarly)

/-! ## Steps -/

theorem exact_give (a : α) : (give a).Exact := by
  intro input b rest h
  obtain ⟨rfl, rfl⟩ := Prod.mk.inj (Except.ok.inj h)
  exact ⟨[], rfl, takes_give a, fun n hn => absurd hn (Nat.not_lt_zero n)⟩

theorem exact_fail (e : PrefixError) : (fail e : Decoder α).Exact := by
  intro input a rest h
  cases h

theorem exact_bytes (n : Nat) : (bytes n).Exact := by
  intro input bs rest h
  unfold bytes at h
  rw [List.splitAt_eq] at h
  dsimp only at h
  split at h
  · next hlen =>
    obtain ⟨rfl, rfl⟩ := Prod.mk.inj (Except.ok.inj h)
    have htakes := takes_bytes (input.take n)
    rw [hlen] at htakes
    refine ⟨input.take n, (List.take_append_drop n input).symm, htakes, fun k hk => ?_⟩
    rw [hlen] at hk
    unfold bytes
    rw [List.splitAt_eq]
    dsimp only
    rw [if_neg]
    rw [List.length_take, List.length_take, hlen]
    omega
  · cases h

theorem Exact.andThen {d : Decoder α} {f : α → Decoder β} (hd : d.Exact)
    (hf : ∀ a, (f a).Exact) : (d.andThen f).Exact := by
  intro input b rest h
  unfold Decoder.andThen at h
  split at h
  · cases h
  · next a middle ha =>
    obtain ⟨as, rfl, htakes, hcut⟩ := hd input a middle ha
    obtain ⟨bs, rfl, htakes', hcut'⟩ := hf a middle b rest h
    refine ⟨as ++ bs, (List.append_assoc as bs rest).symm, htakes.andThen htakes', fun n hn => ?_⟩
    rw [List.length_append] at hn
    -- the input ends inside the bytes of the first decoder, or behind them
    by_cases hfirst : n < as.length
    · rw [List.take_append_of_le_length (Nat.le_of_lt hfirst), Decoder.andThen, hcut n hfirst]
    · rw [List.take_append, List.take_of_length_le (Nat.not_lt.mp hfirst), Decoder.andThen, htakes]
      exact hcut' _ (by omega)

theorem Exact.ite {p : Prop} [Decidable p] {d d' : Decoder α} (hd : d.Exact) (hd' : d'.Exact) :
    (if p then d else d').Exact := by
  split
  · exact hd
  · exact hd'

/-- A value that is checked before it is given. -/
theorem exact_check {p : Prop} [Decidable p] (e : PrefixError) (a : α) :
    (if p then fail e else give a).Exact := (exact_fail e).ite (exact_give a)

theorem Exact.manyFrom {d : Nat → List α → Decoder α} (hd : ∀ i done, (d i done).Exact) (n : Nat) :
    ∀ (i : Nat) (done : List α), (manyFrom d i done n).Exact := by
  induction n with
  | zero => exact fun _ done => exact_give done.reverse
  | succ n ih => exact fun i done => (hd i done).andThen fun a => ih (i + 1) (a :: done)

theorem Exact.many {d : Decoder α} (hd : d.Exact) (n : Nat) : (many d n).Exact :=
  manyFrom (fun _ _ => hd) n 0 []

/-! ## Values -/

theorem exact_bool : bool.Exact := (exact_bytes 1).andThen fun _ => exact_give _

theorem exact_word16 : word16.Exact := (exact_bytes 2).andThen fun _ => exact_give _

theorem exact_word32 : word32.Exact := (exact_bytes 4).andThen fun _ => exact_give _

theorem exact_int32 : int32.Exact := exact_word32.andThen fun _ => exact_give _

theorem exact_count (what : Counted) : (count what).Exact :=
  exact_int32.andThen fun _ => exact_check _ _

theorem exact_text : text.Exact := by
  refine exact_word16.andThen fun n => (exact_bytes n).andThen fun bs => ?_
  cases decodeText? bs with
  | none => exact exact_fail _
  | some s => exact exact_give s

end Decoder

open Decoder

/-! ## Storages -/

theorem exact_readLengths : readLengths.Exact := by
  have hlength : readLength.Exact := exact_int32.andThen fun _ => exact_check _ _
  exact (exact_count _).andThen fun n => (hlength.many n).andThen fun _ => exact_give _

theorem PlainStorage.exact_readEntry (i : Nat) (done : List (Nat × String)) :
    (readEntry i done).Exact :=
  exact_int32.andThen fun _ => (exact_fail _).ite (exact_text.andThen fun _ => exact_give _)

theorem PlainStorage.exact_read : read.Exact :=
  (exact_count _).andThen fun n => (Exact.manyFrom exact_readEntry n 0 []).andThen fun _ =>
    exact_readLengths.andThen fun _ => exact_give _

theorem WordSize.exact_read (w : WordSize) : w.read.Exact := by
  cases w with
  | two => exact exact_word16
  | four => exact exact_word32

/-- Both sizes are read before either is checked. -/
theorem PooledStorage.exact_readSizes : readSizes.Exact := by
  refine exact_int32.andThen fun a => exact_int32.andThen fun b => ?_
  cases WordSize.ofInt? a with
  | none => exact exact_fail _
  | some v =>
    cases WordSize.ofInt? b with
    | none => exact exact_fail _
    | some w => exact exact_give (v, w)

theorem PooledStorage.exact_readEntry (v w : WordSize) (pool i : Nat) (done : List (Nat × Nat)) :
    (readEntry v w pool i done).Exact :=
  v.exact_read.andThen fun _ => (exact_fail _).ite (w.exact_read.andThen fun _ => exact_check _ _)

theorem PooledStorage.exact_read : read.Exact :=
  exact_readSizes.andThen fun sizes => exact_readLengths.andThen fun _ =>
    (exact_count _).andThen fun p => (exact_text.many p).andThen fun _ =>
      (exact_count _).andThen fun n =>
        (Exact.manyFrom (exact_readEntry sizes.1 sizes.2 p) n 0 []).andThen fun _ => exact_give _

/-! ## Files -/

theorem PrefixMap.exact_read : read.Exact :=
  exact_bool.andThen fun _ => (PooledStorage.exact_read.andThen fun _ => exact_give _).ite
    (PlainStorage.exact_read.andThen fun _ => exact_give _)

theorem Mapping.exact_read : read.Exact := by
  have hentry : readEntry.Exact := exact_int32.andThen fun _ => (exact_count _).andThen fun n =>
    (exact_text.many n).andThen fun _ => exact_give _
  exact (exact_count _).andThen fun n => (hentry.many n).andThen fun _ => exact_give _

/-- A file of any kind that is cut short is refused because it ends early, and what follows a file
is not looked at. -/
theorem readers_exact :
    PrefixMap.read.Exact ∧ PlainStorage.read.Exact ∧ PooledStorage.read.Exact ∧ Mapping.read.Exact :=
  ⟨PrefixMap.exact_read, PlainStorage.exact_read, PooledStorage.exact_read, Mapping.exact_read⟩

/-- A pooled map with words of both sizes and a byte behind it. -/
theorem readers_exact_pooled :
    ∃ bs m, bs.length = 34 ∧ PrefixMap.read (bs ++ [7]) = .ok (m, [7]) ∧
      ∀ n < 34, PrefixMap.read (bs.take n) = .error (.input .endsEarly) := by
  have hread : PrefixMap.read ([1, 0, 0, 0, 4, 0, 0, 0, 2, 0, 0, 0, 1, 0, 0, 0, 2, 0, 0, 0, 1,
      0, 1, 97, 0, 0, 0, 1, 0, 0, 0, 33, 0, 0] ++ [7]) =
      .ok (⟨.pooled ⟨.four, .two, #[(33, 0)], #["a"], [2]⟩⟩, [7]) := by rfl
  obtain ⟨bs, hinput, -, hcut⟩ := readers_exact.1 _ _ _ hread
  obtain rfl := List.append_cancel_right hinput
  exact ⟨_, _, rfl, hread, hcut⟩

end NumberPlan
