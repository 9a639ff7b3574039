import Mathlib.Data.Nat.Bitwise
import NumberPlan.Regex.Search

/-!
# What a search finds

A place is in `reach text e s` if `e` matches up to it from a place of `s` (`leads_reach`), so a
search finds what there is to find:

    e.Ordered → (isMatch e text = true ↔ ∃ i j, Matches text.toList e i j)         (isMatch_iff)

A repetition is a chain of matches.  In a chain of more matches than the text has characters some
match no characters, and of these there may as well be more or fewer (`Chain.resize`): so the
number of repetitions that are tried may be bounded by the length of the text.
-/

namespace NumberPlan.Regex

/-- In each repetition the least number is no more than the greatest. -/
def Expr.Ordered : Expr → Prop
  | .empty => True
  | .one _ => True
  | .look _ => True
  | .seq a b => a.Ordered ∧ b.Ordered
  | .alt a b => a.Ordered ∧ b.Ordered
  | .times e lo hi => e.Ordered ∧ ∀ n ∈ hi, lo ≤ n

section

variable {text : List Char}

theorem Matches.le {e : Expr} {i j : Nat} (h : Matches text e i j) : i ≤ j ∧ j ≤ text.length := by
  induction h with
  | empty hi => exact ⟨Nat.le_refl _, hi⟩
  | one hc => exact ⟨Nat.le_succ _, (List.getElem?_eq_some_iff.mp hc).1⟩
  | look hi => exact ⟨Nat.le_refl _, hi⟩
  | seq _ _ iha ihb => exact ⟨Nat.le_trans iha.1 ihb.1, ihb.2⟩
  | left _ ih => exact ih
  | right _ ih => exact ih
  | none hi => exact ⟨Nat.le_refl _, hi⟩
  | more _ _ ih ihs => exact ⟨Nat.le_trans ih.1 ihs.1, ihs.2⟩
  | again _ _ ih ihs => exact ⟨Nat.le_trans ih.1 ihs.1, ihs.2⟩

theorem matches_empty_iff {i j : Nat} : Matches text .empty i j ↔ i = j ∧ i ≤ text.length := by
  constructor
  · intro h
    cases h with
    | empty hi => exact ⟨rfl, hi⟩
  · rintro ⟨rfl, hi⟩
    exact .empty hi

theorem matches_seq_iff {a b : Expr} {i k : Nat} :
    Matches text (.seq a b) i k ↔ ∃ j, Matches text a i j ∧ Matches text b j k := by
  constructor
  · intro h
    cases h with
    | seq ha hb => exact ⟨_, ha, hb⟩
  · rintro ⟨j, ha, hb⟩
    exact .seq ha hb

theorem matches_alt_iff {a b : Expr} {i j : Nat} :
    Matches text (.alt a b) i j ↔ Matches text a i j ∨ Matches text b i j := by
  constructor
  · intro h
    cases h with
    | left ha => exact .inl ha
    | right hb => exact .inr hb
  · rintro (ha | hb)
    · exact .left ha
    · exact .right hb

/-! ## Chains of matches -/

/-- `k` matches, each from where the one before it ends. -/
def Chain (text : List Char) (e : Expr) : (k i j : Nat) → Prop
  | 0, i, j => i = j ∧ i ≤ text.length
  | k + 1, i, j => ∃ m, Matches text e i m ∧ Chain text e k m j

theorem matches_times_iff {e : Expr} {lo : Nat} {hi : Option Nat} {i j : Nat} :
    Matches text (.times e lo hi) i j ↔
      ∃ k, lo ≤ k ∧ (∀ n ∈ hi, k ≤ n) ∧ Chain text e k i j := by
  constructor
  · generalize hx : Expr.times e lo hi = x
    intro h
    induction h generalizing lo hi with
    | none hle =>
      cases hx
      exact ⟨0, Nat.le_refl 0, fun _ _ => Nat.zero_le _, rfl, hle⟩
    | more hfirst _ _ ih =>
      cases hx
      obtain ⟨k, hlo, -, hchain⟩ := ih rfl
      exact ⟨k + 1, by omega, fun _ hn => (by cases hn), _, hfirst, hchain⟩
    | again hfirst _ _ ih =>
      cases hx
      obtain ⟨k, hlo, hhi, hchain⟩ := ih rfl
      have hk := hhi _ rfl
      refine ⟨k + 1, by omega, fun n hn => ?_, _, hfirst, hchain⟩
      obtain rfl := Option.some.inj hn
      omega
    | empty | one | look | seq | left | right => cases hx
  · rintro ⟨k, hlo, hhi, hchain⟩
    induction k generalizing lo hi i with
    | zero =>
      obtain ⟨rfl, hi⟩ := hchain
      obtain rfl := Nat.le_zero.mp hlo
      exact .none hi
    | succ k ih =>
      obtain ⟨m, hfirst, hrest⟩ := hchain
      cases hi with
      | none => exact .more hfirst (ih (by omega) (fun _ hn => by cases hn) hrest)
      | some n =>
        obtain ⟨n', rfl⟩ : ∃ n', n = n' + 1 := ⟨n - 1, by have := hhi n rfl; omega⟩
        refine .again hfirst (ih (by omega) (fun n hn => ?_) hrest)
        obtain rfl := Option.some.inj hn
        have := hhi _ rfl
        omega

namespace Chain

variable {e : Expr} {k i j : Nat}

theorem le (h : Chain text e k i j) : i ≤ j ∧ j ≤ text.length := by
  induction k generalizing i with
  | zero =>
    obtain ⟨rfl, hi⟩ := h
    exact ⟨Nat.le_refl i, hi⟩
  | succ k ih =>
    obtain ⟨m, hfirst, hrest⟩ := h
    exact ⟨Nat.le_trans hfirst.le.1 (ih hrest).1, (ih hrest).2⟩

/-- Matches of no characters may be left out. -/
theorem shorten (h : Chain text e k i j) : ∃ n ≤ j - i, Chain text e n i j := by
  induction k generalizing i with
  | zero => exact ⟨0, Nat.zero_le _, h⟩
  | succ k ih =>
    obtain ⟨m, hfirst, hrest⟩ := h
    obtain ⟨n, hn, hshort⟩ := ih hrest
    rcases Nat.eq_or_lt_of_le hfirst.le.1 with rfl | hlt
    · exact ⟨n, hn, hshort⟩
    · have hle := hrest.le.1
      exact ⟨n + 1, by omega, m, hfirst, hshort⟩

/-- A match of no characters may come first as often as wanted. -/
theorem lengthen (hempty : Matches text e i i) (h : Chain text e k i j) (n : Nat) (hn : k ≤ n) :
    Chain text e n i j := by
  obtain ⟨d, rfl⟩ := Nat.exists_eq_add_of_le hn
  clear hn
  induction d with
  | zero => exact h
  | succ d ih => exact ⟨i, hempty, ih⟩

/-- A chain of more matches than characters has a match of no characters, and so there are chains
of any length from the number of characters on. -/
theorem resize (h : Chain text e k i j) (hk : j - i < k) (n : Nat) (hn : j - i ≤ n) :
    Chain text e n i j := by
  induction k generalizing i n with
  | zero => omega
  | succ k ih =>
    obtain ⟨m, hfirst, hrest⟩ := h
    rcases Nat.eq_or_lt_of_le hfirst.le.1 with rfl | hlt
    · obtain ⟨n', hn', hshort⟩ := hrest.shorten
      exact lengthen hfirst hshort n (by omega)
    · have hle := hrest.le.1
      obtain ⟨n, rfl⟩ : ∃ n', n = n' + 1 := ⟨n - 1, by omega⟩
      exact ⟨m, hfirst, ih hrest (by omega) n (by omega)⟩

end Chain

theorem chain_add {e : Expr} {k n i j : Nat} :
    Chain text e (k + n) i j ↔ ∃ m, Chain text e k i m ∧ Chain text e n m j := by
  induction k generalizing i with
  | zero =>
    rw [Nat.zero_add]
    constructor
    · exact fun h => ⟨i, ⟨rfl, Nat.le_trans h.le.1 h.le.2⟩, h⟩
    · rintro ⟨m, ⟨rfl, -⟩, h⟩
      exact h
  | succ k ih =>
    rw [Nat.succ_add]
    constructor
    · rintro ⟨m, hfirst, hrest⟩
      obtain ⟨m', hchain, hlast⟩ := ih.mp hrest
      exact ⟨m', ⟨m, hfirst, hchain⟩, hlast⟩
    · rintro ⟨m', ⟨m, hfirst, hchain⟩, hlast⟩
      exact ⟨m, hfirst, ih.mpr ⟨m', hchain, hlast⟩⟩

/-- The chains that a repetition allows end where those within `first` and `first + more` matches
end, for bounds that are cut to the length of the text. -/
theorem exists_chain_iff {e : Expr} {lo : Nat} {hi : Option Nat} (hle : ∀ n ∈ hi, lo ≤ n)
    {i j : Nat} :
    (∃ k, lo ≤ k ∧ (∀ n ∈ hi, k ≤ n) ∧ Chain text e k i j) ↔
      ∃ k, min lo (text.length + 1) ≤ k ∧
        k ≤ min lo (text.length + 1) +
          (hi.elim text.length fun n => min (n - lo) text.length) ∧
        Chain text e k i j := by
  constructor
  · rintro ⟨k, hlo, hhi, hchain⟩
    have hends := hchain.le
    by_cases hk : k ≤ min lo (text.length + 1) +
        (hi.elim text.length fun n => min (n - lo) text.length)
    · exact ⟨k, by omega, hk, hchain⟩
    · -- a chain so long has as many matches as there are characters, and more
      refine ⟨_, Nat.le_add_right _ _, Nat.le_refl _, hchain.resize ?_ _ ?_⟩ <;>
      cases hi with
      | none => simp only [Option.elim_none] at hk ⊢; omega
      | some n =>
        have := hhi n rfl
        simp only [Option.elim_some] at hk ⊢
        omega
  · rintro ⟨k, hlo, hmore, hchain⟩
    have hends := hchain.le
    by_cases hk : lo ≤ k
    · by_cases hhi : ∀ n ∈ hi, k ≤ n
      · exact ⟨k, hk, hhi, hchain⟩
      · refine ⟨lo, Nat.le_refl lo, hle, hchain.resize ?_ _ ?_⟩ <;>
        cases hi with
        | none => exact absurd (fun n hn => by cases hn) hhi
        | some n =>
          have hn : ¬ k ≤ n := fun hle => hhi fun m hm => Option.some.inj hm ▸ hle
          have := hle n rfl
          simp only [Option.elim_some] at hmore
          omega
    · exact ⟨lo, Nat.le_refl lo, hle, hchain.resize (by omega) _ (by omega)⟩

end

/-! ## Sets of places -/

theorem testBit_bit (b : Bool) (n : Nat) :
    (bit b n).testBit 0 = b ∧ ∀ i, (bit b n).testBit (i + 1) = n.testBit i := by
  unfold bit
  refine ⟨?_, fun i => ?_⟩
  · rw [Nat.testBit_zero]
    cases b <;> simp
  · rw [Nat.testBit_succ]
    congr 1
    cases b
    · simp
    · simp only [if_true]
      omega

theorem testBit_placesBefore (s : CharSet) (cs : List Char) (i : Nat) :
    (placesBefore s cs).testBit i = true ↔ ∃ c, cs[i]? = some c ∧ s.mem c = true := by
  induction cs generalizing i with
  | nil => simp [placesBefore]
  | cons c cs ih =>
    rw [placesBefore]
    cases i with
    | zero => simp [(testBit_bit _ _).1]
    | succ i => simp [(testBit_bit _ _).2, ih]

/-- The places that are as told. -/
theorem testBit_lookPlaces (l : Look) (before : Option Char) (cs : List Char) :
    (lookPlaces l before cs).testBit 0 = l.holds before cs[0]? ∧
      ∀ i, (lookPlaces l before cs).testBit (i + 1) = true ↔
        i < cs.length ∧ l.holds cs[i]? cs[i + 1]? = true := by
  induction cs generalizing before with
  | nil =>
    rw [lookPlaces]
    refine ⟨(testBit_bit _ _).1, fun i => ?_⟩
    simp [(testBit_bit _ _).2]
  | cons c cs ih =>
    rw [lookPlaces]
    refine ⟨(testBit_bit _ _).1, fun i => ?_⟩
    rw [(testBit_bit _ _).2]
    cases i with
    | zero => simp [(ih (some c)).1]
    | succ i => simp [(ih (some c)).2]

theorem testBit_lookPlaces_iff (l : Look) (text : List Char) (i : Nat) :
    (lookPlaces l none text).testBit i = true ↔
      i ≤ text.length ∧ l.holds (charBefore text i) text[i]? = true := by
  cases i with
  | zero => simp [(testBit_lookPlaces l none text).1, charBefore]
  | succ i => rw [(testBit_lookPlaces l none text).2, charBefore, Nat.succ_le_iff]

/-- A set of places in the text. -/
def Within (text : List Char) (s : Nat) : Prop := ∀ i, s.testBit i = true → i ≤ text.length

/-- `f` leads from a set of places to those where a match that starts at one of them may end. -/
def Leads (text : List Char) (e : Expr) (f : Nat → Nat) : Prop :=
  ∀ s, Within text s → ∀ j, (f s).testBit j = true ↔
    ∃ i, s.testBit i = true ∧ Matches text e i j

/-! ## Repeated steps -/

namespace Leads

variable {text : List Char} {e : Expr} {f : Nat → Nat} (h : Leads text e f)

include h

theorem within (s : Nat) (hs : Within text s) : Within text (f s) := by
  intro j hj
  obtain ⟨i, -, hmatch⟩ := (h s hs j).mp hj
  exact hmatch.le.2

theorem testBit_repeat (k s : Nat) (hs : Within text s) (j : Nat) :
    (Nat.repeat f k s).testBit j = true ↔ ∃ i, s.testBit i = true ∧ Chain text e k i j := by
  induction k generalizing s with
  | zero =>
    refine ⟨fun hj => ⟨j, hj, rfl, hs j hj⟩, ?_⟩
    rintro ⟨i, hi, rfl, -⟩
    exact hi
  | succ k ih =>
    have hshift : ∀ k, Nat.repeat f (k + 1) s = Nat.repeat f k (f s) := by
      intro k
      induction k with
      | zero => rfl
      | succ k ih => exact congrArg f ih
    rw [hshift, ih (f s) (h.within s hs)]
    constructor
    · rintro ⟨m, hm, hrest⟩
      obtain ⟨i, hi, hfirst⟩ := (h s hs m).mp hm
      exact ⟨i, hi, m, hfirst, hrest⟩
    · rintro ⟨i, hi, m, hfirst, hrest⟩
      exact ⟨m, (h s hs m).mpr ⟨i, hi, hfirst⟩, hrest⟩

theorem testBit_upTo (n s : Nat) (hs : Within text s) (j : Nat) :
    (upTo f n s).testBit j = true ↔ ∃ k ≤ n, ∃ i, s.testBit i = true ∧ Chain text e k i j := by
  induction n generalizing s with
  | zero =>
    rw [upTo]
    refine ⟨fun hj => ⟨0, Nat.le_refl 0, j, hj, rfl, hs j hj⟩, ?_⟩
    rintro ⟨k, hk, i, hi, hchain⟩
    obtain rfl := Nat.le_zero.mp hk
    obtain ⟨rfl, -⟩ := hchain
    exact hi
  | succ n ih =>
    have hstep : ∀ i, (s ||| f s).testBit i = true ↔
        s.testBit i = true ∨ ∃ i', s.testBit i' = true ∧ Matches text e i' i := by
      intro i
      rw [Nat.testBit_or, Bool.or_eq_true, h s hs]
    rw [upTo]
    by_cases hsame : (s ||| f s) = s
    · rw [if_pos hsame]
      rw [hsame] at hstep
      refine ⟨fun hj => ⟨0, Nat.zero_le _, j, hj, rfl, hs j hj⟩, ?_⟩
      -- no chain leads out of a set that no match leads out of
      rintro ⟨k, -, i, hi, hchain⟩
      clear hs ih
      induction k generalizing i with
      | zero =>
        obtain ⟨rfl, -⟩ := hchain
        exact hi
      | succ k ih =>
        obtain ⟨m, hfirst, hrest⟩ := hchain
        exact ih m ((hstep m).mpr (.inr ⟨i, hi, hfirst⟩)) hrest
    · rw [if_neg hsame, ih (s ||| f s) fun i hi => ?_]
      · constructor
        · rintro ⟨k, hk, i, hi, hchain⟩
          rcases (hstep i).mp hi with hi | ⟨i', hi', hfirst⟩
          · exact ⟨k, Nat.le_succ_of_le hk, i, hi, hchain⟩
          · exact ⟨k + 1, Nat.succ_le_succ hk, i', hi', i, hfirst, hchain⟩
        · rintro ⟨k, hk, i, hi, hchain⟩
          cases k with
          | zero => exact ⟨0, Nat.zero_le n, i, (hstep i).mpr (.inl hi), hchain⟩
          | succ k =>
            obtain ⟨m, hfirst, hrest⟩ := hchain
            exact ⟨k, Nat.le_of_succ_le_succ hk, m, (hstep m).mpr (.inr ⟨i, hi, hfirst⟩), hrest⟩
      · rcases (hstep i).mp hi with hi | ⟨i', -, hfirst⟩
        · exact hs i hi
        · exact hfirst.le.2

/-- After `k` steps, what at most `n` more lead to. -/
theorem testBit_upTo_repeat (k n s : Nat) (hs : Within text s) (j : Nat) :
    (upTo f n (Nat.repeat f k s)).testBit j = true ↔
      ∃ i, s.testBit i = true ∧ ∃ m, k ≤ m ∧ m ≤ k + n ∧ Chain text e m i j := by
  have hrepeat := h.testBit_repeat k s hs
  rw [h.testBit_upTo n _ fun i hi => ?_]
  · constructor
    · rintro ⟨m, hm, i', hi', hrest⟩
      obtain ⟨i, hi, hfirst⟩ := (hrepeat i').mp hi'
      exact ⟨i, hi, k + m, by omega, by omega, chain_add.mpr ⟨i', hfirst, hrest⟩⟩
    · rintro ⟨i, hi, m, hkm, hm, hchain⟩
      obtain ⟨d, rfl⟩ := Nat.exists_eq_add_of_le hkm
      obtain ⟨i', hfirst, hrest⟩ := chain_add.mp hchain
      exact ⟨d, by omega, i', (hrepeat i').mpr ⟨i, hi, hfirst⟩, hrest⟩
  · obtain ⟨_, -, hchain⟩ := (hrepeat i).mp hi
    exact hchain.le.2

end Leads

/-! ## Searching -/

theorem leads_reach (text : List Char) (e : Expr) (he : e.Ordered) :
    Leads text e (reach text e) := by
  induction e with
  | empty =>
    intro s hs j
    simp only [matches_empty_iff]
    refine ⟨fun hj => ⟨j, hj, rfl, hs j hj⟩, ?_⟩
    rintro ⟨i, hi, rfl, -⟩
    exact hi
  | one k =>
    intro s hs j
    have hbit := testBit_bit false (s &&& placesBefore k text)
    show (bit false (s &&& placesBefore k text)).testBit j = true ↔ _
    cases j with
    | zero =>
      rw [hbit.1]
      refine ⟨fun h => (by cases h), ?_⟩
      rintro ⟨i, -, hmatch⟩
      cases hmatch
    | succ j =>
      rw [hbit.2, Nat.testBit_and, Bool.and_eq_true, testBit_placesBefore]
      constructor
      · rintro ⟨hj, c, hc, hmem⟩
        exact ⟨j, hj, .one hc hmem⟩
      · rintro ⟨i, hi, hmatch⟩
        cases hmatch with
        | one hc hmem => exact ⟨hi, _, hc, hmem⟩
  | look l =>
    intro s hs j
    rw [reach, Nat.testBit_and, Bool.and_eq_true, testBit_lookPlaces_iff]
    constructor
    · rintro ⟨hj, hle, hholds⟩
      exact ⟨j, hj, .look hle hholds⟩
    · rintro ⟨i, hi, hmatch⟩
      cases hmatch with
      | look hle hholds => exact ⟨hi, hle, hholds⟩
  | seq a b iha ihb =>
    have iha := iha he.1
    have ihb := ihb he.2
    intro s hs j
    rw [reach, ihb _ (iha.within s hs)]
    simp only [iha s hs, matches_seq_iff]
    constructor
    · rintro ⟨m, ⟨i, hi, ha⟩, hb⟩
      exact ⟨i, hi, m, ha, hb⟩
    · rintro ⟨i, hi, m, ha, hb⟩
      exact ⟨m, ⟨i, hi, ha⟩, hb⟩
  | alt a b iha ihb =>
    intro s hs j
    simp only [reach, Nat.testBit_or, Bool.or_eq_true, iha he.1 s hs, ihb he.2 s hs,
      matches_alt_iff, and_or_left, exists_or]
  | times e lo hi ih =>
    intro s hs j
    have hsteps := (ih he.1).testBit_upTo_repeat (min lo (text.length + 1))
      (hi.elim text.length fun n => min (n - lo) text.length) s hs j
    simp only [matches_times_iff, exists_chain_iff he.2]
    cases hi <;> exact hsteps

/-- A search finds a match exactly where there is one. -/
theorem isMatch_iff (e : Expr) (he : e.Ordered) (text : String) :
    isMatch e text = true ↔ ∃ i j, Matches text.toList e i j := by
  have hall : ∀ i, ((1 <<< (text.toList.length + 1)) - 1).testBit i = true ↔
      i ≤ text.toList.length := by
    intro i
    rw [Nat.one_shiftLeft, Nat.testBit_two_pow_sub_one, decide_eq_true_iff, Nat.lt_succ_iff]
  have hreach := leads_reach text.toList e he _ fun i => (hall i).mp
  unfold isMatch
  dsimp only
  rw [bne_iff_ne]
  constructor
  · intro hne
    obtain ⟨j, hj⟩ := Nat.exists_testBit_of_ne_zero hne
    obtain ⟨i, -, hmatch⟩ := (hreach j).mp hj
    exact ⟨i, j, hmatch⟩
  · rintro ⟨i, j, hmatch⟩ hzero
    have hj := (hreach j).mpr ⟨i, (hall i).mpr (Nat.le_trans hmatch.le.1 hmatch.le.2), hmatch⟩
    rw [hzero, Nat.zero_testBit] at hj
    cases hj

end NumberPlan.Regex
