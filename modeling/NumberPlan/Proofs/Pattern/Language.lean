import Mathlib.Computability.RegularExpressions
import NumberPlan.Proofs.Pattern.Grammar

/-!
# The regular language of a pattern

A pattern is a regular expression over the digits: a sum of alternatives, an alternative a product
of items, an item a sum of the powers of its digit set.  Its language is the set of words that the
pattern denotes (`Pattern.mem_language`), so what is read off a text has the language of the text.

    readPattern s succeeds ↔ s is a text of the grammar, and then
      the slots read spell w ↔ w is in the language of the text               (readPattern_language)
-/

namespace NumberPlan

/-! ## Expressions -/

/-- One of some expressions. -/
def sumOf (es : List (RegularExpression Digit)) : RegularExpression Digit := es.foldr (· + ·) 0

/-- Some expressions one after the other. -/
def productOf (es : List (RegularExpression Digit)) : RegularExpression Digit := es.foldr (· * ·) 1

/-- One digit of the set. -/
def DigitSet.expression (s : DigitSet) : RegularExpression Digit :=
  sumOf (s.toList.map RegularExpression.char)

/-- A digit of the set, as often as the counts allow. -/
def Item.expression (i : Item) : RegularExpression Digit :=
  sumOf ((List.range' i.least (i.most + 1 - i.least)).map fun n => i.digits.expression ^ n)

/-- The items of one of the alternatives, one after the other. -/
def Pattern.expression (p : Pattern) : RegularExpression Digit :=
  sumOf (p.map fun a => productOf (a.map Item.expression))

/-- The regular language of a pattern. -/
def Pattern.language (p : Pattern) : Language Digit := p.expression.matches'

/-! ## Words -/

theorem mem_sumOf (es : List (RegularExpression Digit)) (w : List Digit) :
    w ∈ (sumOf es).matches' ↔ ∃ e ∈ es, w ∈ e.matches' := by
  induction es with
  | nil =>
    constructor
    · exact fun h => absurd h (Language.notMem_zero w)
    · rintro ⟨e, he, -⟩
      cases he
  | cons e es ih =>
    show w ∈ e.matches' + (sumOf es).matches' ↔ _
    rw [Language.mem_add, ih, List.exists_mem_cons_iff]

theorem DigitSet.mem_expression (s : DigitSet) (w : List Digit) :
    w ∈ s.expression.matches' ↔ ∃ d, s.mem d = true ∧ w = [d] := by
  unfold DigitSet.expression
  rw [mem_sumOf]
  constructor
  · rintro ⟨e, he, hw⟩
    obtain ⟨d, hd, rfl⟩ := List.mem_map.mp he
    exact ⟨d, (List.mem_filter.mp hd).2, hw⟩
  · rintro ⟨d, hd, rfl⟩
    exact ⟨_, List.mem_map_of_mem (List.mem_filter.mpr ⟨DigitSet.mem_all d, hd⟩), rfl⟩

theorem DigitSet.mem_expression_pow (s : DigitSet) (n : Nat) (w : List Digit) :
    w ∈ (s.expression ^ n).matches' ↔ w.length = n ∧ ∀ d ∈ w, s.mem d = true := by
  rw [RegularExpression.matches'_pow]
  induction n generalizing w with
  | zero =>
    rw [pow_zero, Language.mem_one, List.length_eq_zero_iff]
    constructor
    · rintro rfl
      exact ⟨rfl, fun d hd => nomatch hd⟩
    · exact And.left
  | succ n ih =>
    rw [pow_succ', Language.mem_mul]
    constructor
    · rintro ⟨u, hu, v, hv, rfl⟩
      obtain ⟨d, hd, rfl⟩ := (s.mem_expression u).mp hu
      obtain ⟨hlen, hmem⟩ := (ih v).mp hv
      refine ⟨congrArg Nat.succ hlen, fun e he => ?_⟩
      rcases List.mem_cons.mp he with rfl | he
      · exact hd
      · exact hmem e he
    · rintro ⟨hlen, hmem⟩
      cases w with
      | nil => cases hlen
      | cons d v =>
        refine ⟨[d], (s.mem_expression _).mpr ⟨d, hmem d (List.mem_cons_self ..), rfl⟩, v, ?_, rfl⟩
        exact (ih v).mpr ⟨Nat.succ.inj hlen, fun e he => hmem e (List.mem_cons_of_mem d he)⟩

theorem Item.mem_expression (i : Item) (w : List Digit) :
    w ∈ i.expression.matches' ↔ i.Denotes w := by
  unfold Item.expression Item.Denotes
  rw [mem_sumOf]
  constructor
  · rintro ⟨e, he, hw⟩
    obtain ⟨n, hn, rfl⟩ := List.mem_map.mp he
    obtain ⟨rfl, hmem⟩ := (i.digits.mem_expression_pow n w).mp hw
    rw [List.mem_range'_1] at hn
    exact ⟨hn.1, by omega, hmem⟩
  · rintro ⟨hleast, hmost, hmem⟩
    have hn : w.length ∈ List.range' i.least (i.most + 1 - i.least) := by
      rw [List.mem_range'_1]
      omega
    exact ⟨_, List.mem_map_of_mem hn, (i.digits.mem_expression_pow _ w).mpr ⟨rfl, hmem⟩⟩

theorem mem_sequence (a : List Item) (w : List Digit) :
    w ∈ (productOf (a.map Item.expression)).matches' ↔ SequenceDenotes a w := by
  induction a generalizing w with
  | nil => exact Language.mem_one w
  | cons i a ih =>
    show w ∈ i.expression.matches' * (productOf (a.map Item.expression)).matches' ↔ _
    rw [Language.mem_mul]
    constructor
    · rintro ⟨u, hu, v, hv, rfl⟩
      exact ⟨u, v, rfl, (i.mem_expression u).mp hu, (ih v).mp hv⟩
    · rintro ⟨u, v, rfl, hu, hv⟩
      exact ⟨u, (i.mem_expression u).mpr hu, v, (ih v).mpr hv, rfl⟩

/-- The language of a pattern is what the pattern denotes. -/
theorem Pattern.mem_language (p : Pattern) (w : List Digit) : w ∈ p.language ↔ p.Denotes w := by
  unfold Pattern.language Pattern.expression Pattern.Denotes
  rw [mem_sumOf]
  constructor
  · rintro ⟨e, he, hw⟩
    obtain ⟨a, ha, rfl⟩ := List.mem_map.mp he
    exact ⟨a, ha, (mem_sequence a w).mp hw⟩
  · rintro ⟨a, ha, hw⟩
    exact ⟨_, List.mem_map_of_mem ha, (mem_sequence a w).mpr hw⟩

/-! ## Reading -/

/-- Reading succeeds on the texts of the grammar and on no others, and the slots that it gives
spell the words of the text's regular language. -/
theorem readPattern_language (s : String) :
    ((∃ as, (readPattern s).map Pattern.slots = .ok as) ↔ ∃ p, PatternText s.toList p) ∧
      ∀ as p, (readPattern s).map Pattern.slots = .ok as → PatternText s.toList p →
        ∀ w, (∃ a ∈ as, Spells a w) ↔ w ∈ p.language := by
  have hslots : ∀ as, (readPattern s).map Pattern.slots = .ok as →
      ∃ p, PatternText s.toList p ∧ p.slots = as := by
    intro as h
    cases hread : readPattern s with
    | error e =>
      rw [hread] at h
      cases h
    | ok p =>
      rw [hread] at h
      exact ⟨p, (readPattern_iff s p).mp hread, Except.ok.inj h⟩
  refine ⟨⟨fun ⟨as, h⟩ => ?_, fun ⟨p, hp⟩ => ⟨p.slots, ?_⟩⟩, fun as p h hp w => ?_⟩
  · obtain ⟨p, hp, -⟩ := hslots as h
    exact ⟨p, hp⟩
  · rw [(readPattern_iff s p).mpr hp]
    rfl
  · obtain ⟨q, hq, rfl⟩ := hslots as h
    obtain rfl := PatternText.unique s p q hp hq
    rw [p.mem_language, p.denotes_iff_spells hp.proper]

/-- A class with a range, a quantifier with leading zeros and one that leaves a digit out. -/
theorem readPattern_language_quantified :
    (readPattern "[13-5]\\d{0,02}|0?").map Pattern.slots = .ok
        [[⟨0x3A, false⟩, ⟨DigitSet.full, true⟩, ⟨DigitSet.full, true⟩], [⟨1, true⟩]] ∧
      PatternText "[13-5]\\d{0,02}|0?".toList
        [[⟨0x3A, 1, 1⟩, ⟨DigitSet.full, 0, 2⟩], [⟨1, 0, 1⟩]] ∧
      ((∃ a ∈ [[⟨0x3A, false⟩, ⟨DigitSet.full, true⟩, ⟨DigitSet.full, true⟩], [⟨1, true⟩]],
          Spells a [4, 9]) ↔
        [4, 9] ∈ Pattern.language [[⟨0x3A, 1, 1⟩, ⟨DigitSet.full, 0, 2⟩], [⟨1, 0, 1⟩]]) := by
  have hread : readPattern "[13-5]\\d{0,02}|0?"
      = .ok [[⟨0x3A, 1, 1⟩, ⟨DigitSet.full, 0, 2⟩], [⟨1, 0, 1⟩]] := by decide +kernel
  have hslots : (readPattern "[13-5]\\d{0,02}|0?").map Pattern.slots = .ok
      [[⟨0x3A, false⟩, ⟨DigitSet.full, true⟩, ⟨DigitSet.full, true⟩], [⟨1, true⟩]] := by
    rw [hread]
    rfl
  have htext := (readPattern_iff _ _).mp hread
  obtain ⟨-, hlanguage⟩ := readPattern_language "[13-5]\\d{0,02}|0?"
  exact ⟨hslots, htext, hlanguage _ _ hslots htext [4, 9]⟩

end NumberPlan
