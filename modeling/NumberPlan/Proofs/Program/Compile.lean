import Mathlib
import NumberPlan.Proofs.Automaton.Isomorphism
import NumberPlan.Proofs.Pattern.Grammar
import NumberPlan.Proofs.Program.Language

/-!
# Compiled patterns

The words of a pattern's text are those of the pattern that the grammar gives it, and its program
tells for every digit string how it fares by them.

    compile s = .ok program → (verdict program w = v ↔ Fares (WordOf s) w v)
                                                                      (verdict_compile_iff)

The program depends on nothing but the words.

    (∀ w, WordOf s w ↔ WordOf t w) → compile s = compile t            (compile_congr)
-/

namespace NumberPlan

/-- `w` is a word of the pattern with this text. -/
def WordOf (s : String) (w : List Digit) : Prop := ∃ p, PatternText s.toList p ∧ p.Denotes w

theorem wordOf_iff (s : String) (p : Pattern) (h : readPattern s = .ok p) (w : List Digit) :
    WordOf s w ↔ p.Denotes w := by
  have hp := (readPattern_iff s p).mp h
  constructor
  · rintro ⟨q, hq, hw⟩
    rwa [PatternText.unique s p q hp hq]
  · exact fun hw => ⟨p, hp, hw⟩

theorem readPattern_proper (s : String) (p : Pattern) (h : readPattern s = .ok p) : p.Proper :=
  PatternText.proper _ p ((readPattern_iff s p).mp h)

theorem compile_ok (s : String) (program : List UInt8) (h : compile s = .ok program) :
    ∃ p, readPattern s = .ok p ∧ p.Proper ∧ compilePattern p = .ok program := by
  unfold compile at h
  cases hread : readPattern s with
  | error e =>
    rw [hread] at h
    cases h
  | ok p =>
    rw [hread] at h
    exact ⟨p, rfl, readPattern_proper s p hread, h⟩

/-- A program tells how a digit string fares by the words of the text. -/
theorem fares_compile (s : String) (program : List UInt8) (h : compile s = .ok program)
    (w : List Digit) : Fares (WordOf s) w (verdict program w) := by
  obtain ⟨p, hread, hproper, hp⟩ := compile_ok s program h
  rw [Fares.congr _ _ (wordOf_iff s p hread)]
  exact fares_compilePattern p hproper program hp w

theorem matched_compile_iff (s : String) (program : List UInt8) (h : compile s = .ok program)
    (w : List Digit) : verdict program w = .matched ↔ WordOf s w := by
  have hfares := fares_compile s program h w
  constructor
  · intro hv
    rwa [hv] at hfares
  · exact fun hw => Fares.unique _ w _ .matched hfares hw

/-- The verdicts of a text's program are the ways to fare by the text's words. -/
theorem verdict_compile_iff (s : String) (program : List UInt8) (h : compile s = .ok program)
    (w : List Digit) (v : Verdict) : verdict program w = v ↔ Fares (WordOf s) w v := by
  have hfares := fares_compile s program h w
  constructor
  · rintro rfl
    exact hfares
  · exact fun hv => Fares.unique _ w _ v hfares hv

/-- A text with a range, whose program has a set. -/
theorem verdict_compile_range :
    compile "1[2-5]" = .ok [33, 96, 60, 0] ∧
      (verdict [33, 96, 60, 0] [1, 3, 7] = .tooLong ↔
        Fares (WordOf "1[2-5]") [1, 3, 7] .tooLong) :=
  ⟨by cbv, verdict_compile_iff "1[2-5]" _ (by cbv) [1, 3, 7] .tooLong⟩

/-! ## One program for a language -/

theorem compilePattern_congr (p q : Pattern) (hp : p.Proper) (hq : q.Proper)
    (h : ∀ w, p.Denotes w ↔ q.Denotes w) : compilePattern p = compilePattern q := by
  obtain ⟨hpmin, hpwords⟩ := merge_reachable_minimal _ (p.slots_ne_nil hp) (p.slotsProper hp)
  obtain ⟨hqmin, hqwords⟩ := merge_reachable_minimal _ (q.slots_ne_nil hq) (q.slotsProper hq)
  have hsame : automatonOf p.slots = automatonOf q.slots := by
    refine Automaton.canonical_eq _ _ hpmin hqmin fun w => ?_
    rw [Bool.eq_iff_iff, hpwords, hqwords, ← p.denotes_iff_spells hp, ← q.denotes_iff_spells hq]
    exact h w
  unfold compilePattern
  rw [hsame]

theorem compile_eq_compilePattern (s : String) (p : Pattern) (h : readPattern s = .ok p) :
    compile s = compilePattern p := by
  unfold compile
  rw [h]

/-- Patterns with the same words have the same program, or are too large by the same distance;
patterns with the same program have the same words. -/
theorem compile_congr (s t : String) (p q : Pattern) (hs : readPattern s = .ok p)
    (ht : readPattern t = .ok q) :
    ((∀ w, WordOf s w ↔ WordOf t w) → compile s = compile t ∧
      ∀ e, compile s = .error e → ∃ distance, e = .programTooLarge distance) ∧
    ∀ program, compile s = .ok program → compile t = .ok program →
      ∀ w, WordOf s w ↔ WordOf t w := by
  have hp := readPattern_proper s p hs
  have hq := readPattern_proper t q ht
  refine ⟨fun h => ⟨?_, fun e he => ?_⟩, fun program hsp htp w => ?_⟩
  · rw [compile_eq_compilePattern s p hs, compile_eq_compilePattern t q ht]
    refine compilePattern_congr p q hp hq fun w => ?_
    rw [← wordOf_iff s p hs, ← wordOf_iff t q ht]
    exact h w
  · rw [compile_eq_compilePattern s p hs] at he
    exact error_of_compilePattern p hp e he
  · rw [← matched_compile_iff s program hsp, ← matched_compile_iff t program htp]

/-- Two ways to write one language. -/
theorem compile_congr_class : compile "12|13" = compile "1[23]" ∧
    (WordOf "12|13" [1, 3] ↔ WordOf "1[23]" [1, 3]) := by
  obtain ⟨hcompile, hwords⟩ := compile_congr "12|13" "1[23]"
    [[⟨DigitSet.single 1, 1, 1⟩, ⟨DigitSet.single 2, 1, 1⟩],
      [⟨DigitSet.single 1, 1, 1⟩, ⟨DigitSet.single 3, 1, 1⟩]]
    [[⟨DigitSet.single 1, 1, 1⟩, ⟨DigitSet.single 2 ||| DigitSet.single 3, 1, 1⟩]]
    (by cbv) (by cbv)
  have hsame := hwords [33, 96, 12, 0] (by cbv) (by cbv)
  exact ⟨(hcompile hsame).1, hsame [1, 3]⟩

end NumberPlan
