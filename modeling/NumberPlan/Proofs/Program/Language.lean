import NumberPlan.Proofs.Program.Correctness

/-!
# Verdicts and languages

What a verdict says about a language: the string is a word, or it could still be completed, or a
word that cannot be continued ends before its end, or none of these.

    m.Minimal → Fares m.Words w (m.verdictFrom m.start w)               (fares_verdictFrom)
    p.Proper → compilePattern p = .ok program →
      Fares p.Denotes w (verdict program w)                             (fares_compilePattern)
-/

namespace NumberPlan

/-! ## Verdicts by a language -/

/-- `w` lacks digits: it is no word, but begins a longer one. -/
def LacksDigits (L : List Digit → Prop) (w : List Digit) : Prop :=
  ¬ L w ∧ ∃ v, v ≠ [] ∧ L (w ++ v)

/-- `w` goes on after a word that no longer word continues. -/
def RunsOver (L : List Digit → Prop) (w : List Digit) : Prop :=
  ∃ u v, v ≠ [] ∧ w = u ++ v ∧ L u ∧ ∀ x, x ≠ [] → ¬ L (u ++ x)

/-- How a digit string fares by a language. -/
def Fares (L : List Digit → Prop) (w : List Digit) : Verdict → Prop
  | .matched => L w
  | .tooShort => LacksDigits L w
  | .tooLong => RunsOver L w
  | .invalid => ¬ L w ∧ ¬ LacksDigits L w ∧ ¬ RunsOver L w

theorem Fares.congr (L M : List Digit → Prop) (h : ∀ w, L w ↔ M w) (w : List Digit) (v : Verdict) :
    Fares L w v ↔ Fares M w v := by
  rw [show L = M from funext fun w => propext (h w)]

/-- The four ways to fare exclude one another. -/
theorem Fares.unique (L : List Digit → Prop) (w : List Digit) (a b : Verdict) (ha : Fares L w a)
    (hb : Fares L w b) : a = b := by
  have hover : RunsOver L w → ¬ L w ∧ ¬ LacksDigits L w := by
    rintro ⟨u, v, hv, rfl, -, hnone⟩
    refine ⟨hnone v hv, ?_⟩
    rintro ⟨-, x, hx, hl⟩
    refine hnone (v ++ x) (fun h => hx (List.append_eq_nil_iff.mp h).2) ?_
    rwa [← List.append_assoc]
  cases a with
  | matched =>
    cases b with
    | matched => rfl
    | tooShort => exact absurd ha hb.1
    | tooLong => exact absurd ha (hover hb).1
    | invalid => exact absurd ha hb.1
  | tooShort =>
    cases b with
    | matched => exact absurd hb ha.1
    | tooShort => rfl
    | tooLong => exact absurd ha (hover hb).2
    | invalid => exact absurd ha hb.2.1
  | tooLong =>
    cases b with
    | matched => exact absurd hb (hover ha).1
    | tooShort => exact absurd hb (hover ha).2
    | tooLong => rfl
    | invalid => exact absurd ha hb.2.2
  | invalid =>
    cases b with
    | matched => exact absurd hb ha.1
    | tooShort => exact absurd hb ha.2.1
    | tooLong => exact absurd hb ha.2.2
    | invalid => rfl

/-! ## Verdicts of minimal automata -/

/-- The words read from the start. -/
def Automaton.Words (m : Automaton) (w : List Digit) : Prop := m.accepts m.start w = true

section

variable (m : Automaton)

theorem verdictFrom_append (u v : List Digit) : ∀ s t, m.go s u = some t →
    m.verdictFrom s (u ++ v) = m.verdictFrom t v := by
  induction u with
  | nil =>
    intro s t h
    cases h
    rfl
  | cons d u ih =>
    intro s t h
    rw [Automaton.go] at h
    split at h
    · cases h
    · next q hq =>
      rw [List.cons_append, verdictFrom_some m s q d _ hq]
      exact ih q t h

/-- A string that leads nowhere leaves the automaton at some digit. -/
theorem go_none_split (w : List Digit) : ∀ s, m.go s w = none →
    ∃ u d v t, w = u ++ d :: v ∧ m.go s u = some t ∧ (m.state t).next d = none := by
  induction w with
  | nil => exact fun s h => nomatch h
  | cons d w ih =>
    intro s h
    rw [Automaton.go] at h
    split at h
    · next hn => exact ⟨[], d, w, s, rfl, rfl, hn⟩
    · next q hq =>
      obtain ⟨u, e, v, t, rfl, hu, hn⟩ := ih q h
      exact ⟨d :: u, e, v, t, rfl, by rw [Automaton.go, hq]; exact hu, hn⟩

theorem words_of_go (u v : List Digit) (t : Nat) (h : m.go m.start u = some t) :
    m.Words (u ++ v) ↔ m.accepts t v = true := by
  unfold Automaton.Words
  rw [m.accepts_append, h]
  rfl

variable (hm : m.Minimal)

include hm

/-- A state without edges ends every longer string. -/
theorem runsOver_of_isSink (u v : List Digit) (t : Nat) (hu : m.go m.start u = some t)
    (hsink : (m.state t).isSink = true) (hv : v ≠ []) : RunsOver m.Words (u ++ v) := by
  have ht := m.go_lt_size hm.next_lt u _ _ hm.start_lt hu
  refine ⟨u, v, hv, rfl, ?_, fun x hx => ?_⟩
  · rw [← List.append_nil u, words_of_go m u [] t hu, m.accepts_of_isSink hm t ht hsink]
    rfl
  · rw [words_of_go m u x t hu, m.accepts_of_isSink hm t ht hsink, List.isEmpty_iff]
    exact hx

/-- Some word goes on from a state with an edge. -/
theorem exists_word_of_edge (t : Nat) (hsink : (m.state t).isSink = false) :
    ∃ x, x ≠ [] ∧ m.accepts t x = true := by
  rw [State.isSink, List.isEmpty_eq_false_iff_exists_mem] at hsink
  obtain ⟨q, hq⟩ := hsink
  obtain ⟨d, hd⟩ := (State.mem_targets _ q).mp hq
  obtain ⟨w, hw⟩ := hm.live q (hm.next_lt t d q hd)
  exact ⟨d :: w, List.cons_ne_nil _ _, by rw [m.accepts_cons_some t q d w hd, hw]⟩

/-- Digits that all lead on match or lack digits. -/
theorem fares_of_go (w : List Digit) (t : Nat) (hgo : m.go m.start w = some t) :
    Fares m.Words w (m.verdictFrom m.start w) := by
  have ht := m.go_lt_size hm.next_lt w _ _ hm.start_lt hgo
  have hend : m.verdictFrom m.start w = m.verdictFrom t [] := by
    rw [← verdictFrom_append m w [] _ _ hgo, List.append_nil]
  have hword : m.Words w ↔ m.accepts t [] = true := by
    rw [← words_of_go m w [] t hgo, List.append_nil]
  rw [m.accepts_nil] at hword
  rw [hend, Automaton.verdictFrom]
  cases hacc : (m.state t).accepting with
  | true => exact hword.mpr hacc
  | false =>
    have hno : ¬ m.Words w := by
      rw [hword, hacc]
      decide
    obtain ⟨x, hx⟩ := hm.live t ht
    refine ⟨hno, x, ?_, (words_of_go m w x t hgo).mpr hx⟩
    rintro rfl
    rw [m.accepts_nil, hacc] at hx
    cases hx

/-- A digit that a state with edges has none for is neither too few nor too many. -/
theorem invalid_of_go (u v : List Digit) (d : Digit) (t : Nat) (hu : m.go m.start u = some t)
    (hnone : (m.state t).next d = none) (hsink : (m.state t).isSink = false) :
    Fares m.Words (u ++ d :: v) .invalid := by
  have hdead : ∀ x, ¬ m.Words (u ++ d :: x) := by
    intro x
    rw [words_of_go m u _ t hu, m.accepts_cons_none t d _ hnone]
    decide
  have hlacks : ¬ LacksDigits m.Words (u ++ d :: v) := by
    rintro ⟨-, x, -, hx⟩
    rw [List.append_assoc] at hx
    exact hdead (v ++ x) hx
  refine ⟨hdead v, hlacks, ?_⟩
  rintro ⟨a, b, hb, heq, ha, hlast⟩
  obtain ⟨x, hx, hacc⟩ := exists_word_of_edge m hm t hsink
  -- a word that ends by `t` could be continued through `t`, one that ends later is none
  rcases List.append_eq_append_iff.mp heq with ⟨c, rfl, hc⟩ | ⟨c, rfl, hc⟩
  · cases c with
    | nil =>
      rw [List.append_nil] at hlast
      exact hlast x hx ((words_of_go m u x t hu).mpr hacc)
    | cons e c =>
      obtain ⟨rfl, -⟩ := List.cons.inj hc
      exact hdead c ha
  · refine hlast (c ++ x) (fun h => hx (List.append_eq_nil_iff.mp h).2) ?_
    rw [← List.append_assoc]
    exact (words_of_go m (a ++ c) x t hu).mpr hacc

/-- What an automaton answers is how the string fares by its words. -/
theorem fares_verdictFrom (w : List Digit) : Fares m.Words w (m.verdictFrom m.start w) := by
  cases hgo : m.go m.start w with
  | some t => exact fares_of_go m hm w t hgo
  | none =>
    obtain ⟨u, d, v, t, rfl, hu, hnone⟩ := go_none_split m w _ hgo
    rw [verdictFrom_append m u _ _ _ hu, Automaton.verdictFrom, hnone]
    cases hsink : (m.state t).isSink with
    | true => exact runsOver_of_isSink m hm u (d :: v) t hu hsink (List.cons_ne_nil _ _)
    | false => exact invalid_of_go m hm u v d t hu hnone hsink

end

/-! ## Verdicts of patterns -/

section

variable (p : Pattern) (h : p.Proper)

include h

theorem Pattern.slots_ne_nil : p.slots ≠ [] := by
  unfold Pattern.slots
  exact fun hnil => h.ne_nil (List.map_eq_nil_iff.mp hnil)

/-- The automaton of a pattern has its words. -/
theorem words_automatonOf (w : List Digit) : (automatonOf p.slots).Words w ↔ p.Denotes w := by
  rw [p.denotes_iff_spells h]
  exact automatonOf_accepts _ (p.slots_ne_nil h) (p.slotsProper h) w

theorem automatonOf_slots_minimal : (automatonOf p.slots).Minimal :=
  automatonOf_minimal _ (p.slots_ne_nil h) (p.slotsProper h)

/-- A program's verdict on a digit string is how the string fares by the pattern's words. -/
theorem fares_compilePattern (program : List UInt8) (hp : compilePattern p = .ok program)
    (w : List Digit) : Fares p.Denotes w (verdict program w) := by
  have hmin := automatonOf_slots_minimal p h
  have hlayout := automatonOf_layoutOrder _ (p.slots_ne_nil h) (p.slotsProper h)
  rw [verdict_of_assemble _ hmin hlayout rfl program hp w,
    ← Fares.congr _ _ (words_automatonOf p h)]
  exact fares_verdictFrom _ hmin w

theorem error_of_compilePattern (e : CompileError) (he : compilePattern p = .error e) :
    ∃ d, e = .programTooLarge d :=
  error_of_assemble _ (automatonOf_slots_minimal p h)
    (automatonOf_layoutOrder _ (p.slots_ne_nil h) (p.slotsProper h)) e he

end

end NumberPlan
