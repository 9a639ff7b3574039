import NumberPlan.Automaton.Basic

/-!
# Minimal automata

An automaton is minimal if it has no cycle, every state is reached from the start and leads to
acceptance, and no two states accept the same words.  In one without cycles the last holds as
soon as no two states are the same record (`distinct_of_state_injective`).
-/

namespace NumberPlan

theorem State.ext_next (s t : State) (ha : s.accepting = t.accepting)
    (hn : ∀ d, s.next d = t.next d) : s = t := by
  obtain ⟨a, e⟩ := s
  obtain ⟨b, f⟩ := t
  cases ha
  have : e = f := Vector.ext fun i hi => hn ⟨i, hi⟩
  rw [this]

theorem State.next_sink (d : Digit) : State.sink.next d = none := by
  simp [State.next, State.sink]

namespace Automaton

/-- The state that a word leads to. -/
def go (m : Automaton) : Nat → List Digit → Option Nat
  | s, [] => some s
  | s, d :: w =>
    match (m.state s).next d with
    | none => none
    | some t => m.go t w

/-- No cycles, all states reached and live, no two of them with the same words. -/
structure Minimal (m : Automaton) : Prop where
  start_lt : m.start < m.size
  next_lt : ∀ s d t, (m.state s).next d = some t → t < m.size
  acyclic : ∃ depth : Nat → Nat, ∀ s d t, (m.state s).next d = some t → depth s < depth t
  live : ∀ s < m.size, ∃ w, m.accepts s w = true
  reached : ∀ s < m.size, ∃ u, m.go m.start u = some s
  distinct : ∀ s < m.size, ∀ t < m.size, (∀ w, m.accepts s w = m.accepts t w) → s = t

theorem state_of_size_le (m : Automaton) (s : Nat) (h : m.size ≤ s) : m.state s = State.sink := by
  rw [state, Array.getD_eq_getD_getElem?, Array.getElem?_eq_none h]
  rfl

theorem lt_size_of_next (m : Automaton) (s : Nat) (d : Digit) (t : Nat)
    (h : (m.state s).next d = some t) : s < m.size := by
  apply Classical.byContradiction
  intro hs
  rw [m.state_of_size_le s (Nat.not_lt.mp hs), State.next_sink] at h
  cases h

theorem accepts_nil (m : Automaton) (s : Nat) : m.accepts s [] = (m.state s).accepting := rfl

theorem accepts_cons_none (m : Automaton) (s : Nat) (d : Digit) (w : List Digit)
    (h : (m.state s).next d = none) : m.accepts s (d :: w) = false := by
  rw [accepts, h]

theorem accepts_cons_some (m : Automaton) (s t : Nat) (d : Digit) (w : List Digit)
    (h : (m.state s).next d = some t) : m.accepts s (d :: w) = m.accepts t w := by
  rw [accepts, h]

theorem accepts_append (m : Automaton) (u v : List Digit) (s : Nat) :
    m.accepts s (u ++ v) = (m.go s u).any fun t => m.accepts t v := by
  induction u generalizing s with
  | nil => rfl
  | cons d u ih =>
    cases h : (m.state s).next d with
    | none =>
      rw [List.cons_append, m.accepts_cons_none s d _ h, go, h]
      rfl
    | some t => rw [List.cons_append, m.accepts_cons_some s t d _ h, ih, go, h]

theorem go_append (m : Automaton) (u v : List Digit) (s : Nat) :
    m.go s (u ++ v) = (m.go s u).bind fun t => m.go t v := by
  induction u generalizing s with
  | nil => rfl
  | cons d u ih =>
    cases h : (m.state s).next d with
    | none => simp [go, h]
    | some t => simp [go, h, ih]

theorem go_lt_size (m : Automaton) (hlt : ∀ s d t, (m.state s).next d = some t → t < m.size)
    (u : List Digit) : ∀ s t, s < m.size → m.go s u = some t → t < m.size := by
  induction u with
  | nil =>
    intro s t hs h
    cases h
    exact hs
  | cons d u ih =>
    intro s t hs h
    rw [go] at h
    split at h
    · cases h
    · next q hq => exact ih q t (hlt s d q hq) h

/-- States that keep among themselves accept the same words in a larger automaton. -/
theorem accepts_congr (m m' : Automaton) (n : Nat) (hsame : ∀ s < n, m'.state s = m.state s)
    (hclosed : ∀ s < n, ∀ d t, (m.state s).next d = some t → t < n) (w : List Digit) :
    ∀ s < n, m'.accepts s w = m.accepts s w := by
  induction w with
  | nil =>
    intro s hs
    rw [accepts_nil, accepts_nil, hsame s hs]
  | cons d w ih =>
    intro s hs
    cases h : (m.state s).next d with
    | none => rw [m.accepts_cons_none s d w h, m'.accepts_cons_none s d w (by rw [hsame s hs, h])]
    | some t =>
      rw [m.accepts_cons_some s t d w h, m'.accepts_cons_some s t d w (by rw [hsame s hs, h])]
      exact ih t (hclosed s hs d t h)

/-- Where edges lead to lower numbers and all states are live, states with the same words are the
same record, by induction on their numbers. -/
theorem distinct_of_state_injective (m : Automaton)
    (hdesc : ∀ s d t, (m.state s).next d = some t → t < s)
    (hlive : ∀ s < m.size, ∃ w, m.accepts s w = true)
    (hinj : ∀ s < m.size, ∀ t < m.size, m.state s = m.state t → s = t) :
    ∀ s < m.size, ∀ t < m.size, (∀ w, m.accepts s w = m.accepts t w) → s = t := by
  intro s
  induction s using Nat.strongRecOn with
  | ind s ih =>
    intro hs t ht hw
    refine hinj s hs t ht (State.ext_next _ _ (hw []) fun d => ?_)
    cases hsn : (m.state s).next d with
    | none =>
      cases htn : (m.state t).next d with
      | none => rfl
      | some t' =>
        obtain ⟨w, hlw⟩ := hlive t' (Nat.lt_trans (hdesc t d t' htn) ht)
        have := hw (d :: w)
        rw [m.accepts_cons_none s d w hsn, m.accepts_cons_some t t' d w htn, hlw] at this
        cases this
    | some s' =>
      have hs' := hdesc s d s' hsn
      cases htn : (m.state t).next d with
      | none =>
        obtain ⟨w, hlw⟩ := hlive s' (Nat.lt_trans hs' hs)
        have := hw (d :: w)
        rw [m.accepts_cons_none t d w htn, m.accepts_cons_some s s' d w hsn, hlw] at this
        cases this
      | some t' =>
        have ht' := hdesc t d t' htn
        rw [ih s' hs' (Nat.lt_trans hs' hs) t' (Nat.lt_trans ht' ht) fun w => ?_]
        rw [← m.accepts_cons_some s s' d w hsn, ← m.accepts_cons_some t t' d w htn, hw (d :: w)]

end Automaton

end NumberPlan
