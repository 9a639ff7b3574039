import Mathlib.Data.List.TakeDrop
import Mathlib.Data.List.TakeWhile

/-!
# Runs at the start of a list

A list is divided where a test first fails (`takeWhile_run`), and every list has such a place
(`run_spec`).  What stands in front of the first occurrence of an element is a run (`span_eq_iff`).
-/

namespace NumberPlan

variable {α : Type} (p : α → Bool)

/-- A run is taken, and what starts with no member of it is left. -/
theorem takeWhile_run (run rest : List α) (hrun : ∀ a ∈ run, p a = true)
    (hrest : ∀ a ∈ rest.head?, p a = false) :
    (run ++ rest).takeWhile p = run ∧ (run ++ rest).dropWhile p = rest := by
  rw [List.takeWhile_append_of_pos hrun, List.dropWhile_append_of_pos hrun]
  cases rest with
  | nil => exact ⟨List.append_nil run, rfl⟩
  | cons a rest =>
    have ha : ¬ p a = true := Bool.eq_false_iff.mp (hrest a rfl)
    rw [List.takeWhile_cons, List.dropWhile_cons, if_neg ha, if_neg ha]
    exact ⟨List.append_nil run, rfl⟩

theorem run_spec (l : List α) : (∀ a ∈ l.takeWhile p, p a = true) ∧
    ∀ a ∈ (l.dropWhile p).head?, p a = false := by
  refine ⟨fun a ha => List.mem_takeWhile_imp ha, fun a ha => ?_⟩
  have hnot := List.head?_dropWhile_not p l
  rwa [ha] at hnot

/-- The part in front of the first `stop`. -/
theorem span_eq_iff [BEq α] [LawfulBEq α] (stop : α) (l front rest : List α) (a : α) :
    l.span (· != stop) = (front, a :: rest) ↔
      a = stop ∧ stop ∉ front ∧ l = front ++ stop :: rest := by
  rw [List.span_eq_takeWhile_dropWhile]
  constructor
  · intro h
    obtain ⟨hfront, hrest⟩ := Prod.mk.inj h
    obtain ⟨hrun, hhead⟩ := run_spec (· != stop) l
    rw [hrest] at hhead
    obtain rfl : a = stop := by simpa using hhead a rfl
    refine ⟨rfl, fun hmem => ?_, by rw [← hfront, ← hrest, List.takeWhile_append_dropWhile]⟩
    simpa using hrun a (hfront ▸ hmem)
  · rintro ⟨rfl, hfront, rfl⟩
    obtain ⟨htake, hdrop⟩ := takeWhile_run (· != a) front (a :: rest)
      (fun b hb => bne_iff_ne.mpr fun h => hfront (h ▸ hb))
      fun b hb => by rw [← Option.some.inj hb]; exact bne_self_eq_false a
    rw [htake, hdrop]

end NumberPlan
