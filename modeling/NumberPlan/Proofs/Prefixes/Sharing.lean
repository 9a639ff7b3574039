import Mathlib.Data.List.Nodup
import NumberPlan.Prefixes.SharedReader
import NumberPlan.Proofs.Text.Entries
import NumberPlan.Proofs.Threads.Guarded

/-!
# Threads share one map for each file

In every order of turns, the maps that were loaded are those that are kept, and the one that is to
be inserted (`Sharing.loaded`).  Only a file without a map is worked on, so no file is loaded
twice, no map gives way to another, and who is answered with a map has the one that is kept:

    .answer t q (.ok (some lm)) ∈ s.log → s.shared.look file = some lm                (answered)

where `s` is the system after the turns and `file` is the file of `q`.  A call whose load fails
inserts nothing (`fails_after`).  A thread that is alone does what `mapFor` does (`mapFor_alone`).
-/

namespace NumberPlan

/-- What the threads do to a reader. -/
abbrev MapDeed := Deed MapRequest (Option (List UInt8)) MapStage

namespace SharedReader

/-- The file that is loaded and its map, if that succeeds. -/
def loads? (m : Mapping) : MapDeed → Option (String × PrefixMap)
  | .work q .load supply =>
    (q.file? m).bind fun file => (loadMap file supply).toOption.map fun map => (file, map)
  | _ => none

/-- The file that is to be loaded, if that fails. -/
def fails? (m : Mapping) : MapDeed → Option String
  | .work q .load supply =>
    (q.file? m).filter fun file => (loadMap file supply).toOption.isNone
  | _ => none

/-- The map that is inserted. -/
def inserts? (m : Mapping) : MapDeed → Option (String × LoadedMap)
  | .work q (.insert lm) _ => (q.file? m).map fun file => (file, lm)
  | _ => none

/-- The loads that have succeeded, in order. -/
def loads (m : Mapping) (ds : List MapDeed) : List (String × PrefixMap) := ds.filterMap (loads? m)

/-- The files of the loads that have failed, in order. -/
def fails (m : Mapping) (ds : List MapDeed) : List String := ds.filterMap (fails? m)

/-- What has been inserted, in order. -/
def inserts (m : Mapping) (ds : List MapDeed) : List (String × LoadedMap) :=
  ds.filterMap (inserts? m)

/-- The map that is to be inserted. -/
def toInsert (m : Mapping) : Option (MapRequest × MapStage) → List (String × LoadedMap)
  | some (q, .insert lm) => ((q.file? m).map fun file => (file, lm)).toList
  | _ => []

/-- How the reader stands with what was done, and with the task under way. -/
structure Sharing (m : Mapping) (ds : List MapDeed) (r : SharedReader)
    (task : Option (MapRequest × MapStage)) : Prop where
  inserted : inserts m ds = r.maps.reverse
  loaded : loads m ds = (r.maps.reverse ++ toInsert m task).map fun e => (e.1, e.2.map)
  distinct : (r.maps.map (·.1)).Nodup
  absent : ∀ q w, task = some (q, w) → ∃ file, q.file? m = some file ∧ r.look file = none

variable {m : Mapping} {ds : List MapDeed} {r : SharedReader}
  {task : Option (MapRequest × MapStage)}

theorem loads_snoc (d : MapDeed) : loads m (ds ++ [d]) = loads m ds ++ (loads? m d).toList :=
  filterMap_snoc (loads? m) ds d

theorem inserts_snoc (d : MapDeed) :
    inserts m (ds ++ [d]) = inserts m ds ++ (inserts? m d).toList :=
  filterMap_snoc (inserts? m) ds d

theorem sharing_empty : Sharing m [] empty none := by
  constructor
  · rfl
  · rfl
  · exact List.nodup_nil
  · exact fun q w h => nomatch h

/-! ## Each step keeps it -/

section

variable (h : Sharing m ds r task)

include h

/-- Other deeds make no difference, and while there is nothing to insert the task may change or
end. -/
theorem Sharing.idle (d : MapDeed) (task' : Option (MapRequest × MapStage))
    (hloads : loads? m d = none) (hinserts : inserts? m d = none)
    (htask : toInsert m task' = toInsert m task)
    (habsent : ∀ q w, task' = some (q, w) → ∃ file, q.file? m = some file ∧ r.look file = none) :
    Sharing m (ds ++ [d]) r task' := by
  constructor
  · rw [inserts_snoc, hinserts]
    exact (List.append_nil _).trans h.inserted
  · rw [loads_snoc, hloads, htask]
    exact (List.append_nil _).trans h.loaded
  · exact h.distinct
  · exact habsent

/-- Of each file there is one map, kept or to be inserted. -/
theorem Sharing.nodup_loads : ((loads m ds).map (·.1)).Nodup := by
  have hkept : (r.maps.reverse.map (·.1)).Nodup := by
    rw [List.map_reverse]
    exact List.nodup_reverse.mpr h.distinct
  rw [h.loaded, List.map_map]
  show ((r.maps.reverse ++ toInsert m task).map (·.1)).Nodup
  rcases task with _ | ⟨q, w⟩
  · simpa [toInsert] using hkept
  cases w with
  | load => simpa [toInsert] using hkept
  | insert lm =>
    obtain ⟨file, hfile, hnone⟩ := h.absent q _ rfl
    have hnew : file ∉ r.maps.map (·.1) := (lookup_eq_none_iff_notMem r.maps file).mp hnone
    simp only [toInsert, hfile, Option.map_some, Option.toList_some, List.map_append]
    refine List.nodup_append.mpr ⟨hkept, List.nodup_singleton file, ?_⟩
    intro a ha b hb
    rw [List.map_reverse, List.mem_reverse] at ha
    obtain rfl := List.mem_singleton.mp hb
    exact fun heq => hnew (heq ▸ ha)

end

/-- A map that is kept was loaded. -/
theorem Sharing.mem_loads (h : Sharing m ds r task) (file : String) (lm : LoadedMap)
    (hlook : r.look file = some lm) : (file, lm.map) ∈ loads m ds := by
  have hkept : (file, lm) ∈ r.maps := mem_of_lookup r.maps file lm hlook
  rw [h.loaded]
  apply List.mem_map.mpr ⟨(file, lm), ?_, rfl⟩
  exact List.mem_append_left _ (List.mem_reverse.mpr hkept)

theorem Sharing.made (q : MapRequest) (file : String) (hfile : q.file? m = some file)
    (supply : Option (List UInt8)) (map : PrefixMap) (hload : loadMap file supply = .ok map)
    (h : Sharing m ds r (some (q, .load))) :
    Sharing m (ds ++ [.work q .load supply]) (r.make map).2
      (some (q, .insert (r.make map).1)) := by
  have hloads : loads? m (.work q .load supply) = some (file, map) := by
    rw [loads?, hfile, Option.bind_some, hload]
    rfl
  constructor
  · rw [inserts_snoc]
    exact (List.append_nil _).trans h.inserted
  · rw [loads_snoc, hloads, h.loaded]
    simp [toInsert, hfile, make]
  · exact h.distinct
  · intro q' w htask
    cases htask
    exact h.absent q .load rfl

theorem Sharing.insert (q : MapRequest) (file : String) (hfile : q.file? m = some file)
    (supply : Option (List UInt8)) (lm : LoadedMap) (h : Sharing m ds r (some (q, .insert lm))) :
    Sharing m (ds ++ [.work q (.insert lm) supply]) (r.insert file lm) none := by
  have hinserts : inserts? m (.work q (.insert lm) supply) = some (file, lm) := by
    simp only [inserts?, hfile, Option.map_some]
  obtain ⟨file', hfile', hnone⟩ := h.absent q _ rfl
  obtain rfl : file' = file := Option.some.inj (hfile'.symm.trans hfile)
  constructor
  · rw [inserts_snoc, hinserts, h.inserted]
    exact List.reverse_cons.symm
  · rw [loads_snoc, h.loaded]
    simp [loads?, toInsert, hfile, SharedReader.insert]
  · exact List.nodup_cons.mpr ⟨(lookup_eq_none_iff_notMem r.maps file').mp hnone, h.distinct⟩
  · exact fun q' w htask => nomatch htask

/-! ## Steps -/

theorem looks (q : MapRequest) (found : Option (Except PrefixError (Option LoadedMap)))
    (r' : SharedReader) (hlook : (service m).look q r = (found, r')) :
    r' = r ∧ ((q.file? m = none ∧ found = some (.ok none)) ∨
      ∃ file, q.file? m = some file ∧ found = (r.look file).map fun lm => .ok (some lm)) := by
  simp only [service] at hlook
  split at hlook
  · next hfile =>
    obtain ⟨rfl, rfl⟩ := Prod.mk.inj hlook
    exact ⟨rfl, Or.inl ⟨hfile, rfl⟩⟩
  · next file hfile =>
    obtain ⟨rfl, rfl⟩ := Prod.mk.inj hlook
    exact ⟨rfl, Or.inr ⟨file, hfile, rfl⟩⟩

section

variable (file : String) (r : SharedReader)

/-- The steps of the work on a file. -/
inductive Works : MapStage → Option (List UInt8) →
    Progress MapStage (Except PrefixError (Option LoadedMap)) × SharedReader → Prop
  | failed (supply : Option (List UInt8)) (e : PrefixError) (h : loadMap file supply = .error e) :
      Works .load supply (.done (.error e), r)
  | made (supply : Option (List UInt8)) (map : PrefixMap) (h : loadMap file supply = .ok map) :
      Works .load supply (.more (.insert (r.make map).1), (r.make map).2)
  | inserted (lm : LoadedMap) (supply : Option (List UInt8)) :
      Works (.insert lm) supply (.done (.ok (some lm)), r.insert file lm)

theorem works (q : MapRequest) (hfile : q.file? m = some file) (w : MapStage)
    (supply : Option (List UInt8)) : Works file r w supply ((service m).work q w supply r) := by
  simp only [service, hfile]
  cases w with
  | load =>
    dsimp only
    split
    · next e hload => exact .failed supply e hload
    · next map hload => exact .made supply map hload
  | insert lm => exact .inserted lm supply

end

/-- Maps that are kept at the first moment are kept at the second. -/
def Keeps (r r' : SharedReader) : Prop :=
  ∀ file lm, r.look file = some lm → r'.look file = some lm

theorem keeps_insert (file : String) (lm : LoadedMap) (h : r.look file = none) :
    Keeps r (r.insert file lm) := by
  intro file' lm' hlook
  have hne : file' ≠ file := by
    rintro rfl
    rw [h] at hlook
    cases hlook
  show ((file, lm) :: r.maps).lookup file' = some lm'
  rw [List.lookup_cons, beq_false_of_ne hne]
  exact hlook

/-- A map in an answer is the one that is kept, and only a request without a file is answered
without a map. -/
structure Told (m : Mapping) (r : SharedReader) (q : MapRequest)
    (answer : Except PrefixError (Option LoadedMap)) : Prop where
  kept : ∀ lm, answer = .ok (some lm) → ∃ file, q.file? m = some file ∧ r.look file = some lm
  unlisted : answer = .ok none → q.file? m = none

theorem Told.of_keeps {r' : SharedReader} {q : MapRequest}
    {answer : Except PrefixError (Option LoadedMap)} (h : Told m r q answer) (hr : Keeps r r') :
    Told m r' q answer := by
  constructor
  · intro lm hanswer
    obtain ⟨file, hfile, hlook⟩ := h.kept lm hanswer
    exact ⟨file, hfile, hr file lm hlook⟩
  · exact h.unlisted

theorem sharing_extends (m : Mapping) : (service m).Extends (Sharing m) Keeps where
  refl _ _ _ hlook := hlook
  trans _ _ _ h₁ h₂ file lm hlook := h₂ file lm (h₁ file lm hlook)
  look ds r task q found r' _ hlook := by
    obtain ⟨rfl, -⟩ := looks q found r' hlook
    exact fun file lm hkept => hkept
  work ds r q w supply progress r' h hwork := by
    obtain ⟨file, hfile, hnone⟩ := h.absent q w rfl
    have hworks := works file r q hfile w supply
    rw [hwork] at hworks
    cases hworks with
    | failed | made => exact fun file lm hkept => hkept
    | inserted lm => exact keeps_insert file lm hnone

theorem sharing_keeps (m : Mapping) :
    (service m).Keeps (Sharing m) (fun _ => Told m) where
  look ds r task q found r' h hlook := by
    obtain ⟨rfl, -⟩ := looks q found r' hlook
    exact h.idle (.look q) task rfl rfl rfl h.absent
  hit ds r task q answer r' h hlook := by
    obtain ⟨rfl, ⟨hnone, hfound⟩ | ⟨file, hfile, hfound⟩⟩ := looks q (some answer) r' hlook
    · cases hfound
      exact ⟨nofun, fun _ => hnone⟩
    · obtain ⟨lm, hlm, rfl⟩ := Option.map_eq_some_iff.mp hfound.symm
      refine ⟨fun lm' hanswer => ?_, nofun⟩
      cases hanswer
      exact ⟨file, hfile, hlm⟩
  miss ds r q r' h hlook := by
    obtain ⟨rfl, ⟨-, hfound⟩ | ⟨file, hfile, hfound⟩⟩ := looks q none r' hlook
    · cases hfound
    · refine h.idle (.look q) _ rfl rfl rfl ?_
      intro q' w htask
      cases htask
      exact ⟨file, hfile, Option.map_eq_none_iff.mp hfound.symm⟩
  more ds r q w supply w' r' h hwork := by
    obtain ⟨file, hfile, hnone⟩ := h.absent q w rfl
    have hworks := works file r q hfile w supply
    rw [hwork] at hworks
    cases hworks with
    | made _ map hload => exact h.made q file hfile supply map hload
  done ds r q w supply answer r' h hwork := by
    obtain ⟨file, hfile, hnone⟩ := h.absent q w rfl
    have hworks := works file r q hfile w supply
    rw [hwork] at hworks
    cases hworks with
    | failed _ e hload =>
      have hloads : loads? m (.work q .load supply) = none := by
        rw [loads?, hfile, Option.bind_some, hload]
        rfl
      exact ⟨h.idle _ none hloads rfl rfl nofun, nofun, nofun⟩
    | inserted lm =>
      refine ⟨h.insert q file hfile supply lm, fun lm' hanswer => ?_, nofun⟩
      cases hanswer
      exact ⟨file, hfile, List.lookup_cons_self⟩
  good_look ds r task q answer q' found r' h htold hlook :=
    htold.of_keeps ((sharing_extends m).look ds r task q' found r' h hlook)
  good_work ds r q answer q' w supply progress r' h htold hwork :=
    htold.of_keeps ((sharing_extends m).work ds r q' w supply progress r' h hwork)

/-! ## Calls whose load fails -/

theorem fails_snoc (d : MapDeed) : fails m (ds ++ [d]) = fails m ds ++ (fails? m d).toList :=
  filterMap_snoc (fails? m) ds d

/-- One more deed in which nothing fails and nothing is inserted. -/
theorem quiet_snoc (d : MapDeed) (hd : fails? m d = none ∧ inserts? m d = none)
    (hds : fails m ds = [] ∧ inserts m ds = []) :
    fails m (ds ++ [d]) = [] ∧ inserts m (ds ++ [d]) = [] := by
  rw [fails_snoc, inserts_snoc, hd.1, hd.2, hds.1, hds.2]
  exact ⟨rfl, rfl⟩

/-- In a call under way nothing has failed, and nothing has been inserted; in the end one of the
two may have happened. -/
def CallSoFar (m : Mapping) (ds : List MapDeed) :
    Phase MapRequest MapStage (Except PrefixError (Option LoadedMap)) → Prop
  | .looking _ | .waiting _ | .relooking _ | .working .. => fails m ds = [] ∧ inserts m ds = []
  | .idle | .releasing .. | .answering .. => fails m ds = [] ∨ inserts m ds = []

/-- After a step that leaves work to do. -/
theorem undone_of_more (q : MapRequest) (w w' : MapStage) (supply : Option (List UInt8))
    (r' : SharedReader) (hwork : (service m).work q w supply r = (.more w', r')) :
    fails? m (.work q w supply) = none ∧ inserts? m (.work q w supply) = none := by
  cases hfile : q.file? m with
  | none =>
    simp only [service, hfile] at hwork
    cases hwork
  | some file =>
    have hworks := works file r q hfile w supply
    rw [hwork] at hworks
    cases hworks with
    | made _ map hload =>
      refine ⟨?_, rfl⟩
      rw [fails?, hfile, Option.filter_some, hload]
      rfl

theorem fails_or_inserts (d : MapDeed) : fails? m d = none ∨ inserts? m d = none := by
  cases d with
  | look => exact Or.inl rfl
  | work q w supply =>
    cases w with
    | load => exact Or.inr rfl
    | insert => exact Or.inl rfl

theorem callSoFar_after (m : Mapping) (turns : List (Turn MapRequest (Option (List UInt8))))
    (t : Nat) : CallSoFar m (((service m).after empty turns).deedsOfCall t)
      (((service m).after empty turns).phase t) := by
  apply (service m).calls_after (CallSoFar m) (Or.inl rfl)
  intro x holder r p moved ds h hsofar
  cases h with
  | call => exact ⟨rfl, rfl⟩
  | acquire | release | answer => exact hsofar
  | miss q | remiss q => exact quiet_snoc (.look q) ⟨rfl, rfl⟩ hsofar
  | hit q | rehit q => exact Or.inl (quiet_snoc (.look q) ⟨rfl, rfl⟩ hsofar).1
  | more q w w' r' hwork => exact quiet_snoc _ (undone_of_more q w w' x.supply r' hwork) hsofar
  | done q w =>
    show fails m (ds ++ [.work q w x.supply]) = [] ∨ inserts m (ds ++ [.work q w x.supply]) = []
    rw [fails_snoc, inserts_snoc, hsofar.1, hsofar.2]
    rcases fails_or_inserts (m := m) (.work q w x.supply) with hnone | hnone
    · exact Or.inl (by rw [hnone]; rfl)
    · exact Or.inr (by rw [hnone]; rfl)

/-- A call whose load fails inserts nothing. -/
theorem fails_after (m : Mapping) (turns : List (Turn MapRequest (Option (List UInt8)))) (t : Nat)
    (h : fails m (((service m).after empty turns).deedsOfCall t) ≠ []) :
    inserts m (((service m).after empty turns).deedsOfCall t) = [] := by
  have hsofar := callSoFar_after m turns t
  cases hphase : ((service m).after empty turns).phase t with
  | looking | waiting | relooking | working =>
    rw [hphase] at hsofar
    exact hsofar.2
  | idle | releasing | answering =>
    rw [hphase] at hsofar
    exact hsofar.resolve_left h

/-! ## Turns -/

section

variable (m : Mapping) (turns : List (Turn MapRequest (Option (List UInt8))))

theorem upheld_after :
    System.Upheld (Sharing m) (fun _ => Told m) ((service m).after empty turns) :=
  (sharing_keeps m).upheld_after empty sharing_empty turns

/-- A map in an answer is kept. -/
theorem answered (t : Nat) (q : MapRequest) (lm : LoadedMap)
    (h : .answer t q (.ok (some lm)) ∈ ((service m).after empty turns).log) :
    ∃ file, q.file? m = some file ∧ ((service m).after empty turns).shared.look file = some lm :=
  ((upheld_after m turns).answered t q _ h).kept lm rfl

end

/-- In every order of turns, no file is loaded twice, a map that is kept is never replaced, all
answers with a map for a file have the same map, and a call whose load fails inserts nothing.  The
maps that are kept are those that were inserted; the map in an answer is the one that was loaded
from the request's file, and only a request without a file is answered without a map. -/
theorem loaded_once (m : Mapping) (turns : List (Turn MapRequest (Option (List UInt8)))) :
    let s := (service m).after empty turns
    ((loads m s.deeds).map (·.1)).Nodup ∧
    inserts m s.deeds = s.shared.maps.reverse ∧
    (∀ later file lm, s.shared.look file = some lm →
      ((service m).after empty (turns ++ later)).shared.look file = some lm) ∧
    (∀ t q lm t' q' lm', .answer t q (.ok (some lm)) ∈ s.log →
      .answer t' q' (.ok (some lm')) ∈ s.log → q.file? m = q'.file? m → lm = lm') ∧
    (∀ t q lm, .answer t q (.ok (some lm)) ∈ s.log →
      ∃ file, q.file? m = some file ∧ (file, lm.map) ∈ loads m s.deeds) ∧
    (∀ t q, .answer t q (.ok none) ∈ s.log → q.file? m = none) ∧
    ∀ t, fails m (s.deedsOfCall t) ≠ [] → inserts m (s.deedsOfCall t) = [] := by
  intro s
  have hupheld := upheld_after m turns
  refine ⟨hupheld.core.nodup_loads, hupheld.core.inserted, ?_, ?_, ?_, ?_, fails_after m turns⟩
  · intro later file lm hlook
    exact (sharing_extends m).after (sharing_keeps m) empty sharing_empty turns later file lm hlook
  · intro t q lm t' q' lm' hanswer hanswer' hsame
    obtain ⟨file, hfile, hlook⟩ := answered m turns t q lm hanswer
    obtain ⟨file', hfile', hlook'⟩ := answered m turns t' q' lm' hanswer'
    obtain rfl : file = file' := by
      rw [hsame, hfile'] at hfile
      exact (Option.some.inj hfile).symm
    exact Option.some.inj (hlook.symm.trans hlook')
  · intro t q lm hanswer
    obtain ⟨file, hfile, hlook⟩ := answered m turns t q lm hanswer
    exact ⟨file, hfile, hupheld.core.mem_loads file lm hlook⟩
  · intro t q hanswer
    exact (hupheld.answered t q _ hanswer).unlisted rfl

/-- Code 44 in English. -/
def englishOnly : Mapping := .ofEntries [(44, ["en"])]

def inEnglish : MapRequest := ⟨44, "en", "", ""⟩

/-- The file for English stands in. -/
def inBritishEnglish : MapRequest := ⟨44, "en", "", "GB"⟩

/-- Three threads want the file.  The load of the first fails, and the third looks while the second
has the lock. -/
def race : List (Turn MapRequest (Option (List UInt8))) :=
  [0, 0, 1, 1, 0, 1, 0, 0, 1, 0, 1, 0, 1, 1, 2, 2, 1, 2, 1, 2, 2, 1, 2, 2].map fun t =>
    if t = 1 then
      ⟨t, inEnglish, some [0, 0, 0, 0, 1, 0, 0, 0, 44, 0, 2, 85, 75, 0, 0, 0, 1, 0, 0, 0, 2]⟩
    else ⟨t, inBritishEnglish, none⟩

theorem loaded_once_race :
    let s := (service englishOnly).after empty race
    ∃ lm lm', .answer 1 inEnglish (.ok (some lm)) ∈ s.log ∧
      .answer 2 inBritishEnglish (.ok (some lm')) ∈ s.log ∧
      inEnglish.file? englishOnly = inBritishEnglish.file? englishOnly ∧ lm = lm' ∧
      s.shared.look "44_en" = some lm ∧
      ((service englishOnly).after empty (race ++ race)).shared.look "44_en" = some lm ∧
      fails englishOnly (s.deedsOfCall 0) ≠ [] ∧ inserts englishOnly (s.deedsOfCall 0) = [] := by
  intro s
  obtain ⟨-, -, hkept, hsame, -, -, hfails⟩ := loaded_once englishOnly race
  let lm : LoadedMap := ⟨0, ⟨.plain ⟨#[(44, "UK")], [2]⟩⟩⟩
  have hfirst : .answer 1 inEnglish (.ok (some lm)) ∈ s.log := by decide +kernel
  have hsecond : .answer 2 inBritishEnglish (.ok (some lm)) ∈ s.log := by decide +kernel
  have hfile : inEnglish.file? englishOnly = inBritishEnglish.file? englishOnly := by decide +kernel
  have hlook : s.shared.look "44_en" = some lm := by decide +kernel
  have hfailed : fails englishOnly (s.deedsOfCall 0) ≠ [] := by decide +kernel
  exact ⟨lm, lm, hfirst, hsecond, hfile, hsame 1 _ _ 2 _ _ hfirst hsecond hfile, hlook,
    hkept race "44_en" lm hlook, hfailed, hfails 0 hfailed⟩

/-! ## One thread alone -/

/-- The reader for one caller: the same maps, not as objects. -/
def view (m : Mapping) (r : SharedReader) : PrefixReader :=
  ⟨m, r.maps.map fun e => (e.1, e.2.map)⟩

theorem lookup_view (m : Mapping) (r : SharedReader) (file : String) :
    (view m r).maps.lookup file = (r.look file).map (·.map) := by
  show (r.maps.map fun e => (e.1, e.2.map)).lookup file = (r.maps.lookup file).map (·.map)
  induction r.maps with
  | nil => rfl
  | cons e es ih =>
    rw [List.map_cons, List.lookup_cons, List.lookup_cons, ih]
    cases file == e.1 <;> rfl

/-- A request by itself gets the map, and leaves the maps, of `mapFor`. -/
theorem serves_mapFor (m : Mapping) (files : Files) (q : MapRequest) (r : SharedReader) :
    ∃ answer r', (service m).Serves q ((q.file? m).bind files) answer r' r ∧
      answer.map (·.map (·.map)) = ((view m r).mapFor files q.key q.locale).answer ∧
      view m r' = ((view m r).mapFor files q.key q.locale).state := by
  unfold PrefixReader.mapFor
  cases hfile : q.file? m with
  | none =>
    have hlook : (service m).look q r = (some (.ok none), r) := by simp only [service, hfile]
    have hunlisted : (view m r).mapping.fileFor? q.key q.locale = none := hfile
    rw [hunlisted]
    exact ⟨_, r, .hit r hlook, rfl, rfl⟩
  | some file =>
    have hlook : (service m).look q r = ((r.look file).map fun lm => .ok (some lm), r) := by
      simp only [service, hfile]
    have hlisted : (view m r).mapping.fileFor? q.key q.locale = some file := hfile
    have hkept := lookup_view m r file
    rw [hlisted]
    unfold PrefixReader.requireMap
    dsimp only
    rw [hkept]
    cases hlm : r.look file with
    | some lm =>
      rw [hlm] at hlook
      exact ⟨_, r, .hit r hlook, rfl, rfl⟩
    | none =>
      rw [hlm] at hlook
      have hread : PrefixReader.readFile PrefixMap.read files file =
          loadMap file (files file) := rfl
      rw [hread]
      cases hload : loadMap file (files file) with
      | error e =>
        refine ⟨.error e, r, .worked r r r hlook hlook (.done MapStage.load r ?_), rfl, rfl⟩
        simp only [service, hfile, Option.bind_some, hload]
      | ok map =>
        let lm := (r.make map).1
        let made := (r.make map).2
        refine ⟨.ok (some lm), made.insert file lm, .worked r r r hlook hlook
          (.more MapStage.load (.insert lm) r made ?_ (.done _ _ ?_)), rfl, rfl⟩
        · simp only [service, hfile, Option.bind_some, hload]
          rfl
        · simp only [service, hfile]

/-- A thread that is alone gets the map, and leaves the maps, of `mapFor`. -/
theorem mapFor_alone (m : Mapping) (files : Files)
    (x : Turn MapRequest (Option (List UInt8))) (hx : x.supply = (x.request.file? m).bind files)
    (r : SharedReader)
    (s : System MapRequest SharedReader (Option (List UInt8)) MapStage
      (Except PrefixError (Option LoadedMap))) (h : s.At x.thread .idle none r) :
    ∃ k answer r', ((service m).alone x k s).At x.thread .idle none r' ∧
      .answer x.thread x.request answer ∈ ((service m).alone x k s).log ∧
      answer.map (·.map (·.map)) =
        ((view m r).mapFor files x.request.key x.request.locale).answer ∧
      view m r' = ((view m r).mapFor files x.request.key x.request.locale).state := by
  obtain ⟨answer, r', hserves, hanswer, hmaps⟩ := serves_mapFor m files x.request r
  rw [← hx] at hserves
  obtain ⟨k, hend, hgiven⟩ := h.served hserves
  exact ⟨k, answer, r', hend, hgiven, hanswer, hmaps⟩

end SharedReader

end NumberPlan
