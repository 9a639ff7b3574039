import Mathlib.Data.List.Nodup
import NumberPlan.Prefixes.Requests
import NumberPlan.Proofs.Text.Entries

/-!
# Answers without a cache

A reader keeps the maps it has loaded.  Every one of them is what its file holds (`Faithful`), so a
request is answered as the files alone would have it (`answerFrom`), and what is kept decides only
which of the files that a request needs (`Needs`) are asked for.

    r.Faithful files → (r.reply files q).answer = answerFrom files r.mapping q     (serves_reply)
    file ∈ (r.reply files q).asked ↔ Needs files r.mapping q file ∧ ¬ r.Keeps file  (serves_reply)

What a step does to the files that are kept and asked for is said once (`Serves`), and two steps in
a row do what both do (`Serves.andThen`).
-/

namespace NumberPlan

namespace PrefixReader

/-! ## What the files say -/

/-- The file holds a map. -/
def Readable (files : Files) (file : String) : Prop :=
  ∃ map, readFile PrefixMap.read files file = .ok map

theorem readable_or_error (files : Files) (file : String) :
    Readable files file ∨ ∃ e, readFile PrefixMap.read files file = .error e := by
  unfold Readable
  cases readFile PrefixMap.read files file with
  | ok map => exact Or.inl ⟨map, rfl⟩
  | error e => exact Or.inr ⟨e, rfl⟩

theorem not_readable_of_error (files : Files) (file : String) (e : PrefixError)
    (h : readFile PrefixMap.read files file = .error e) : ¬Readable files file := by
  rintro ⟨map, hmap⟩
  cases h.symm.trans hmap

/-- The map that the files hold for a key in the best language, if one is listed. -/
def mapFrom (files : Files) (m : Mapping) (key : Int) (l : Mapping.Locale) :
    Except PrefixError (Option PrefixMap) :=
  match m.fileFor? key l with
  | none => .ok none
  | some file => (readFile PrefixMap.read files file).map some

/-- The answer that the files alone give. -/
def answerFrom (files : Files) (m : Mapping) (q : NumberRequest) : Except PrefixError String :=
  match q.key? with
  | none => .ok ""
  | some key =>
    match mapFrom files m key q.locale with
    | .error e => .error e
    | .ok map =>
      match q.describedIn map with
      | some s => .ok s
      | none =>
        if mayFallBack q.locale.language then
          (mapFrom files m key english).map fun map => (q.describedIn map).getD ""
        else .ok ""

/-- In English there is one map to be asked. -/
theorem answerFrom_english (files : Files) (m : Mapping) (q : NumberRequest)
    (hlocale : q.locale = english) (key : Int) (hkey : q.key? = some key) (map : Option PrefixMap)
    (hmap : mapFrom files m key english = .ok map) :
    answerFrom files m q = .ok ((map.bind fun map => map.lookup q.code q.number).getD "") := by
  have hback : mayFallBack english.language = true := by decide
  have hgetD : (q.describedIn map).getD "" =
      (map.bind fun map => map.lookup q.code q.number).getD "" := by
    unfold NumberRequest.describedIn describeIn
    cases map.bind fun map => map.lookup q.code q.number with
    | none => rfl
    | some s =>
      by_cases hs : s.isEmpty = true
      · obtain rfl := String.isEmpty_iff.mp hs
        rfl
      · simp [Option.filter, hs]
  unfold answerFrom
  simp only [hkey, hlocale, hmap, hback, if_true]
  rw [← hgetD]
  cases hfound : q.describedIn map with
  | none =>
    rw [Except.map, hfound]
  | some s => rfl

/-- The files that a request has to be answered from: that of its own language, and that of English
where the first says nothing. -/
inductive Needs (files : Files) (m : Mapping) (q : NumberRequest) : String → Prop
  | requested (key : Int) (hkey : q.key? = some key) (file : String)
      (hfile : m.fileFor? key q.locale = some file) : Needs files m q file
  | fallback (key : Int) (hkey : q.key? = some key) (map : Option PrefixMap)
      (hmap : mapFrom files m key q.locale = .ok map) (hnone : q.describedIn map = none)
      (hback : mayFallBack q.locale.language = true) (file : String)
      (hfile : m.fileFor? key english = some file) : Needs files m q file

/-- A file that cannot be read fails the requests that need it. -/
theorem Needs.answerFrom_error (files : Files) (m : Mapping) (q : NumberRequest) (file : String)
    (h : Needs files m q file) (e : PrefixError)
    (he : readFile PrefixMap.read files file = .error e) : answerFrom files m q = .error e := by
  cases h with
  | requested key hkey file hfile =>
    have hmap : mapFrom files m key q.locale = .error e := by
      unfold mapFrom
      simp only [hfile, he]
      rfl
    unfold answerFrom
    simp only [hkey, hmap]
  | fallback key hkey map hmap hnone hback file hfile =>
    have henglish : mapFrom files m key english = .error e := by
      unfold mapFrom
      simp only [hfile, he]
      rfl
    unfold answerFrom
    simp only [hkey, hmap, hnone, hback, henglish, if_true]
    rfl

/-! ## What a step keeps and asks for -/

/-- The map of a file is kept. -/
def Keeps (r : PrefixReader) (file : String) : Prop := ∃ map, r.maps.lookup file = some map

theorem keeps_iff_mem (r : PrefixReader) (file : String) :
    r.Keeps file ↔ file ∈ r.maps.map Prod.fst := by
  rw [Keeps, ← Option.isSome_iff_exists, Option.isSome_iff_ne_none, Ne, lookup_eq_none_iff_notMem,
    not_not]

/-- Every map that is kept is what its file holds. -/
def Faithful (files : Files) (r : PrefixReader) : Prop :=
  ∀ file map, r.maps.lookup file = some map → readFile PrefixMap.read files file = .ok map

theorem faithful_ofMapping (files : Files) (m : Mapping) : (ofMapping m).Faithful files := by
  intro file map h
  cases h

theorem Faithful.readable {files : Files} {r : PrefixReader} (h : r.Faithful files) (file : String)
    (hkeeps : r.Keeps file) : Readable files file := by
  obtain ⟨map, hmap⟩ := hkeeps
  exact ⟨map, h file map hmap⟩

/-- A step of a reader that wants some files asks for those it does not keep, and from then on keeps
those that can be read. -/
structure Serves (files : Files) (r : PrefixReader) (wanted : String → Prop)
    (state : PrefixReader) (asked : List String) : Prop where
  mapping_eq : state.mapping = r.mapping
  faithful : state.Faithful files
  mem_asked : ∀ file, file ∈ asked ↔ wanted file ∧ ¬r.Keeps file
  nodup : asked.Nodup
  keeps_iff : ∀ file, state.Keeps file ↔ r.Keeps file ∨ wanted file ∧ Readable files file

section

variable {files : Files} {r : PrefixReader}

theorem serves_nothing (h : r.Faithful files) : Serves files r (fun _ => False) r [] where
  mapping_eq := rfl
  faithful := h
  mem_asked file := by simp
  nodup := List.nodup_nil
  keeps_iff file := by simp

theorem Serves.congr {wanted wanted' : String → Prop} {state : PrefixReader} {asked : List String}
    (h : Serves files r wanted state asked) (hw : ∀ file, wanted file ↔ wanted' file) :
    Serves files r wanted' state asked := by
  obtain rfl : wanted = wanted' := funext fun file => propext (hw file)
  exact h

/-- Two steps in a row, where the first got all it wanted. -/
theorem Serves.andThen {first second : String → Prop} {mid state : PrefixReader}
    {asked asked' : List String} (h : Serves files r first mid asked)
    (h' : Serves files mid second state asked')
    (hfirst : ∀ file, first file → Readable files file) :
    Serves files r (fun file => first file ∨ second file) state (asked ++ asked') where
  mapping_eq := h'.mapping_eq.trans h.mapping_eq
  faithful := h'.faithful
  mem_asked file := by
    have hread := hfirst file
    rw [List.mem_append, h.mem_asked, h'.mem_asked, h.keeps_iff]
    tauto
  nodup := by
    refine List.nodup_append.mpr ⟨h.nodup, h'.nodup, ?_⟩
    rintro file hasked _ hasked' rfl
    obtain ⟨hwanted, -⟩ := (h.mem_asked file).mp hasked
    -- what the first step asked for is kept by the second
    exact ((h'.mem_asked file).mp hasked').2
      ((h.keeps_iff file).mpr (Or.inr ⟨hwanted, hfirst file hwanted⟩))
  keeps_iff file := by
    rw [h'.keeps_iff, h.keeps_iff]
    tauto

theorem mem_singleton_iff_of_not_kept (file : String) (hold : r.maps.lookup file = none)
    (f : String) : f ∈ [file] ↔ file = f ∧ ¬r.Keeps f := by
  rw [List.mem_singleton]
  constructor
  · rintro rfl
    refine ⟨rfl, ?_⟩
    rintro ⟨map, hmap⟩
    cases hold.symm.trans hmap
  · exact fun hf => hf.1.symm

variable (h : r.Faithful files)

include h

/-- A map that is kept is not asked for. -/
theorem serves_kept (file : String) (map : PrefixMap) (hold : r.maps.lookup file = some map) :
    Serves files r (fun f => file = f) r [] where
  mapping_eq := rfl
  faithful := h
  mem_asked f := by
    simp only [List.not_mem_nil, false_iff, not_and, not_not]
    rintro rfl
    exact ⟨map, hold⟩
  nodup := List.nodup_nil
  keeps_iff f := by
    refine (or_iff_left_of_imp ?_).symm
    rintro ⟨rfl, -⟩
    exact ⟨map, hold⟩

/-- A file that cannot be read leaves the reader as it is. -/
theorem serves_failed (file : String) (hold : r.maps.lookup file = none) (e : PrefixError)
    (hread : readFile PrefixMap.read files file = .error e) :
    Serves files r (fun f => file = f) r [file] where
  mapping_eq := rfl
  faithful := h
  mem_asked f := mem_singleton_iff_of_not_kept file hold f
  nodup := List.nodup_singleton file
  keeps_iff f := by
    refine (or_iff_left_of_imp ?_).symm
    rintro ⟨rfl, hf⟩
    exact absurd hf (not_readable_of_error files file e hread)

/-- A map that was read is kept. -/
theorem serves_loaded (file : String) (hold : r.maps.lookup file = none) (map : PrefixMap)
    (hread : readFile PrefixMap.read files file = .ok map) :
    Serves files r (fun f => file = f) { r with maps := (file, map) :: r.maps } [file] := by
  have hlookup : ∀ f, ((file, map) :: r.maps).lookup f
      = if f = file then some map else r.maps.lookup f := by
    intro f
    rw [List.lookup_cons]
    by_cases hf : f = file
    · simp [hf]
    · rw [if_neg hf, beq_eq_false_iff_ne.mpr hf]
  refine ⟨rfl, fun f map' hf => ?_, mem_singleton_iff_of_not_kept file hold,
    List.nodup_singleton file, fun f => ?_⟩
  · rw [hlookup] at hf
    split at hf
    · next heq =>
      obtain rfl := Option.some.inj hf
      rw [heq]
      exact hread
    · exact h f map' hf
  · unfold Keeps
    dsimp only
    rw [hlookup]
    by_cases hf : f = file
    · rw [if_pos hf]
      subst hf
      exact ⟨fun _ => Or.inr ⟨rfl, map, hread⟩, fun _ => ⟨map, rfl⟩⟩
    · rw [if_neg hf]
      refine (or_iff_left_of_imp ?_).symm
      rintro ⟨rfl, -⟩
      exact absurd rfl hf

theorem serves_requireMap (file : String) :
    (r.requireMap files file).answer = readFile PrefixMap.read files file ∧
      Serves files r (fun f => file = f) (r.requireMap files file).state
        (r.requireMap files file).asked := by
  unfold requireMap
  cases hold : r.maps.lookup file with
  | some map => exact ⟨(h file map hold).symm, serves_kept h file map hold⟩
  | none =>
    cases hread : readFile PrefixMap.read files file with
    | error e => exact ⟨rfl, serves_failed h file hold e hread⟩
    | ok map => exact ⟨rfl, serves_loaded h file hold map hread⟩

theorem serves_mapFor (key : Int) (l : Mapping.Locale) :
    (r.mapFor files key l).answer = mapFrom files r.mapping key l ∧
      Serves files r (fun f => r.mapping.fileFor? key l = some f) (r.mapFor files key l).state
        (r.mapFor files key l).asked := by
  unfold mapFor mapFrom
  cases hfile : r.mapping.fileFor? key l with
  | none => exact ⟨rfl, (serves_nothing h).congr fun f => by simp⟩
  | some file =>
    obtain ⟨hanswer, hserves⟩ := serves_requireMap h file
    exact ⟨congrArg (·.map some) hanswer, hserves.congr fun f => by simp⟩

end

/-- A file that was listed and gave no error can be read. -/
theorem readable_of_mapFrom (files : Files) (m : Mapping) (key : Int) (l : Mapping.Locale)
    (map : Option PrefixMap) (h : mapFrom files m key l = .ok map) (file : String)
    (hfile : m.fileFor? key l = some file) : Readable files file := by
  unfold mapFrom at h
  simp only [hfile] at h
  rcases readable_or_error files file with hread | ⟨e, he⟩
  · exact hread
  · rw [he] at h
    cases h

theorem needs_iff (files : Files) (m : Mapping) (q : NumberRequest) (key : Int)
    (hkey : q.key? = some key) (file : String) :
    Needs files m q file ↔ m.fileFor? key q.locale = some file ∨
      (∃ map, mapFrom files m key q.locale = .ok map ∧ q.describedIn map = none) ∧
        mayFallBack q.locale.language = true ∧ m.fileFor? key english = some file := by
  constructor
  · intro hneeds
    cases hneeds with
    | requested key' hkey' _ hfile =>
      obtain rfl := Option.some.inj (hkey.symm.trans hkey')
      exact Or.inl hfile
    | fallback key' hkey' map hmap hnone hback _ hfile =>
      obtain rfl := Option.some.inj (hkey.symm.trans hkey')
      exact Or.inr ⟨⟨map, hmap, hnone⟩, hback, hfile⟩
  · rintro (hfile | ⟨⟨map, hmap, hnone⟩, hback, hfile⟩)
    · exact .requested key hkey file hfile
    · exact .fallback key hkey map hmap hnone hback file hfile

theorem not_needs (files : Files) (m : Mapping) (q : NumberRequest) (hkey : q.key? = none)
    (file : String) : ¬Needs files m q file := by
  intro hneeds
  cases hneeds with
  | requested key hkey' _ _ => cases hkey.symm.trans hkey'
  | fallback key hkey' _ _ _ _ _ _ => cases hkey.symm.trans hkey'

section

variable {files : Files} {r : PrefixReader} (h : r.Faithful files) (q : NumberRequest)

include h

/-- A request is answered from the files, and asks for those it needs that are not kept. -/
theorem serves_reply :
    (r.reply files q).answer = answerFrom files r.mapping q ∧
      Serves files r (Needs files r.mapping q) (r.reply files q).state
        (r.reply files q).asked := by
  unfold reply describe answerFrom
  cases hkey : q.key? with
  | none =>
    have hkey' : fileKey? q.code q.number = none := hkey
    simp only [hkey']
    refine ⟨trivial, (serves_nothing h).congr fun file => ?_⟩
    exact (iff_false_left not_false).mpr (not_needs files r.mapping q hkey file)
  | some key =>
    have hkey' : fileKey? q.code q.number = some key := hkey
    obtain ⟨hanswer, hserves⟩ := serves_mapFor h key q.locale
    simp only [hkey', hanswer]
    cases hmap : mapFrom files r.mapping key q.locale with
    | error e =>
      refine ⟨rfl, hserves.congr fun file => ?_⟩
      rw [needs_iff files r.mapping q key hkey, hmap]
      simp
    | ok map =>
      have hread := readable_of_mapFrom files r.mapping key q.locale map hmap
      have hdescribed : describeIn map q.code q.number = q.describedIn map := rfl
      simp only [hdescribed]
      cases hfound : q.describedIn map with
      | some s =>
        refine ⟨rfl, hserves.congr fun file => ?_⟩
        rw [needs_iff files r.mapping q key hkey, hmap]
        simp [hfound]
      | none =>
        by_cases hback : mayFallBack q.locale.language = true
        · simp only [hback, if_true]
          obtain ⟨hanswer', hserves'⟩ := serves_mapFor hserves.faithful key english
          rw [hserves.mapping_eq] at hanswer' hserves'
          refine ⟨congrArg (·.map fun map => (q.describedIn map).getD "") hanswer', ?_⟩
          refine (hserves.andThen hserves' hread).congr fun file => ?_
          rw [needs_iff files r.mapping q key hkey, hmap]
          simp [hfound, hback]
        · simp only [hback]
          refine ⟨rfl, hserves.congr fun file => ?_⟩
          rw [needs_iff files r.mapping q key hkey]
          simp [hback]

/-- After requests, what is kept is what was kept before and what they needed and could be read. -/
theorem after_spec (qs : List NumberRequest) :
    (r.after files qs).mapping = r.mapping ∧ (r.after files qs).Faithful files ∧
      ∀ file, (r.after files qs).Keeps file ↔
        r.Keeps file ∨ (∃ q ∈ qs, Needs files r.mapping q file) ∧ Readable files file := by
  induction qs generalizing r with
  | nil =>
    refine ⟨rfl, h, fun file => ?_⟩
    simp [after]
  | cons q qs ih =>
    obtain ⟨-, hserves⟩ := serves_reply h q
    obtain ⟨hmapping, hfaithful, hkeeps⟩ := ih hserves.faithful
    rw [hserves.mapping_eq] at hmapping hkeeps
    refine ⟨hmapping, hfaithful, fun file => ?_⟩
    change (after files (r.reply files q).state qs).Keeps file ↔ _
    rw [hkeeps, hserves.keeps_iff, List.exists_mem_cons_iff]
    tauto

/-- A file that can be read is asked for once, unless it is kept already. -/
theorem count_asked (qs : List NumberRequest) (file : String) (hread : Readable files file) :
    (r.asked files qs).count file ≤ 1 ∧ (r.Keeps file → file ∉ r.asked files qs) := by
  induction qs generalizing r with
  | nil => exact ⟨Nat.zero_le 1, fun _ => List.not_mem_nil⟩
  | cons q qs ih =>
    obtain ⟨-, hserves⟩ := serves_reply h q
    obtain ⟨hcount, hnot⟩ := ih hserves.faithful
    unfold asked
    rw [List.count_append, List.mem_append]
    by_cases hfirst : file ∈ (r.reply files q).asked
    · obtain ⟨hneeds, hkeeps⟩ := (hserves.mem_asked file).mp hfirst
      -- it is kept from now on
      have hlater := hnot ((hserves.keeps_iff file).mpr (Or.inr ⟨hneeds, hread⟩))
      have hone := List.nodup_iff_count_le_one.mp hserves.nodup file
      rw [List.count_eq_zero_of_not_mem hlater]
      exact ⟨hone, fun hkept => absurd hkept hkeeps⟩
    · rw [List.count_eq_zero_of_not_mem hfirst, Nat.zero_add]
      refine ⟨hcount, fun hkept => ?_⟩
      rintro (hmem | hmem)
      · exact hfirst hmem
      · exact hnot ((hserves.keeps_iff file).mpr (Or.inl hkept)) hmem

/-- A request after others is answered from the files too. -/
theorem answer_reply_after (qs : List NumberRequest) :
    ((r.after files qs).reply files q).answer = answerFrom files r.mapping q := by
  obtain ⟨hmapping, hfaithful, -⟩ := after_spec h qs
  rw [(serves_reply hfaithful q).1, hmapping]

end

/-- After any requests, a reader answers as one that has not been used.  A file that holds a map is
asked for once in the course of them, and any other by every request that needs it: such a file is
never kept, and those requests fail with its error. -/
theorem requests_uncached (m : Mapping) (files : Files) (qs : List NumberRequest) :
    (∀ q, (((ofMapping m).after files qs).reply files q).answer =
      ((ofMapping m).reply files q).answer) ∧
    (∀ file, Readable files file → ((ofMapping m).asked files qs).count file ≤ 1) ∧
    (∀ q file, file ∈ (((ofMapping m).after files qs).reply files q).asked ↔
      Needs files m q file ∧ (Readable files file → ∀ q' ∈ qs, ¬Needs files m q' file)) ∧
    ∀ file e, readFile PrefixMap.read files file = .error e →
      file ∉ ((ofMapping m).after files qs).maps.map Prod.fst ∧
      ∀ q, Needs files m q file →
        (((ofMapping m).after files qs).reply files q).answer = .error e := by
  have hfresh := faithful_ofMapping files m
  obtain ⟨hmapping, hfaithful, hkeeps⟩ := after_spec hfresh qs
  refine ⟨fun q => ?_, fun file hread => (count_asked hfresh qs file hread).1, fun q file => ?_,
    fun file e he => ⟨fun hmem => ?_, fun q hneeds => ?_⟩⟩
  · rw [answer_reply_after hfresh q qs, (serves_reply hfresh q).1]
  · rw [(serves_reply hfaithful q).2.mem_asked, hmapping, hkeeps]
    have hempty : ¬(ofMapping m).Keeps file := by
      rintro ⟨map, hmap⟩
      cases hmap
    change Needs files m q file ∧ ¬(_ ∨ (∃ q' ∈ qs, Needs files m q' file) ∧ _) ↔ _
    constructor
    · rintro ⟨hneeds, hnot⟩
      exact ⟨hneeds, fun hread q' hq' hneeds' => hnot (Or.inr ⟨⟨q', hq', hneeds'⟩, hread⟩)⟩
    · rintro ⟨hneeds, hnot⟩
      refine ⟨hneeds, ?_⟩
      rintro (hkept | ⟨⟨q', hq', hneeds'⟩, hread⟩)
      · exact hempty hkept
      · exact hnot hread q' hq' hneeds'
  · exact not_readable_of_error files file e he
      (hfaithful.readable file ((keeps_iff_mem _ file).mpr hmem))
  · rw [answer_reply_after hfresh q qs]
    exact hneeds.answerFrom_error files m q file e he

/-- Code 44 in English and German. -/
def germanAndEnglish : Mapping := .ofEntries [(44, ["de", "en"])]

/-- The German file ends early. -/
def germanCutShort : Files :=
  (Files.empty.put "44_de" [0, 0, 0]).put "44_en"
    [0, 0, 0, 0, 1, 0, 0, 0, 44, 0, 2, 85, 75, 0, 0, 0, 1, 0, 0, 0, 2]

def inGerman : NumberRequest := ⟨44, "2070313000", "de", "", ""⟩

/-- English stands in for French. -/
def inFrench : NumberRequest := ⟨44, "2070313000", "fr", "FR", ""⟩

theorem requests_uncached_cutShort :
    (((ofMapping germanAndEnglish).after germanCutShort [inGerman, inFrench]).reply germanCutShort
        inFrench).answer = .ok "UK" ∧
      ((ofMapping germanAndEnglish).asked germanCutShort
        [inFrench, inGerman, inFrench]).count "44_en" ≤ 1 ∧
      "44_de" ∈ (((ofMapping germanAndEnglish).after germanCutShort [inGerman]).reply germanCutShort
        inGerman).asked ∧
      "44_de" ∉
        ((ofMapping germanAndEnglish).after germanCutShort [inGerman]).maps.map Prod.fst := by
  have hgerman : readFile PrefixMap.read germanCutShort "44_de" =
      .error (.malformed "44_de" (.input .endsEarly)) := by rfl
  have henglish : Readable germanCutShort "44_en" := ⟨⟨.plain ⟨#[(44, "UK")], [2]⟩⟩, by rfl⟩
  have hneeds : Needs germanCutShort germanAndEnglish inGerman "44_de" :=
    .requested 44 (by rfl) "44_de" (by rfl)
  obtain ⟨hanswer, -⟩ := requests_uncached germanAndEnglish germanCutShort [inGerman, inFrench]
  obtain ⟨-, hcount, -⟩ :=
    requests_uncached germanAndEnglish germanCutShort [inFrench, inGerman, inFrench]
  obtain ⟨-, -, hasked, hnever⟩ := requests_uncached germanAndEnglish germanCutShort [inGerman]
  refine ⟨(hanswer inFrench).trans (by rfl), hcount "44_en" henglish,
    (hasked inGerman "44_de").mpr ⟨hneeds, fun hread => ?_⟩, (hnever "44_de" _ hgerman).1⟩
  exact absurd hread (not_readable_of_error _ _ _ hgerman)

end PrefixReader

end NumberPlan
