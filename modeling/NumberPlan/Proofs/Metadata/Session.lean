import Mathlib.Data.List.Induction
import NumberPlan.Metadata.Session
import NumberPlan.Proofs.Metadata.Archive

/-!
# Failures leave no trace, and what is loaded stays

A question ends in one of six ways (`Source.Outcome`), and only one of them changes the archive.
Over a session, what has been loaded is what some question loaded (`mem_loaded_iff`), and all that
is shown was held by a file when it was loaded (`filled`).  From then on the file is not looked at
any more:

    s.Loads files es file rs →
      s.replies (s.after files es) later = s.replies (s.after files es) (later without file)

So a session is accounted for by its successful loads alone (`session_loads`).  Nothing is assumed
of the functions that name the files and parse them.
-/

namespace NumberPlan

/-- Why a key of the wrong kind is refused. -/
def RecordKey.refusal : RecordKey → MetadataError
  | .region id => .nonGeographicRegion id
  | .code c => .geographicCode c

/-- The event changes the file. -/
def SessionEvent.changes (file : String) : SessionEvent → Bool
  | .put f _ => f == file
  | .delete f => f == file
  | .ask _ => false

namespace Source

/-! ## One question -/

/-- The key may be asked for: it is no mark, or it is no code of regions. -/
def Permits (s : Source) : RecordKey → Prop
  | .region id => Region.isNonGeographic id = false
  | .code c => s.registry.isGeographic c = false

/-- The registry has the key. -/
def Knows (s : Source) : RecordKey → Prop
  | .region id => (s.registry.codeOf? id).isSome = true
  | .code c => s.registry.isKnown c = true

/-- A question for the key has to be answered from this file. -/
structure Needs (s : Source) (k : RecordKey) (file : String) : Prop where
  permitted : s.Permits k
  known : s.Knows k
  named : s.fileFor k.text = .ok file

theorem Needs.unique {s : Source} {k : RecordKey} {file file' : String} (h : s.Needs k file)
    (h' : s.Needs k file') : file = file' :=
  Except.ok.inj (h.named.symm.trans h'.named)

/-- The ways a question for a key can end. -/
inductive Outcome (s : Source) (w : Session) (k : RecordKey) : Reply Archive Answer → Prop
  | refused (h : ¬s.Permits k) : Outcome s w k ⟨.error k.refusal, w.archive, []⟩
  | unknown (h : s.Permits k) (hk : ¬s.Knows k) : Outcome s w k ⟨.ok none, w.archive, []⟩
  | unnamed (h : s.Permits k) (hk : s.Knows k) (e : MetadataError)
      (hname : s.fileFor k.text = .error e) : Outcome s w k ⟨.error e, w.archive, []⟩
  | cached (file : String) (h : s.Needs k file) (hold : file ∈ w.archive.loaded) :
      Outcome s w k ⟨.ok (w.archive.store.find? k), w.archive, []⟩
  | failed (file : String) (h : s.Needs k file) (hnew : file ∉ w.archive.loaded)
      (e : MetadataError) (hread : Archive.readFile s.parse w.files file = .error e) :
      Outcome s w k ⟨.error e, w.archive, [file]⟩
  | loaded (file : String) (h : s.Needs k file) (hnew : file ∉ w.archive.loaded)
      (rs : List Record) (hread : Archive.readFile s.parse w.files file = .ok rs) :
      Outcome s w k ⟨.ok ((w.archive.store.acceptAll rs).find? k),
        ⟨file :: w.archive.loaded, w.archive.store.acceptAll rs⟩, [file]⟩

theorem outcome_fetch (s : Source) (w : Session) (k : RecordKey) (h : s.Permits k)
    (hk : s.Knows k) :
    s.Outcome w k (s.fetch w.files k.text (·.find? k) w.archive) := by
  unfold fetch Archive.require
  split
  · next e hname => exact .unnamed h hk e hname
  · next file hname =>
    have hneeds : s.Needs k file := ⟨h, hk, hname⟩
    split
    · next hold => exact .cached file hneeds ((Archive.isLoaded_iff ..).mp hold)
    · next hnot =>
      have hnew : file ∉ w.archive.loaded := fun hold => hnot ((Archive.isLoaded_iff ..).mpr hold)
      split
      · next e hread => exact .failed file hneeds hnew e hread
      · next rs hread => exact .loaded file hneeds hnew rs hread

theorem outcome_ofRegion (s : Source) (w : Session) (region : String) :
    s.Outcome w (.region region) (s.ofRegion w.files region w.archive) := by
  unfold ofRegion
  split
  · next hmark => exact .refused fun h => Bool.false_ne_true (h.symm.trans hmark)
  · next hmark =>
    have h : s.Permits (.region region) := Bool.eq_false_iff.mpr hmark
    split
    · next hnone => exact .unknown h fun hk => by simp only [Knows, hnone] at hk; cases hk
    · next code hsome =>
      exact s.outcome_fetch w (.region region) h (Option.isSome_iff_exists.mpr ⟨code, hsome⟩)

theorem outcome_ofNonGeographic (s : Source) (w : Session) (code : Int) :
    s.Outcome w (.code code) (s.ofNonGeographic w.files code w.archive) := by
  unfold ofNonGeographic
  split
  · next hgeo => exact .refused fun h => Bool.false_ne_true (h.symm.trans hgeo)
  · next hgeo =>
    have h : s.Permits (.code code) := Bool.eq_false_iff.mpr hgeo
    split
    · next hk => exact s.outcome_fetch w (.code code) h hk
    · next hk => exact .unknown h hk

theorem outcome_reply (s : Source) (w : Session) (q : Query) :
    s.Outcome w q.key (s.reply w q) := by
  cases q with
  | region region => exact s.outcome_ofRegion w region
  | nonGeographic code => exact s.outcome_ofNonGeographic w code
  | either code region =>
    by_cases hmark : Region.isNonGeographic region = true
    · simp only [Query.key, reply, ofEither, hmark, if_true]
      exact s.outcome_ofNonGeographic w code
    · simp only [Query.key, reply, ofEither, hmark]
      exact s.outcome_ofRegion w region

section

variable {s : Source} {w : Session} {k : RecordKey} {r : Reply Archive Answer}
  (h : s.Outcome w k r)

include h

theorem Outcome.asked_iff (file : String) :
    r.asked = [file] ↔ s.Needs k file ∧ file ∉ w.archive.loaded := by
  cases h with
  | refused hno => exact ⟨nofun, fun hn => absurd hn.1.permitted hno⟩
  | unknown _ hno => exact ⟨nofun, fun hn => absurd hn.1.known hno⟩
  | unnamed _ _ e hname => exact ⟨nofun, fun hn => nomatch hname.symm.trans hn.1.named⟩
  | cached f hf hold => exact ⟨nofun, fun hn => absurd (hf.unique hn.1 ▸ hold) hn.2⟩
  | failed f hf hnew | loaded f hf hnew =>
    constructor
    · intro heq
      obtain rfl := List.singleton_inj.mp heq
      exact ⟨hf, hnew⟩
    · rintro ⟨hn, -⟩
      rw [hf.unique hn]

theorem Outcome.asked_once : r.asked = [] ∨ ∃ file, r.asked = [file] := by
  cases h with
  | refused | unknown | unnamed | cached => exact Or.inl rfl
  | failed f | loaded f => exact Or.inr ⟨f, rfl⟩

/-- A question that fails, or that has no record to find, changes nothing. -/
theorem Outcome.state_eq (hr : (∃ e, r.answer = .error e) ∨ ¬s.Knows k) : r.state = w.archive := by
  cases h with
  | refused | unknown | unnamed | cached | failed => rfl
  | loaded f hf =>
    rcases hr with ⟨e, he⟩ | hno
    · cases he
    · exact absurd hf.known hno

theorem Outcome.answer_unknown (hp : s.Permits k) (hk : ¬s.Knows k) : r.answer = .ok none := by
  cases h with
  | refused hno => exact absurd hp hno
  | unknown => rfl
  | unnamed _ hyes => exact absurd hyes hk
  | cached f hf | failed f hf | loaded f hf => exact absurd hf.known hk

/-- A record that is answered with is in the store from then on. -/
theorem Outcome.find?_of_answer (record : Record) (hr : r.answer = .ok (some record)) :
    r.state.store.find? k = some record := by
  cases h with
  | refused | unknown | unnamed | failed => cases hr
  | cached | loaded => exact Except.ok.inj hr

/-- The archive stays as it is, or a file is loaded into it that was not there. -/
theorem Outcome.kept_or_loaded :
    (r.state = w.archive ∧
        ∀ file ∈ r.asked, ∀ rs, Archive.readFile s.parse w.files file ≠ .ok rs) ∨
      ∃ file rs, r.asked = [file] ∧ Archive.readFile s.parse w.files file = .ok rs ∧
        file ∉ w.archive.loaded ∧
        r.state = ⟨file :: w.archive.loaded, w.archive.store.acceptAll rs⟩ := by
  cases h with
  | refused | unknown | unnamed | cached => exact Or.inl ⟨rfl, nofun⟩
  | failed f _ _ e hread =>
    refine Or.inl ⟨rfl, fun file hfile rs hrs => ?_⟩
    obtain rfl := List.mem_singleton.mp hfile
    cases hread.symm.trans hrs
  | loaded f _ hnew rs hread => exact Or.inr ⟨f, rs, rfl, hread, hnew, rfl⟩

end

/-! ## The loads of a session -/

/-- At one of the events the file was asked for, and held these records. -/
def Loads (s : Source) (files : Files) (es : List SessionEvent) (file : String)
    (rs : List Record) : Prop :=
  ∃ before q later, es = before ++ .ask q :: later ∧
    file ∈ (s.reply (s.after files before) q).asked ∧
    Archive.readFile s.parse (s.after files before).files file = .ok rs

section

variable (s : Source) (files : Files)

theorem after_snoc (es : List SessionEvent) (e : SessionEvent) :
    s.after files (es ++ [e]) = s.next (s.after files es) e :=
  List.foldl_append ..

theorem Loads.append {s : Source} {files : Files} {es : List SessionEvent} {file : String}
    {rs : List Record} (h : s.Loads files es file rs) (more : List SessionEvent) :
    s.Loads files (es ++ more) file rs := by
  obtain ⟨before, q, later, rfl, hasked, hread⟩ := h
  exact ⟨before, q, later ++ more, by rw [List.append_assoc]; rfl, hasked, hread⟩

/-- An event changes the archive only if it is a question that loads a file. -/
theorem archive_next (w : Session) (e : SessionEvent) :
    (s.next w e).archive = w.archive ∨
      ∃ q file rs, e = .ask q ∧ (s.reply w q).asked = [file] ∧
        Archive.readFile s.parse w.files file = .ok rs ∧ file ∉ w.archive.loaded ∧
        (s.next w e).archive = ⟨file :: w.archive.loaded, w.archive.store.acceptAll rs⟩ := by
  cases e with
  | put | delete => exact Or.inl rfl
  | ask q =>
    rcases (s.outcome_reply w q).kept_or_loaded with
      ⟨hstate, -⟩ | ⟨file, rs, hasked, hread, hnew, hstate⟩
    · exact Or.inl hstate
    · exact Or.inr ⟨q, file, rs, rfl, hasked, hread, hnew, hstate⟩

/-- What is shown was held by the files at their loads. -/
theorem filled (es : List SessionEvent) :
    (s.after files es).archive.FilledFrom (s.Loads files es) := by
  induction es using List.reverseRecOn with
  | nil => exact .empty
  | append_singleton es e ih =>
    have hold := ih.mono fun _ _ hload => hload.append [e]
    rw [after_snoc]
    rcases s.archive_next (s.after files es) e with
      hsame | ⟨q, file, rs, rfl, hasked, hread, hnew, hnext⟩
    · rw [hsame]
      exact hold
    · rw [hnext]
      refine .load _ file rs hold hnew ⟨es, q, [], rfl, ?_, hread⟩
      rw [hasked]
      exact List.mem_singleton_self file

/-- What has been loaded stays loaded. -/
theorem loaded_subset_next (w : Session) (e : SessionEvent) :
    w.archive.loaded ⊆ (s.next w e).archive.loaded := by
  rcases s.archive_next w e with hsame | ⟨q, file, rs, -, -, -, -, hnext⟩
  · rw [hsame]
    exact List.Subset.refl _
  · rw [hnext]
    exact List.subset_cons_self file _

/-- A file has been loaded once some question has loaded it. -/
theorem mem_loaded_iff (es : List SessionEvent) (file : String) :
    file ∈ (s.after files es).archive.loaded ↔ ∃ rs, s.Loads files es file rs := by
  refine ⟨(s.filled files es).exists_held file, ?_⟩
  rintro ⟨rs, before, q, later, rfl, hasked, hread⟩
  -- the question loads the file, and nothing that comes later unloads it
  induction later using List.reverseRecOn with
  | nil =>
    rw [after_snoc]
    rcases (s.outcome_reply (s.after files before) q).kept_or_loaded with
      ⟨-, hnone⟩ | ⟨f, rs', hf, -, -, hstate⟩
    · exact absurd hread (hnone file hasked rs)
    · rw [hf, List.mem_singleton] at hasked
      show file ∈ (s.reply (s.after files before) q).state.loaded
      rw [hstate, hasked]
      exact List.mem_cons_self ..
  | append_singleton later e ih =>
    have hsplit : before ++ .ask q :: (later ++ [e]) = (before ++ .ask q :: later) ++ [e] := by
      rw [List.append_assoc]
      rfl
    rw [hsplit, after_snoc]
    exact s.loaded_subset_next _ e ih

end

/-! ## What is loaded is not looked at again -/

/-- The sessions show the same, and differ at most in files that have been loaded. -/
structure Alike (w w' : Session) : Prop where
  archive : w.archive = w'.archive
  files : ∀ file, file ∉ w.archive.loaded → w.files file = w'.files file

section

variable {s : Source} {w w' : Session} (h : Alike w w')

include h

theorem Alike.reply_eq (q : Query) : s.reply w q = s.reply w' q := by
  obtain ⟨files, a⟩ := w
  obtain ⟨files', a'⟩ := w'
  obtain rfl : a = a' := h.archive
  have hfetch : ∀ key find, s.fetch files key find a = s.fetch files' key find a := by
    intro key find
    unfold fetch
    split
    · rfl
    · next file _ => rw [a.require_congr s.parse files files' file (h.files file)]
  cases q <;> simp only [reply, ofRegion, ofNonGeographic, ofEither, hfetch]

theorem Alike.step (e : SessionEvent) : Alike (s.next w e) (s.next w' e) := by
  have hnew : ∀ file, file ∉ (s.next w e).archive.loaded → w.files file = w'.files file :=
    fun file hfile => h.files file fun hold => hfile (s.loaded_subset_next w e hold)
  cases e with
  | put f bytes =>
    refine ⟨h.archive, fun file hfile => ?_⟩
    simp only [next, Files.put, hnew file hfile]
  | delete f =>
    refine ⟨h.archive, fun file hfile => ?_⟩
    simp only [next, Files.delete, hnew file hfile]
  | ask q => exact ⟨congrArg Reply.state (h.reply_eq q), hnew⟩

/-- Changes of a file that has been loaded make no difference. -/
theorem Alike.skip (file : String) (hfile : file ∈ w.archive.loaded) (e : SessionEvent)
    (he : e.changes file = true) : Alike (s.next w e) w' := by
  have hother : ∀ f, f ∉ w.archive.loaded → f ≠ file := fun f hf heq => hf (heq ▸ hfile)
  cases e with
  | put f bytes =>
    obtain rfl : f = file := beq_iff_eq.mp he
    -- only files that have not been loaded are compared, and this one has
    refine ⟨h.archive, fun f' hf' => ?_⟩
    simp only [next, Files.put, hother f' hf', if_false]
    exact h.files f' hf'
  | delete f =>
    obtain rfl : f = file := beq_iff_eq.mp he
    refine ⟨h.archive, fun f' hf' => ?_⟩
    simp only [next, Files.delete, hother f' hf', if_false]
    exact h.files f' hf'
  | ask q => cases he

end

theorem Alike.replies_filter {s : Source} (file : String) (es : List SessionEvent) :
    ∀ w w', Alike w w' → file ∈ w.archive.loaded →
      s.replies w es = s.replies w' (es.filter fun e => !e.changes file) := by
  induction es with
  | nil => exact fun _ _ _ _ => rfl
  | cons e es ih =>
    intro w w' h hfile
    have hstay := s.loaded_subset_next w e hfile
    by_cases he : e.changes file = true
    · have hrest := ih _ _ (h.skip (s := s) file hfile e he) hstay
      rw [List.filter_cons_of_neg (by rw [he]; exact Bool.false_ne_true), ← hrest]
      cases e with
      | put | delete => rfl
      | ask q => cases he
    · have hrest := ih _ _ (h.step (s := s) e) hstay
      rw [List.filter_cons_of_pos (by rw [Bool.eq_false_iff.mpr he]; rfl)]
      cases e with
      | put | delete => exact hrest
      | ask q => rw [replies, replies, hrest, h.reply_eq q]

/-! ## Sessions -/

/-- A session is accounted for by the loads that succeeded in it. -/
theorem session_loads (s : Source) (files : Files) (es : List SessionEvent) :
    -- a question asks for the file it needs, once, unless that has been loaded
    (∀ q file, (s.reply (s.after files es) q).asked = [file] ↔
      s.Needs q.key file ∧ ¬∃ rs, s.Loads files es file rs) ∧
    (∀ q, (s.reply (s.after files es) q).asked = [] ∨
      ∃ file, (s.reply (s.after files es) q).asked = [file]) ∧
    -- a question that fails, or whose key is not known, changes nothing
    (∀ q, (∃ e, (s.reply (s.after files es) q).answer = .error e) ∨ ¬s.Knows q.key →
      (s.reply (s.after files es) q).state = (s.after files es).archive) ∧
    (∀ q, s.Permits q.key → ¬s.Knows q.key →
      (s.reply (s.after files es) q).answer = .ok none) ∧
    -- what is shown or answered with has been loaded
    (∀ k record, (s.after files es).archive.store.find? k = some record →
      ∃ file rs, s.Loads files es file rs ∧ record ∈ rs) ∧
    (∀ q record, (s.reply (s.after files es) q).answer = .ok (some record) →
      ∃ file rs, s.Loads files (es ++ [.ask q]) file rs ∧ record ∈ rs) ∧
    -- changes of a file that has been loaded make no difference
    (∀ file rs, s.Loads files es file rs → ∀ later later',
      (later.filter fun e => !e.changes file) = (later'.filter fun e => !e.changes file) →
      s.replies (s.after files es) later = s.replies (s.after files es) later') := by
  have houtcome := fun q => s.outcome_reply (s.after files es) q
  refine ⟨fun q file => ?_, fun q => (houtcome q).asked_once, fun q => (houtcome q).state_eq,
    fun q => (houtcome q).answer_unknown, (s.filled files es).exists_held_of_find?,
    fun q record hanswer => ?_, fun file rs hload later later' hsame => ?_⟩
  · rw [(houtcome q).asked_iff, s.mem_loaded_iff files es file]
  · have hfind := (houtcome q).find?_of_answer record hanswer
    refine (s.filled files (es ++ [.ask q])).exists_held_of_find? q.key record ?_
    rw [after_snoc]
    exact hfind
  · have halike : Alike (s.after files es) (s.after files es) := ⟨rfl, fun _ _ => rfl⟩
    have hloaded := (s.mem_loaded_iff files es file).mpr ⟨rs, hload⟩
    rw [halike.replies_filter file later _ _ hloaded, hsame,
      ← halike.replies_filter file later' _ _ hloaded]

/-- A source with one file for its one region. -/
def ofOneFile : Source :=
  ⟨FileNaming.single "plan", ParseMode.strict, .ofEntries [(1, ["US"])]⟩

/-- Bytes that hold the record of that region. -/
def onlyUS : List UInt8 := [10, 6, 74, 2, 85, 83, 80, 1]

/-- The file is missing at first, and broken after its load. -/
theorem session_loads_late :
    (∃ rs, ofOneFile.Loads .empty
      [.ask (.region "US"), .put "plan" onlyUS, .ask (.region "US")] "plan" rs) ∧
    ofOneFile.replies
        (ofOneFile.after .empty [.ask (.region "US"), .put "plan" onlyUS, .ask (.region "US")])
        [.put "plan" [7], .ask (.region "US"), .delete "plan", .ask (.either 1 "US")] =
      ofOneFile.replies
        (ofOneFile.after .empty [.ask (.region "US"), .put "plan" onlyUS, .ask (.region "US")])
        [.ask (.region "US"), .ask (.either 1 "US")] := by
  have hload : ∃ rs, ofOneFile.Loads .empty
      [.ask (.region "US"), .put "plan" onlyUS, .ask (.region "US")] "plan" rs :=
    ⟨_, [.ask (.region "US"), .put "plan" onlyUS], .region "US", [], rfl,
      List.mem_singleton.mpr rfl, rfl⟩
  obtain ⟨-, -, -, -, -, -, hfrozen⟩ := ofOneFile.session_loads .empty
    [.ask (.region "US"), .put "plan" onlyUS, .ask (.region "US")]
  obtain ⟨rs, hrs⟩ := hload
  exact ⟨⟨rs, hrs⟩, hfrozen "plan" rs hrs _ _ rfl⟩

end Source

end NumberPlan
