import Mathlib.Data.List.Basic
import Mathlib.Data.List.Forall2
import NumberPlan.Proofs.Prefixes.Build
import NumberPlan.Proofs.Prefixes.Lines

/-!
# Maps printed and parsed

Parsing reads every line on its own and keeps the last entry of each prefix; a dump has a line for
each entry and nothing else.  For the map `m` that was built of a table `t`:

    parsePrefixes (utf8 m.dump) = .ok t ↔ every description fits its line  (parsePrefixes_dump_iff)

A line is limited with its newline.  The last one may lack it, and then the entry in it can be one
byte too long for a line of a dump.  No other table that was parsed is lost by printing it
(`parsePrefixes_dump_parsed`).
-/

namespace NumberPlan

/-! ## Parsing -/

/-- A line is a short text that says `e`. -/
def Reads (line : List UInt8) (e : Option (Nat × String)) : Prop :=
  ∃ s, line = utf8 s ∧ line.length ≤ maxLine ∧ entryOf s = .ok e

theorem entryOfLine_eq_ok_iff (number : Nat) (line : List UInt8) (e : Option (Nat × String)) :
    entryOfLine number line = .ok e ↔ Reads line e := by
  unfold entryOfLine Reads
  cases hs : ofUtf8? line with
  | none =>
    constructor
    · intro h
      cases h
    · rintro ⟨s, rfl, -⟩
      rw [ofUtf8?_utf8] at hs
      cases hs
  | some s =>
    dsimp only
    constructor
    · intro h
      by_cases hlong : maxLine < line.length
      · rw [if_pos hlong] at h
        cases h
      · rw [if_neg hlong] at h
        exact ⟨s, (ofUtf8?_eq_some_iff line s).mp hs, Nat.le_of_not_lt hlong, h⟩
    · rintro ⟨s', rfl, hle, h⟩
      rw [ofUtf8?_utf8] at hs
      obtain rfl := Option.some.inj hs
      rw [if_neg (Nat.not_lt.mpr hle)]
      exact h

theorem gatherLines_eq_ok_iff (lines : List (List UInt8)) : ∀ number t t',
    gatherLines number t lines = .ok t' ↔ ∃ es, List.Forall₂ Reads lines es ∧
      t' = (es.filterMap id).foldl (fun t e => t.insert e.1 e.2) t := by
  induction lines with
  | nil =>
    intro number t t'
    rw [gatherLines, Except.ok.injEq]
    constructor
    · rintro rfl
      exact ⟨[], List.Forall₂.nil, rfl⟩
    · rintro ⟨es, hes, rfl⟩
      cases hes
      rfl
  | cons line lines ih =>
    intro number t t'
    rw [gatherLines]
    constructor
    · intro h
      split at h
      · cases h
      · next hline =>
        obtain ⟨es, hes, ht⟩ := (ih _ _ _).mp h
        have hreads := (entryOfLine_eq_ok_iff _ _ _).mp hline
        exact ⟨none :: es, List.Forall₂.cons hreads hes, ht⟩
      · next n s hline =>
        obtain ⟨es, hes, ht⟩ := (ih _ _ _).mp h
        have hreads := (entryOfLine_eq_ok_iff _ _ _).mp hline
        exact ⟨some (n, s) :: es, List.Forall₂.cons hreads hes, ht⟩
    · rintro ⟨_, hes, ht⟩
      cases hes with
      | @cons _ e _ es hline hes =>
        rw [(entryOfLine_eq_ok_iff number line e).mpr hline]
        cases e with
        | none => exact (ih _ _ _).mpr ⟨es, hes, ht⟩
        | some e => exact (ih _ _ _).mpr ⟨es, hes, ht⟩

/-- A text is parsed if each of its lines is; later entries replace earlier ones. -/
theorem parsePrefixes_eq_ok_iff (bytes : List UInt8) (t : PrefixTable) :
    parsePrefixes bytes = .ok t ↔ ∃ es, List.Forall₂ Reads (linesFrom [] bytes) es ∧
      t = SortedTable.ofList (es.filterMap id) :=
  gatherLines_eq_ok_iff (linesFrom [] bytes) 1 SortedTable.empty t

theorem exists_line_of_mem (lines : List (List UInt8)) (es : List (Option (Nat × String)))
    (h : List.Forall₂ Reads lines es) (e : Option (Nat × String)) (he : e ∈ es) :
    ∃ line ∈ lines, Reads line e := by
  induction h with
  | nil => cases he
  | @cons line _ lines _ hline _ ih =>
    rcases List.mem_cons.mp he with rfl | he
    · exact ⟨line, List.mem_cons_self, hline⟩
    · obtain ⟨line', hmem, hreads⟩ := ih he
      exact ⟨line', List.mem_cons_of_mem line hmem, hreads⟩

/-! ## Printing -/

/-- The line of an entry. -/
def dumpLine (n : Nat) (s : String) : String := entryText n s ++ "\n"

theorem utf8_dumpLine (n : Nat) (s : String) :
    utf8 (dumpLine n s) = utf8 (entryText n s) ++ [10] := utf8_append _ _

/-- A dump has the lines of its entries. -/
theorem linesFrom_dump (es : List (Nat × String)) (hes : ∀ e ∈ es, '\n' ∉ e.2.toList) :
    linesFrom [] (utf8 (String.join (es.map fun e => dumpLine e.1 e.2))) =
      es.map fun e => utf8 (dumpLine e.1 e.2) := by
  induction es with
  | nil => rfl
  | cons e es ih =>
    obtain ⟨he, hes⟩ := List.forall_mem_cons.mp hes
    have hline : 10 ∉ utf8 (entryText e.1 e.2) := fun hmem =>
      he ((newline_mem_entryText e.1 e.2).mp ((newline_mem_utf8_iff _).mp hmem))
    rw [List.map_cons, List.map_cons, String.join_cons, utf8_append, utf8_dumpLine,
      List.append_assoc, List.singleton_append, linesFrom_newline _ _ hline, ih hes]
    rfl

theorem PrefixMap.dump_eq (t : PrefixTable) (m : PrefixMap) (hm : PrefixMap.build t = .ok m) :
    m.dump = String.join (t.entries.map fun e => dumpLine e.1 e.2) := by
  unfold PrefixMap.dump
  rw [(PrefixMap.build_holds t m hm).entries_eq]
  rfl

theorem last_dump (es : List (Nat × String)) :
    ∀ b ∈ (utf8 (String.join (es.map fun e => dumpLine e.1 e.2))).getLast?, b = 10 := by
  induction es with
  | nil =>
    intro b hb
    cases hb
  | cons e es ih =>
    intro b hb
    rw [List.map_cons, String.join_cons, utf8_append, utf8_dumpLine, List.getLast?_append,
      List.getLast?_concat] at hb
    rcases Option.or_eq_some_iff.mp hb with hb | ⟨-, hb⟩
    · exact ih b hb
    · exact (Option.some.inj hb).symm

/-! ## Reading a dump -/

/-- A description that stays as it is when it is read from a line. -/
structure Unbroken (s : String) : Prop where
  oneLine : '\n' ∉ s.toList
  trimmed : ∀ c ∈ s.toList.getLast?, isSpace c = false

/-- A description that stays as it is when it is read from the line of its entry. -/
structure Printable (n : Nat) (s : String) : Prop extends Unbroken s where
  short : (utf8 (dumpLine n s)).length ≤ maxLine

theorem entryOfLine_dumpLine (number n : Nat) (hn : n < 0x100000000) (s : String)
    (hs : Unbroken s) : entryOfLine number (utf8 (dumpLine n s)) =
      if maxLine < (utf8 (dumpLine n s)).length then .error (.lineTooLong number maxLine)
      else .ok (some (n, s)) := by
  have hentry : entryOf (dumpLine n s) = .ok (some (n, s)) :=
    entryOf_entryText n hn s "\n" hs.trimmed (by decide)
  rw [entryOfLine, ofUtf8?_utf8]
  dsimp only
  rw [hentry]

theorem prefix_lt_of_build (t : PrefixTable) (m : PrefixMap) (hm : PrefixMap.build t = .ok m)
    (e : Nat × String) (he : e ∈ t.entries) : e.1 < 0x100000000 := by
  have hle : e.1 ≤ maxPrefix := (PrefixMap.build_ok t m hm).1 e.1 (List.mem_map_of_mem he)
  have hmax : maxPrefix < 0x100000000 := by decide
  omega

/-- Each line of a dump says its entry. -/
theorem reads_dump (t : PrefixTable) (m : PrefixMap) (hm : PrefixMap.build t = .ok m)
    (ht : ∀ e ∈ t.entries, Printable e.1 e.2) :
    List.Forall₂ Reads (linesFrom [] (utf8 m.dump)) (t.entries.map some) := by
  rw [PrefixMap.dump_eq t m hm, linesFrom_dump _ fun e he => (ht e he).oneLine,
    List.forall₂_map_left_iff, List.forall₂_map_right_iff, List.forall₂_same]
  intro e he
  refine (entryOfLine_eq_ok_iff 1 _ _).mp ?_
  rw [entryOfLine_dumpLine 1 e.1 (prefix_lt_of_build t m hm e he) e.2 (ht e he).toUnbroken,
    if_neg (Nat.not_lt.mpr (ht e he).short)]

theorem ofList_some_entries (t : PrefixTable) :
    t = SortedTable.ofList ((t.entries.map some).filterMap id) := by
  rw [List.filterMap_map, Function.id_comp, List.filterMap_some, SortedTable.ofList_entries]

theorem parsePrefixes_printable (t : PrefixTable) (m : PrefixMap)
    (hm : PrefixMap.build t = .ok m) (ht : ∀ e ∈ t.entries, Printable e.1 e.2) :
    parsePrefixes (utf8 m.dump) = .ok t :=
  (parsePrefixes_eq_ok_iff _ t).mpr ⟨_, reads_dump t m hm ht, ofList_some_entries t⟩

/-- A dump is refused for its first line that is too long. -/
theorem gatherLines_tooLong (es : List (Nat × String))
    (hes : ∀ e ∈ es, e.1 < 0x100000000 ∧ Unbroken e.2)
    (hlong : ∃ e ∈ es, maxLine < (utf8 (dumpLine e.1 e.2)).length) : ∀ number t, ∃ line,
    gatherLines number t (es.map fun e => utf8 (dumpLine e.1 e.2)) =
      .error (.lineTooLong line maxLine) := by
  induction es with
  | nil =>
    obtain ⟨e, he, -⟩ := hlong
    cases he
  | cons e es ih =>
    intro number t
    obtain ⟨⟨hn, hs⟩, hes⟩ := List.forall_mem_cons.mp hes
    rw [List.map_cons, gatherLines, entryOfLine_dumpLine number e.1 hn e.2 hs]
    by_cases he : maxLine < (utf8 (dumpLine e.1 e.2)).length
    · rw [if_pos he]
      exact ⟨number, rfl⟩
    · rw [if_neg he]
      obtain ⟨f, hf, hflong⟩ := hlong
      rcases List.mem_cons.mp hf with rfl | hf
      · exact absurd hflong he
      · exact ih hes ⟨f, hf, hflong⟩ (number + 1) (t.insert e.1 e.2)

theorem parsePrefixes_dump_tooLong (t : PrefixTable) (m : PrefixMap)
    (hm : PrefixMap.build t = .ok m) (ht : ∀ e ∈ t.entries, Unbroken e.2)
    (hlong : ∃ e ∈ t.entries, maxLine < (utf8 (dumpLine e.1 e.2)).length) :
    ∃ line, parsePrefixes (utf8 m.dump) = .error (.lineTooLong line maxLine) := by
  unfold parsePrefixes
  rw [PrefixMap.dump_eq t m hm, linesFrom_dump _ fun e he => (ht e he).oneLine]
  have hes := fun e he => And.intro (prefix_lt_of_build t m hm e he) (ht e he)
  exact gatherLines_tooLong t.entries hes hlong 1 SortedTable.empty

/-! ## Tables that were parsed -/

/-- The bytes end in an entry of the table that leaves no room for a newline. -/
def EndsFull (bytes : List UInt8) (t : PrefixTable) : Prop := ∃ before n s,
  bytes = before ++ utf8 (entryText n s) ∧ (utf8 (entryText n s)).length = maxLine ∧
    t.get? n = some s

theorem length_utf8_dumpLine (n : Nat) (s : String) :
    (utf8 (dumpLine n s)).length = (utf8 (entryText n s)).length + 1 := by
  rw [utf8_dumpLine, List.length_append, List.length_singleton]

/-- The entry that a line holds can be printed in a line, or it is a last line as long as one
with a newline may be. -/
theorem unbroken_of_reads (bytes line : List UInt8) (hend : Ending bytes line) (n : Nat)
    (s : String) (h : Reads line (some (n, s))) : Unbroken s ∧
      ((utf8 (dumpLine n s)).length ≤ maxLine ∨
        ∃ before, bytes = before ++ utf8 (entryText n s) ∧
          (utf8 (entryText n s)).length = maxLine) := by
  obtain ⟨text, rfl, hshort, hentry⟩ := h
  obtain ⟨front, back, rfl, -, -, htrim⟩ := entryText_of_entryOf text n s hentry
  have hsize := hshort
  rw [utf8_append, utf8_append, List.length_append, List.length_append] at hsize
  have hline := length_utf8_dumpLine n s
  rcases hend.text with ⟨body, htext, hbody⟩ | ⟨hfree, before, hbytes⟩
  · -- the newline is behind the entry, which ends in no blank
    rw [String.toList_append, String.toList_append] at htext
    rcases List.eq_nil_or_concat back.toList with hnil | ⟨rest, c, hback⟩
    · exfalso
      have hlast : (entryText n s).toList.getLast? = some '\n' := by
        have hwhole := congrArg List.getLast? htext
        rw [hnil, List.append_nil, List.getLast?_append, List.getLast?_concat] at hwhole
        rw [toList_entryText, List.getLast?_append, List.getLast?_cons] at hwhole ⊢
        exact hwhole
      have hblank := (last_entryText_iff n s).mpr htrim '\n' hlast
      exact absurd hblank (by decide)
    · rw [hback, List.concat_eq_append, ← List.append_assoc] at htext
      obtain ⟨rfl, -⟩ := List.append_inj' htext rfl
      have hone : '\n' ∉ (entryText n s).toList := fun hmem => hbody (by simp [hmem])
      have hpos : 0 < (utf8 back).length := by
        refine List.length_pos_iff.mpr fun hnil => ?_
        rw [utf8_eq_nil hnil] at hback
        simp at hback
      exact ⟨⟨mt (newline_mem_entryText n s).mpr hone, htrim⟩, Or.inl (by omega)⟩
  · have hone : '\n' ∉ (entryText n s).toList := fun hmem => hfree (by simp [hmem])
    refine ⟨⟨mt (newline_mem_entryText n s).mpr hone, htrim⟩, ?_⟩
    by_cases hroom : (utf8 (dumpLine n s)).length ≤ maxLine
    · exact Or.inl hroom
    · have hfront : utf8 front = [] := List.length_eq_zero_iff.mp (by omega)
      have hback : utf8 back = [] := List.length_eq_zero_iff.mp (by omega)
      rw [utf8_append, utf8_append, hfront, hback, List.nil_append, List.append_nil] at hbytes
      exact Or.inr ⟨before, hbytes, by omega⟩

theorem unbroken_of_parsePrefixes (bytes : List UInt8) (t : PrefixTable)
    (ht : parsePrefixes bytes = .ok t) (n : Nat) (s : String) (hs : t.get? n = some s) :
    Unbroken s ∧ ((utf8 (dumpLine n s)).length ≤ maxLine ∨ EndsFull bytes t) := by
  obtain ⟨es, hes, rfl⟩ := (parsePrefixes_eq_ok_iff bytes t).mp ht
  have hmem : some (n, s) ∈ es := by
    have hentry := SortedTable.mem_of_mem_ofList _ _ ((SortedTable.get?_iff _ n s).mp hs)
    simpa using hentry
  obtain ⟨line, hline, hreads⟩ := exists_line_of_mem _ _ hes _ hmem
  have hend := ending_of_mem_linesFrom bytes [] List.not_mem_nil line hline
  obtain ⟨hunbroken, hfit⟩ := unbroken_of_reads bytes line hend n s hreads
  exact ⟨hunbroken, hfit.imp id fun ⟨before, hbytes, hfull⟩ => ⟨before, n, s, hbytes, hfull, hs⟩⟩

/-- A newline behind the last entry is room enough. -/
theorem not_endsFull (bytes : List UInt8) (t : PrefixTable)
    (ht : ∀ n s, t.get? n = some s → Unbroken s) (hlast : ∀ b ∈ bytes.getLast?, b = 10) :
    ¬ EndsFull bytes t := by
  rintro ⟨before, n, s, rfl, hfull, hs⟩
  rcases List.eq_nil_or_concat (utf8 (entryText n s)) with hnil | ⟨front, b, htext⟩
  · rw [hnil] at hfull
    cases hfull
  · rw [htext, List.concat_eq_append, ← List.append_assoc, List.getLast?_concat] at hlast
    have hmem : 10 ∈ utf8 (entryText n s) := by
      rw [htext, hlast b rfl]
      simp
    rw [newline_mem_utf8_iff, newline_mem_entryText] at hmem
    exact (ht n s hs).oneLine hmem

/-! ## There and back -/

/-- A table is had back from the dump of its map exactly if its descriptions fit their lines. -/
theorem parsePrefixes_dump_iff (t : PrefixTable) (m : PrefixMap) (hm : PrefixMap.build t = .ok m) :
    parsePrefixes (utf8 m.dump) = .ok t ↔ ∀ n s, t.get? n = some s → Printable n s := by
  constructor
  · intro hread n s hs
    have hentry := unbroken_of_parsePrefixes (utf8 m.dump) t hread
    have hroom : ¬ EndsFull (utf8 m.dump) t := by
      refine not_endsFull _ t (fun n s hs => (hentry n s hs).1) ?_
      rw [PrefixMap.dump_eq t m hm]
      exact last_dump t.entries
    exact ⟨(hentry n s hs).1, (hentry n s hs).2.resolve_right hroom⟩
  · intro ht
    refine parsePrefixes_printable t m hm fun e he => ?_
    exact ht e.1 e.2 ((SortedTable.get?_iff t e.1 e.2).mpr he)

/-- Descriptions that are empty or look like a comment, a blank line or another entry. -/
def oddDescriptions : PrefixTable :=
  ⟨[(1, ""), (41, "\u3000# Bern | Biel"), (44, "#|"), (49, "\u3000# Bern | Biel")], by decide⟩

theorem parsePrefixes_dump_iff_oddDescriptions :
    PrefixMap.build oddDescriptions = .ok ⟨.pooled (pooledOf oddDescriptions)⟩ ∧
      (∀ n s, oddDescriptions.get? n = some s → Printable n s) ∧
      parsePrefixes (utf8 (PrefixMap.dump ⟨.pooled (pooledOf oddDescriptions)⟩)) =
        .ok oddDescriptions := by
  have hm : PrefixMap.build oddDescriptions = .ok ⟨.pooled (pooledOf oddDescriptions)⟩ := by rfl
  have hone : ∀ e ∈ oddDescriptions.entries, '\n' ∉ e.2.toList := by decide +kernel
  have htrim : ∀ e ∈ oddDescriptions.entries,
      e.2.toList.getLast?.all (isSpace · == false) = true := by decide +kernel
  have hshort : ∀ e ∈ oddDescriptions.entries,
      (utf8 (dumpLine e.1 e.2)).length ≤ maxLine := by decide +kernel
  have hprintable : ∀ n s, oddDescriptions.get? n = some s → Printable n s := by
    intro n s hs
    have he := (SortedTable.get?_iff oddDescriptions n s).mp hs
    refine ⟨⟨hone (n, s) he, fun c hc => ?_⟩, hshort (n, s) he⟩
    exact eq_of_beq ((Option.all_eq_true _ _).mp (htrim (n, s) he) c hc)
  exact ⟨hm, hprintable, (parsePrefixes_dump_iff oddDescriptions _ hm).mpr hprintable⟩

/-- A table that was parsed is had back from the dump of its map, unless the text ends in an entry
that leaves no room for a newline; then the dump is refused. -/
theorem parsePrefixes_dump_parsed (bytes : List UInt8) (t : PrefixTable) (m : PrefixMap)
    (ht : parsePrefixes bytes = .ok t) (hm : PrefixMap.build t = .ok m) :
    (¬ EndsFull bytes t → parsePrefixes (utf8 m.dump) = .ok t) ∧
    (EndsFull bytes t →
      ∃ line, parsePrefixes (utf8 m.dump) = .error (.lineTooLong line maxLine)) := by
  have hentry := unbroken_of_parsePrefixes bytes t ht
  constructor
  · intro hroom
    refine parsePrefixes_printable t m hm fun e he => ?_
    obtain ⟨hunbroken, hfit⟩ := hentry e.1 e.2 ((SortedTable.get?_iff t e.1 e.2).mpr he)
    exact ⟨hunbroken, hfit.resolve_right hroom⟩
  · rintro ⟨before, n, s, -, hfull, hs⟩
    refine parsePrefixes_dump_tooLong t m hm ?_ ⟨(n, s), (SortedTable.get?_iff t n s).mp hs, ?_⟩
    · intro e he
      exact (hentry e.1 e.2 ((SortedTable.get?_iff t e.1 e.2).mpr he)).1
    · show maxLine < (utf8 (dumpLine n s)).length
      rw [length_utf8_dumpLine]
      omega

/-- A comment, an empty line, a plus sign, zeros, blanks, a prefix given twice and lines without an
entry; the last line has no newline. -/
def mixedText : String := "# Europe\n\n  +041| Bern |x \r\n44|London\nnone\n|\n0044|Leeds\n1|"

theorem parsePrefixes_dump_parsed_mixedText :
    ∃ t m, parsePrefixes (utf8 mixedText) = .ok t ∧ PrefixMap.build t = .ok m ∧
      t.entries = [(1, ""), (41, " Bern |x"), (44, "Leeds")] ∧
      parsePrefixes (utf8 m.dump) = .ok t := by
  let t : PrefixTable := ⟨[(1, ""), (41, " Bern |x"), (44, "Leeds")], by decide⟩
  have ht : parsePrefixes (utf8 mixedText) = .ok t := by decide +kernel
  have hm : PrefixMap.build t = .ok ⟨.plain (plainOf t)⟩ := by rfl
  refine ⟨t, _, ht, hm, rfl, (parsePrefixes_dump_parsed _ t _ ht hm).1 ?_⟩
  rintro ⟨before, n, s, hbytes, hfull, -⟩
  have hlength : (utf8 mixedText).length < maxLine := by decide +kernel
  rw [hbytes, List.length_append] at hlength
  omega

/-! ### An entry without room for a newline -/

/-- A description of some letters. -/
def letters (k : Nat) : String := String.ofList (List.replicate k 'a')

def lettersTable (k : Nat) : PrefixTable := ⟨[(1, letters k)], List.pairwise_singleton _ _⟩

theorem length_letters (k : Nat) : (utf8 (entryText 1 (letters k))).length = k + 2 := by
  have hdigits : Nat.toDigits 10 1 = ['1'] := by rfl
  have hsize : '1'.utf8Size = 1 ∧ '|'.utf8Size = 1 ∧ 'a'.utf8Size = 1 := by decide
  rw [utf8_eq_flatMap, toList_entryText, letters, String.toList_ofList, hdigits]
  simp [hsize]
  omega

theorem unbroken_letters (k : Nat) : Unbroken (letters k) := by
  have hletter : ∀ c ∈ (letters k).toList, c = 'a' := by
    rw [letters, String.toList_ofList]
    exact fun c hc => List.eq_of_mem_replicate hc
  constructor
  · intro hmem
    exact absurd (hletter '\n' hmem) (by decide)
  · intro c hc
    rw [hletter c (List.mem_of_getLast? hc)]
    decide

theorem build_letters (k : Nat) (hk : k < 0x10000) :
    ∃ m, PrefixMap.build (lettersTable k) = .ok m := by
  refine PrefixMap.build_of_fit (lettersTable k) ?_ ?_
  · intro n hn
    rw [List.mem_singleton.mp hn]
    show 1 ≤ maxPrefix
    decide
  · intro s hs
    obtain rfl := List.mem_singleton.mp hs
    refine ⟨_, (Decoder.writeText_eq_ok (letters k) _).mpr ⟨?_, rfl⟩⟩
    have hunits : unitsOf 'a' = [97] := by decide
    have hbytes : bytesOfUnit 97 = [97] := by decide
    have hlength : (encodeText (letters k)).length = k := by
      rw [encodeText, letters, String.toList_ofList]
      simp [List.flatMap_replicate, hunits, hbytes]
    rw [hlength]
    exact hk

theorem parsePrefixes_letters (k : Nat) (hk : k + 2 ≤ maxLine) :
    parsePrefixes (utf8 (entryText 1 (letters k))) = .ok (lettersTable k) := by
  have hfree : 10 ∉ utf8 (entryText 1 (letters k)) := by
    rw [newline_mem_utf8_iff, newline_mem_entryText]
    exact (unbroken_letters k).oneLine
  have hne : utf8 (entryText 1 (letters k)) ≠ [] := by
    intro hnil
    have hlength := length_letters k
    rw [hnil] at hlength
    cases hlength
  have hentry := entryOf_entryText 1 (by decide) (letters k) "" (unbroken_letters k).trimmed
    (by decide)
  rw [String.append_empty] at hentry
  refine (parsePrefixes_eq_ok_iff _ _).mpr ⟨[some (1, letters k)], ?_, ofList_some_entries _⟩
  rw [linesFrom_end _ hfree [] (Or.inr hne)]
  refine List.Forall₂.cons ⟨_, rfl, ?_, hentry⟩ List.Forall₂.nil
  show (utf8 (entryText 1 (letters k))).length ≤ maxLine
  rw [length_letters]
  exact hk

/-- With the prefix and the bar, 2046 letters are as long as a line may be. -/
theorem parsePrefixes_dump_refused : ¬ ∀ bytes t m, parsePrefixes bytes = .ok t →
    PrefixMap.build t = .ok m → parsePrefixes (utf8 m.dump) = .ok t := by
  intro h
  obtain ⟨m, hm⟩ := build_letters 2046 (by decide)
  have hlong : maxLine < (utf8 (dumpLine 1 (letters 2046))).length := by
    rw [length_utf8_dumpLine, length_letters]
    decide
  obtain ⟨line, hdump⟩ := parsePrefixes_dump_tooLong (lettersTable 2046) m hm
    (fun e he => by
      obtain rfl := List.mem_singleton.mp he
      exact unbroken_letters 2046)
    ⟨(1, letters 2046), List.mem_singleton_self _, hlong⟩
  have hread := h _ (lettersTable 2046) m (parsePrefixes_letters 2046 (by decide)) hm
  rw [hdump] at hread
  cases hread

end NumberPlan
