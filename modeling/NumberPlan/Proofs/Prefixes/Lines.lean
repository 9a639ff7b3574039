import Mathlib.Data.List.Basic
import NumberPlan.Prefixes.Text
import NumberPlan.Proofs.Digit
import NumberPlan.Proofs.Text.Runs
import NumberPlan.Proofs.Text.Utf8

/-!
# Lines of the text form

A line holds an entry if, after the blanks around it are dropped, it is the entry's text with a
plus sign or zeros in front of the prefix.  The text itself, with or without a newline, is such a
line (`entryOf_entryText`); and whatever line an entry is read from, the text of the entry is part
of it, with nothing but blanks behind (`entryText_of_entryOf`).

Bytes are split behind each newline, so every line but the last ends in one:

    linesFrom [] (utf8 s ++ 10 :: rest) = (utf8 s ++ [10]) :: linesFrom [] rest (linesFrom_newline)
    line ∈ linesFrom [] bytes → line ends in 10, or bytes end in line     (ending_of_mem_linesFrom)
-/

namespace NumberPlan

/-! ## Splitting into lines -/

theorem linesFrom_newline (body rest : List UInt8) (h : 10 ∉ body) : ∀ line,
    linesFrom line (body ++ 10 :: rest) = (line.reverse ++ body ++ [10]) :: linesFrom [] rest := by
  induction body with
  | nil =>
    intro line
    rw [List.nil_append, linesFrom, if_pos rfl, List.append_nil, List.reverse_cons]
  | cons b body ih =>
    intro line
    obtain ⟨hb, hbody⟩ := not_or.mp (mt List.mem_cons.mpr h)
    rw [List.cons_append, linesFrom, if_neg (Ne.symm hb), ih hbody, List.reverse_cons,
      List.append_assoc line.reverse]
    rfl

/-- What has no newline is one line, unless it is empty. -/
theorem linesFrom_end (body : List UInt8) (h : 10 ∉ body) : ∀ line, line ≠ [] ∨ body ≠ [] →
    linesFrom line body = [line.reverse ++ body] := by
  induction body with
  | nil =>
    intro line hne
    have hline : ¬ line.isEmpty = true := by simpa using hne
    rw [linesFrom, if_neg hline, List.append_nil]
  | cons b body ih =>
    intro line _
    obtain ⟨hb, hbody⟩ := not_or.mp (mt List.mem_cons.mpr h)
    rw [linesFrom, if_neg (Ne.symm hb), ih hbody (b :: line) (Or.inl (List.cons_ne_nil b line)),
      List.reverse_cons, List.append_assoc]
    rfl

/-- How a line ends: in its only newline, or where the bytes end. -/
def Ending (bytes line : List UInt8) : Prop :=
  (∃ body, line = body ++ [10] ∧ 10 ∉ body) ∨ (10 ∉ line ∧ ∃ before, bytes = before ++ line)

theorem ending_of_mem_linesFrom (bytes : List UInt8) : ∀ start, 10 ∉ start →
    ∀ line ∈ linesFrom start bytes, Ending (start.reverse ++ bytes) line := by
  induction bytes with
  | nil =>
    intro start hstart line hline
    rw [linesFrom] at hline
    split at hline
    · cases hline
    · rw [List.mem_singleton.mp hline, List.append_nil]
      exact Or.inr ⟨mt List.mem_reverse.mp hstart, [], rfl⟩
  | cons b bytes ih =>
    intro start hstart line hline
    rw [linesFrom] at hline
    split at hline
    · next hb =>
      rcases List.mem_cons.mp hline with rfl | hline
      · refine Or.inl ⟨start.reverse, ?_, mt List.mem_reverse.mp hstart⟩
        rw [List.reverse_cons, hb]
      · refine (ih [] List.not_mem_nil line hline).imp id fun ⟨hfree, before, hbytes⟩ => ?_
        rw [List.reverse_nil, List.nil_append] at hbytes
        exact ⟨hfree, start.reverse ++ b :: before, by rw [hbytes, List.append_assoc]; rfl⟩
    · next hb =>
      have hnext := ih (b :: start) (by simp [hstart, Ne.symm hb]) line hline
      rwa [List.reverse_cons, List.append_assoc, List.singleton_append] at hnext

theorem Ending.text {bytes : List UInt8} {text : String} (h : Ending bytes (utf8 text)) :
    (∃ body, text.toList = body ++ ['\n'] ∧ '\n' ∉ body) ∨
      ('\n' ∉ text.toList ∧ ∃ before, bytes = before ++ utf8 text) := by
  rcases h with ⟨body, hline, hbody⟩ | ⟨hfree, hbefore⟩
  · have hmem : '\n' ∈ text.toList := (newline_mem_utf8_iff text).mp (by rw [hline]; simp)
    obtain ⟨front, back, htext, hfront⟩ := List.eq_append_cons_of_mem hmem
    have hsplit : text = String.ofList front ++ "\n" ++ String.ofList back := by
      rw [← String.toList_inj, htext]
      simp
    have hnewline : utf8 "\n" = [10] := rfl
    rw [hsplit, utf8_append, utf8_append, hnewline, List.append_assoc] at hline
    obtain ⟨-, -, hback⟩ := (List.append_cons_inj_of_notMem hbody List.not_mem_nil).mp hline.symm
    have hnil : back = [] := String.ofList_eq_empty_iff.mp (utf8_eq_nil hback.symm)
    exact Or.inl ⟨front, by rw [htext, hnil], hfront⟩
  · exact Or.inr ⟨mt (newline_mem_utf8_iff text).mpr hfree, hbefore⟩

/-! ## Blanks -/

/-- No blank is at either end. -/
structure Trimmed (cs : List Char) : Prop where
  head : ∀ c ∈ cs.head?, isSpace c = false
  last : ∀ c ∈ cs.getLast?, isSpace c = false

theorem trimSpace_blanks (front cs back : List Char) (hfront : ∀ c ∈ front, isSpace c = true)
    (hback : ∀ c ∈ back, isSpace c = true) (hcs : Trimmed cs) (hne : cs ≠ []) :
    trimSpace (front ++ cs ++ back) = cs := by
  have hhead : ∀ c ∈ (cs ++ back).head?, isSpace c = false := by
    rw [List.head?_append_of_ne_nil cs hne]
    exact hcs.head
  have hlast : ∀ c ∈ cs.reverse.head?, isSpace c = false := by
    rw [List.head?_reverse]
    exact hcs.last
  have hblank : ∀ c ∈ back.reverse, isSpace c = true := fun c hc =>
    hback c (List.mem_reverse.mp hc)
  rw [trimSpace, List.append_assoc, (takeWhile_run isSpace front _ hfront hhead).2,
    List.reverse_append, (takeWhile_run isSpace _ _ hblank hlast).2, List.reverse_reverse]

/-- What is dropped is blank, and no more blanks are at the ends. -/
theorem trimSpace_spec (cs : List Char) : ∃ front back, cs = front ++ trimSpace cs ++ back ∧
    (∀ c ∈ back, isSpace c = true) ∧ Trimmed (trimSpace cs) := by
  obtain ⟨-, hhead⟩ := run_spec isSpace cs
  obtain ⟨hblank, hlast⟩ := run_spec isSpace (cs.dropWhile isSpace).reverse
  generalize hback : (cs.dropWhile isSpace).reverse.takeWhile isSpace = back at hblank
  have hrest : cs.dropWhile isSpace = trimSpace cs ++ back.reverse := by
    rw [trimSpace, ← hback, ← List.reverse_append, List.takeWhile_append_dropWhile,
      List.reverse_reverse]
  refine ⟨cs.takeWhile isSpace, back.reverse,
    by rw [List.append_assoc, ← hrest, List.takeWhile_append_dropWhile],
    fun c hc => hblank c (List.mem_reverse.mp hc), fun c hc => ?_, fun c hc => ?_⟩
  · refine hhead c ?_
    rw [hrest, List.head?_append, Option.mem_def.mp hc]
    rfl
  · rw [trimSpace, List.getLast?_reverse] at hc
    exact hlast c hc

/-! ## Numbers -/

/-- The number that digits make after `n`. -/
def numberFrom (n : Nat) (w : List Digit) : Nat := w.foldl (fun n d => 10 * n + d.val) n

theorem numberFrom_cons (n : Nat) (d : Digit) (w : List Digit) :
    numberFrom n (d :: w) = numberFrom (10 * n + d.val) w := rfl

/-- Reading on never makes a number smaller. -/
theorem le_numberFrom (w : List Digit) : ∀ n : Nat, n ≤ numberFrom n w := by
  induction w with
  | nil => intro n; exact Nat.le_refl n
  | cons d w ih =>
    intro n
    have hle := ih (10 * n + d.val)
    rw [numberFrom_cons]
    omega

theorem readNumberFrom_digits (w : List Digit) : ∀ n : Nat, n < 0x100000000 →
    readNumberFrom n (w.map Digit.toChar) =
      if numberFrom n w < 0x100000000 then .ok (numberFrom n w) else .error .tooLarge := by
  induction w with
  | nil =>
    intro n hn
    exact (if_pos hn).symm
  | cons d w ih =>
    intro n hn
    rw [List.map_cons, readNumberFrom, ofAscii?_toChar, numberFrom_cons]
    dsimp only
    by_cases hlt : 10 * n + d.val < 0x100000000
    · rw [if_pos hlt, ih _ hlt]
    · have hle := le_numberFrom w (10 * n + d.val)
      rw [if_neg hlt, if_neg (by omega)]

/-- Digits are read as a number exactly if there are some and it has 32 bits. -/
theorem readNumber32_digits (w : List Digit) : readNumber32 (w.map Digit.toChar) =
    if w.isEmpty then .error .invalidDigit
    else if numberOf w < 0x100000000 then .ok (numberOf w) else .error .tooLarge := by
  cases w with
  | nil => rfl
  | cons d w =>
    have hplus : d.toChar ≠ '+' := by revert d; decide
    have hread := readNumberFrom_digits (d :: w) 0 (by decide)
    rw [List.map_cons] at hread ⊢
    unfold readNumber32
    split
    · next hsign => exact absurd (List.cons.inj hsign).1 hplus
    · exact hread

theorem exists_digits_of_readNumberFrom (cs : List Char) : ∀ n k, readNumberFrom n cs = .ok k →
    ∃ w : List Digit, cs = w.map Digit.toChar := by
  induction cs with
  | nil =>
    intro n k _
    exact ⟨[], rfl⟩
  | cons c cs ih =>
    intro n k h
    rw [readNumberFrom] at h
    split at h
    · cases h
    · next d hd =>
      split at h
      · obtain ⟨w, rfl⟩ := ih _ k h
        exact ⟨d :: w, by rw [(ofAscii?_eq_some c d).mp hd]; rfl⟩
      · cases h

/-- The numeral of a number is read as the number. -/
theorem readNumber32_toDigits (n : Nat) (hn : n < 0x100000000) :
    readNumber32 (Nat.toDigits 10 n) = .ok n := by
  obtain ⟨w, hne, hdigits, rfl, -⟩ := exists_numeral n
  rw [hdigits, readNumber32_digits, if_neg (by simp [hne]), if_pos hn]

/-- What is read as a number ends in its numeral. -/
theorem exists_lead_of_readNumber32 (cs : List Char) (n : Nat) (h : readNumber32 cs = .ok n) :
    n < 0x100000000 ∧ ∃ lead, cs = lead ++ Nat.toDigits 10 n := by
  unfold readNumber32 at h
  extract_lets digits at h
  have hplus : ∃ plus, cs = plus ++ digits := by
    subst digits
    split
    · exact ⟨['+'], rfl⟩
    · exact ⟨[], rfl⟩
  obtain ⟨plus, hcs⟩ := hplus
  by_cases hempty : digits.isEmpty = true
  · rw [if_pos hempty] at h
    cases h
  · rw [if_neg hempty] at h
    obtain ⟨w, hw⟩ := exists_digits_of_readNumberFrom digits 0 n h
    have hne : w ≠ [] := by
      rintro rfl
      exact hempty (by rw [hw]; rfl)
    rw [hw, readNumberFrom_digits w 0 (by decide)] at h
    split at h
    · next hlt =>
      obtain rfl : numberOf w = n := Except.ok.inj h
      obtain ⟨z, hzeros⟩ := exists_zeros w hne
      refine ⟨hlt, plus ++ List.replicate z '0', ?_⟩
      rw [hcs, hw, hzeros, List.append_assoc]
    · cases h

/-! ## Entries -/

theorem splitBar_eq_some_iff (cs key description : List Char) :
    splitBar cs = some (key, description) ↔ cs = key ++ '|' :: description ∧ '|' ∉ key := by
  unfold splitBar
  constructor
  · intro h
    split at h
    · next a b bs hspan =>
      obtain ⟨-, hkey, rfl⟩ := (span_eq_iff '|' cs a bs b).mp hspan
      obtain ⟨rfl, rfl⟩ := Prod.mk.inj (Option.some.inj h)
      exact ⟨rfl, hkey⟩
    · cases h
  · rintro ⟨rfl, hkey⟩
    rw [(span_eq_iff '|' _ key description '|').mpr ⟨rfl, hkey, rfl⟩]

/-- The line of an entry, without its newline. -/
def entryText (n : Nat) (s : String) : String := toString n ++ "|" ++ s

theorem toList_entryText (n : Nat) (s : String) :
    (entryText n s).toList = Nat.toDigits 10 n ++ '|' :: s.toList := by
  rw [entryText, String.toList_append, String.toList_append, Nat.toString_eq_ofList_toDigits,
    String.toList_ofList, List.append_assoc]
  rfl

theorem newline_mem_entryText (n : Nat) (s : String) :
    '\n' ∈ (entryText n s).toList ↔ '\n' ∈ s.toList := by
  obtain ⟨w, -, hdigits, -⟩ := exists_numeral n
  have hdigit : ∀ d : Digit, d.toChar ≠ '\n' := by decide
  rw [toList_entryText, hdigits]
  simp [hdigit]

/-- A line of an entry ends in a blank just where the description does. -/
theorem last_entryText_iff (n : Nat) (s : String) :
    (∀ c ∈ (entryText n s).toList.getLast?, isSpace c = false) ↔
      ∀ c ∈ s.toList.getLast?, isSpace c = false := by
  rw [toList_entryText, List.getLast?_append, List.getLast?_cons]
  cases s.toList.getLast? with
  | none => simp [show isSpace '|' = false by decide]
  | some c => simp

/-- The text of an entry, and blanks behind it, hold the entry. -/
theorem entryOf_entryText (n : Nat) (hn : n < 0x100000000) (s back : String)
    (hs : ∀ c ∈ s.toList.getLast?, isSpace c = false) (hback : back.toList.all isSpace = true) :
    entryOf (entryText n s ++ back) = .ok (some (n, s)) := by
  obtain ⟨w, hne, hdigits, -⟩ := exists_numeral n
  obtain ⟨d, w, rfl⟩ := List.exists_cons_of_ne_nil hne
  have hdigit : ∀ d : Digit, isSpace d.toChar = false ∧ d.toChar ≠ '#' := by decide
  have hbar : ∀ d : Digit, '|' ≠ d.toChar := by decide
  have htrim : trimSpace (entryText n s ++ back).toList = (entryText n s).toList := by
    have htrimmed : Trimmed (entryText n s).toList := by
      refine ⟨fun c hc => ?_, (last_entryText_iff n s).mpr hs⟩
      rw [toList_entryText, hdigits] at hc
      obtain rfl := Option.some.inj hc
      exact (hdigit d).1
    rw [String.toList_append]
    refine trimSpace_blanks [] (entryText n s).toList _ (fun c hc => ?_)
      (List.all_eq_true.mp hback) htrimmed ?_
    · cases hc
    · rw [toList_entryText]
      simp
  have hsplit : splitBar (entryText n s).toList = some (Nat.toDigits 10 n, s.toList) := by
    refine (splitBar_eq_some_iff _ _ _).mpr ⟨toList_entryText n s, fun hmem => ?_⟩
    rw [hdigits] at hmem
    obtain ⟨e, -, he⟩ := List.mem_map.mp hmem
    exact hbar e he.symm
  have hhead : (entryText n s).toList = d.toChar :: (w.map Digit.toChar ++ '|' :: s.toList) := by
    rw [toList_entryText, hdigits]
    rfl
  have hread := readNumber32_toDigits n hn
  unfold entryOf
  rw [htrim]
  dsimp only
  split
  · next rest heq =>
    rw [hhead] at heq
    exact absurd (List.cons.inj heq).1 (hdigit d).2
  · rw [hsplit]
    split
    · next heq => simp [hdigits] at heq
    · next heq => simp [hdigits] at heq
    · next key description _ heq =>
      obtain ⟨rfl, rfl⟩ := Prod.mk.inj (Option.some.inj heq)
      rw [hread]
      dsimp only
      rw [String.ofList_toList]

/-- Around the text of the entry that a line holds are the rest of the line, which ends in blanks,
and no blank ends the entry. -/
theorem entryText_of_entryOf (line : String) (n : Nat) (s : String)
    (h : entryOf line = .ok (some (n, s))) : ∃ front back, line = front ++ entryText n s ++ back ∧
      (∀ c ∈ back.toList, isSpace c = true) ∧ n < 0x100000000 ∧
      ∀ c ∈ s.toList.getLast?, isSpace c = false := by
  obtain ⟨front, back, hline, hback, -, hlast⟩ := trimSpace_spec line.toList
  have hentry : ∃ key description, splitBar (trimSpace line.toList) = some (key, description) ∧
      readNumber32 key = .ok n ∧ s = String.ofList description := by
    unfold entryOf at h
    dsimp only at h
    split at h
    · cases h
    · split at h
      · cases h
      · cases h
      · next key description _ hsplit =>
        split at h
        · cases h
        · next k hk =>
          obtain ⟨rfl, rfl⟩ := Prod.mk.inj (Option.some.inj (Except.ok.inj h))
          exact ⟨key, description, hsplit, hk, rfl⟩
  obtain ⟨key, description, hsplit, hread, rfl⟩ := hentry
  obtain ⟨htrim, -⟩ := (splitBar_eq_some_iff _ _ _).mp hsplit
  obtain ⟨hn, lead, rfl⟩ := exists_lead_of_readNumber32 key n hread
  have htext : trimSpace line.toList =
      lead ++ (entryText n (String.ofList description)).toList := by
    rw [htrim, toList_entryText, String.toList_ofList, List.append_assoc]
  refine ⟨String.ofList (front ++ lead), String.ofList back, ?_, ?_, hn, ?_⟩
  · rw [← String.toList_inj, hline, htext]
    simp only [String.toList_append, String.toList_ofList, List.append_assoc]
  · rw [String.toList_ofList]
    exact hback
  · refine (last_entryText_iff n _).mp fun c hc => hlast c ?_
    rw [htext, List.getLast?_append, Option.mem_def.mp hc]
    rfl

end NumberPlan
