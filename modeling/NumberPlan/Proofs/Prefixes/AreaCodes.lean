import Mathlib
import NumberPlan.Proofs.Prefixes.Lookup
import NumberPlan.Proofs.Prefixes.Requests

/-!
# Splitting a table by area codes

Numbers of the calling code 1 have ten digits, the first three of which are the area code.  The key
of such a number's file has the digit 1 and the area code for its numeral (`fileKey?_tenDigits`), so
it is the beginning of every prefix of four or more digits that leads the number
(`areaText_of_isLead`).  The part of a table with that beginning has the longest of those prefixes
(`LongestLead.of_partOf`), so it answers as the whole table does.

    build t = .ok whole → SplitByArea t (splitMapping t) (splitFiles t)      (splitByArea_split)
    SplitByArea t m files → the number is described from the files as by whole.lookup
                                                                            (answer_splitByArea)
-/

namespace NumberPlan

open PrefixMap PrefixReader

/-! ## Parts of a table -/

/-- The entries whose prefixes are wanted. -/
def partOf (t : PrefixTable) (wanted : Nat → Bool) : PrefixTable :=
  ⟨t.entries.filter fun e => wanted e.1, t.ascending.filter _⟩

section

variable (t : PrefixTable) (wanted : Nat → Bool)

theorem get?_partOf (k : Nat) (v : String) :
    (partOf t wanted).get? k = some v ↔ t.get? k = some v ∧ wanted k = true := by
  rw [SortedTable.get?_iff, SortedTable.get?_iff, partOf, List.mem_filter]

theorem mem_keys_partOf (k : Nat) : k ∈ (partOf t wanted).keys ↔ k ∈ t.keys ∧ wanted k = true := by
  rw [SortedTable.mem_keys, SortedTable.mem_keys]
  simp only [get?_partOf, exists_and_right]

/-- A part with all prefixes that lead a text has the longest of them. -/
theorem LongestLead.of_partOf (s : String) (hall : ∀ k ∈ t.keys, IsLead k s → wanted k = true)
    (r : Option String) (h : LongestLead (partOf t wanted) s r) : LongestLead t s r := by
  cases r with
  | none =>
    intro k hk hlead
    exact h k ((mem_keys_partOf t wanted k).mpr ⟨hk, hall k hk hlead⟩) hlead
  | some v =>
    obtain ⟨k, hget, hlead, hmax⟩ := h
    refine ⟨k, ((get?_partOf t wanted k v).mp hget).1, hlead, fun j hj hjlead => ?_⟩
    exact hmax j ((mem_keys_partOf t wanted j).mpr ⟨hj, hall j hj hjlead⟩) hjlead

theorem build_partOf (m : PrefixMap) (h : build t = .ok m) :
    ∃ part, build (partOf t wanted) = .ok part := by
  refine build_of_fit _ (fun k hk => ?_) fun s hs => ?_
  · exact (build_ok t m h).1 k ((mem_keys_partOf t wanted k).mp hk).1
  · obtain ⟨e, he, rfl⟩ := List.mem_map.mp hs
    exact textsFit_of_build t m h e.2 (List.mem_map_of_mem (List.mem_of_mem_filter he))

end

/-- A table that leaves out the prefix 0 is read back from what is written of its map. -/
theorem read_of_write (t : PrefixTable) (m : PrefixMap) (h : build t = .ok m)
    (hpos : ∀ k ∈ t.keys, 0 < k) :
    ∃ bytes, m.write = .ok bytes ∧ PrefixMap.read bytes = .ok (m, []) := by
  obtain ⟨hfit, -⟩ := build_ok t m h
  have hfew : (0 :: t.keys).length ≤ 0x80000000 := by
    have hascending := List.pairwise_cons.mpr ⟨hpos, t.keys_ascending⟩
    refine length_le_of_ascending _ hascending _ fun k hk => ?_
    rcases List.mem_cons.mp hk with rfl | hk
    · decide
    · exact Nat.lt_succ_of_le (hfit k hk)
  rw [List.length_cons, SortedTable.keys, List.length_map] at hfew
  obtain ⟨bytes, hwrite, htakes | ⟨hmany, -⟩⟩ := read_write t m h
  · have hread := htakes []
    rw [List.append_nil] at hread
    exact ⟨bytes, hwrite, hread⟩
  · omega

/-! ## Areas -/

/-- The first four digits of a prefix. -/
def areaText (k : Nat) : String := String.ofList ((toString k).toList.take 4)

/-- The entries whose prefixes begin with the digits of an area. -/
def areaPart (t : PrefixTable) (area : Nat) : PrefixTable :=
  partOf t fun k => areaText k == toString area

/-- Some prefix begins with the digits of the area. -/
def IsArea (t : PrefixTable) (area : Nat) : Prop := ∃ k ∈ t.keys, areaText k = toString area

/-- The areas of a table are listed, each in English, and the file of each holds its part. -/
structure SplitByArea (t : PrefixTable) (m : Mapping) (files : Files) : Prop where
  listed : ∀ area : Nat, IsArea t area → m.table.get? (area : Int) = some (SortedSet.ofList ["en"])
  unlisted : ∀ key : Int, (∀ area : Nat, IsArea t area → key ≠ area) → m.table.get? key = none
  stored : ∀ area : Nat, IsArea t area → ∃ part bytes, build (areaPart t area) = .ok part ∧
    part.write = .ok bytes ∧ files (toString area ++ "_en") = some bytes

theorem eq_of_toString_eq (j k : Nat) (h : toString j = toString k) : j = k :=
  eq_of_isLead j k (toString k) (h ▸ List.prefix_rfl) List.prefix_rfl (congrArg _ h)

theorem numberOf_append (u v : List Digit) :
    numberOf (u ++ v) = numberOf u * 10 ^ v.length + numberOf v := by
  induction v using List.reverseRecOn with
  | nil =>
    rw [List.append_nil]
    exact (Nat.mul_one _).symm
  | append_singleton v d ih =>
    rw [← List.append_assoc, numberOf_concat, numberOf_concat, ih, List.length_append,
      List.length_singleton, Nat.pow_succ, ← Nat.mul_assoc]
    omega

theorem numberOf_lt (w : List Digit) : numberOf w < 10 ^ w.length := by
  induction w using List.reverseRecOn with
  | nil => exact Nat.one_pos
  | append_singleton w d ih =>
    rw [numberOf_concat, List.length_append, List.length_singleton, Nat.pow_succ]
    have := d.isLt
    omega

/-- The number that the first four digits of a prefix stand for. -/
def areaOf (k : Nat) : Nat := k / 10 ^ (prefixLength k - 4)

theorem pos_of_four_le (k : Nat) (hk : 4 ≤ prefixLength k) : 0 < k := by
  rcases Nat.eq_zero_or_pos k with rfl | hpos
  · exact absurd hk (by decide)
  · exact hpos

theorem toString_areaOf (k : Nat) (hk : 4 ≤ prefixLength k) : toString (areaOf k) = areaText k := by
  obtain ⟨w, hne, hdigits, hnum, hhead⟩ := exists_numeral k
  have hlen : prefixLength k = w.length := by rw [prefixLength, hdigits, List.length_map]
  have hlt := numberOf_lt (w.drop 4)
  have harea : areaOf k = numberOf (w.take 4) := by
    have hsplit := numberOf_append (w.take 4) (w.drop 4)
    rw [List.take_append_drop, hnum] at hsplit
    rw [areaOf, hlen, ← List.length_drop, hsplit, Nat.add_comm,
      Nat.add_mul_div_right _ _ (Nat.pow_pos (by decide)), Nat.div_eq_of_lt hlt, Nat.zero_add]
  have hfour := take_numeral w hne (hhead (pos_of_four_le k hk)) 4 (by decide)
  rw [harea, Nat.toString_eq_ofList_toDigits, hfour, areaText,
    toList_toString, hdigits, List.map_take]

/-- The areas of a table, each in English. -/
def splitMapping (t : PrefixTable) : Mapping :=
  .ofEntries (t.keys.map fun k => ((areaOf k : Int), ["en"]))

/-- The bytes of the map for an area. -/
def areaBytes? (t : PrefixTable) (area : Nat) : Option (List UInt8) :=
  match build (areaPart t area) with
  | .error _ => none
  | .ok part => part.write.toOption

/-- A file for each area of a table. -/
def splitFiles (t : PrefixTable) : Files := fun name =>
  ((t.keys.map areaOf).find? fun area => toString area ++ "_en" = name).bind (areaBytes? t)

section

variable (t : PrefixTable) (hlong : ∀ k ∈ t.keys, 4 ≤ prefixLength k)

include hlong

theorem isArea_iff (area : Nat) : IsArea t area ↔ area ∈ t.keys.map areaOf := by
  rw [List.mem_map]
  constructor
  · rintro ⟨k, hk, harea⟩
    exact ⟨k, hk, eq_of_toString_eq _ _ ((toString_areaOf k (hlong k hk)).trans harea)⟩
  · rintro ⟨k, hk, rfl⟩
    exact ⟨k, hk, (toString_areaOf k (hlong k hk)).symm⟩

theorem mem_splitMapping (key : Int) :
    key ∈ ((t.keys.map fun k => ((areaOf k : Int), ["en"])).map
        fun e => (e.1, SortedSet.ofList e.2)).reverse.map Prod.fst ↔
      ∃ area : Nat, IsArea t area ∧ key = area := by
  simp only [isArea_iff t hlong, List.map_reverse, List.map_map, List.mem_reverse, List.mem_map,
    Function.comp_apply]
  constructor
  · rintro ⟨k, hk, rfl⟩
    exact ⟨areaOf k, ⟨k, hk, rfl⟩, rfl⟩
  · rintro ⟨_, ⟨k, hk, rfl⟩, rfl⟩
    exact ⟨k, hk, rfl⟩

theorem splitFiles_eq (area : Nat) (harea : IsArea t area) :
    splitFiles t (toString area ++ "_en") = areaBytes? t area := by
  unfold splitFiles
  cases hfind : (t.keys.map areaOf).find? fun a => toString a ++ "_en" = toString area ++ "_en" with
  | none =>
    have hmem := (isArea_iff t hlong area).mp harea
    exact absurd (decide_eq_true rfl) (List.find?_eq_none.mp hfind area hmem)
  | some a =>
    have hname : toString a ++ "_en" = toString area ++ "_en" := by
      simpa using List.find?_some hfind
    have htext := congrArg String.toList hname
    rw [String.toList_append, String.toList_append] at htext
    have hlist : toString a = toString area := String.toList_inj.mp (List.append_cancel_right htext)
    rw [eq_of_toString_eq a area hlist]
    rfl

/-- A table that can be built can be split. -/
theorem splitByArea_split (whole : PrefixMap) (hbuild : build t = .ok whole) :
    SplitByArea t (splitMapping t) (splitFiles t) where
  listed area harea := by
    rw [splitMapping, Mapping.ofEntries, SortedTable.get?_ofList]
    refine lookup_of_const _ _ (fun e he => ?_) _
      ((mem_splitMapping t hlong area).mpr ⟨area, harea, rfl⟩)
    simp only [List.mem_reverse, List.map_map, List.mem_map] at he
    obtain ⟨k, -, rfl⟩ := he
    rfl
  unlisted key hkey := by
    rw [splitMapping, Mapping.ofEntries, SortedTable.get?_ofList, lookup_eq_none_iff_notMem,
      mem_splitMapping t hlong]
    rintro ⟨area, harea, heq⟩
    exact hkey area harea heq
  stored area harea := by
    obtain ⟨part, hpart⟩ := build_partOf t _ whole hbuild
    obtain ⟨bytes, hwrite, -⟩ := read_of_write _ part hpart fun k hk =>
      pos_of_four_le k (hlong k ((mem_keys_partOf t _ k).mp hk).1)
    refine ⟨part, bytes, hpart, hwrite, ?_⟩
    have hpart' : build (areaPart t area) = .ok part := hpart
    rw [splitFiles_eq t hlong area harea, areaBytes?, hpart']
    dsimp only
    rw [hwrite]
    rfl

end

/-! ## Numbers of ten digits -/

theorem readNumber64?_asciiOfDigits (v : List Digit) (hne : v ≠ [])
    (hlt : numberOf v < 0x10000000000000000) :
    readNumber64? (asciiOfDigits v) = some (numberOf v) := by
  have hplus : ∀ d : Digit, d.toChar ≠ '+' := by decide
  unfold readNumber64?
  extract_lets digits
  have hdigits : digits = v.map Digit.toChar := by
    have htext : (asciiOfDigits v).toList = v.map Digit.toChar := String.toList_ofList
    subst digits
    split
    · next ds heq =>
      obtain ⟨d, -, -, hd, -⟩ := List.map_eq_cons_iff.mp (htext.symm.trans heq)
      exact absurd hd (hplus d)
    · exact htext
  have hempty : ¬(v.map Digit.toChar).isEmpty = true := by simp [hne]
  rw [hdigits, if_neg hempty, mapM_ofAscii?]
  exact if_pos hlt

/-- The key of the file has the digit 1 and the area code for its numeral. -/
theorem fileKey?_tenDigits (v : List Digit) (hlen : v.length = 10) :
    fileKey? 1 (asciiOfDigits v) = some ((numberOf ((1 :: v).take 4) : Nat) : Int) := by
  have hne : v ≠ [] := List.ne_nil_of_length_eq_add_one hlen
  have hthree : (v.take 3).length = 3 := by simp [hlen]
  have hseven : (v.drop 3).length = 7 := by simp [hlen]
  have harea := numberOf_lt (v.take 3)
  have hrest := numberOf_lt (v.drop 3)
  have hsplit := numberOf_append (v.take 3) (v.drop 3)
  have hkey : numberOf ((1 :: v).take 4) =
      numberOf [1] * 10 ^ (v.take 3).length + numberOf (v.take 3) :=
    numberOf_append [1] (v.take 3)
  have hone : numberOf [1] = 1 := rfl
  rw [hthree] at harea hkey
  rw [hseven] at hrest hsplit
  rw [List.take_append_drop] at hsplit
  rw [fileKey?, if_pos (by rfl), readNumber64?_asciiOfDigits v hne (by omega)]
  have hdiv : numberOf v / 10000000 + 1000 = numberOf ((1 :: v).take 4) := by omega
  dsimp only
  rw [if_pos (by omega), hdiv]

/-- The prefixes of four or more digits that lead the number after the calling code begin with
the digits of that key. -/
theorem areaText_of_isLead (v : List Digit) (k : Nat) (hk : 4 ≤ prefixLength k)
    (hlead : IsLead k (asciiOfDigits (1 :: v))) :
    areaText k = toString (numberOf ((1 :: v).take 4)) := by
  obtain ⟨r, hr⟩ := hlead
  have hdigits := take_numeral (1 :: v) (List.cons_ne_nil _ _) (by simp) 4 (by decide)
  have hfour : 4 ≤ (toString k).toList.length := by
    rw [String.length_toList, length_toString]
    exact hk
  rw [asciiOfDigits, String.toList_ofList] at hr
  rw [Nat.toString_eq_ofList_toDigits, hdigits, List.map_take, ← hr,
    List.take_append_of_le_length hfour, areaText]

/-- A built map finds the longest prefix that leads the number after the calling code. -/
theorem longestLead_lookup_one (t : PrefixTable) (m : PrefixMap) (h : build t = .ok m)
    (v : List Digit) :
    LongestLead t (asciiOfDigits (1 :: v)) (m.lookup 1 (asciiOfDigits v)) := by
  have hne : (1 :: v : List Digit) ≠ [] := List.cons_ne_nil _ _
  have hhead : (1 :: v : List Digit).head? ≠ some 0 := by simp
  have hdialled : toString (1 : Int) ++ asciiOfDigits v = asciiOfDigits (1 :: v) := by
    rw [asciiOfDigits, asciiOfDigits, List.map_cons, ← List.singleton_append, String.ofList_append]
    rfl
  rw [lookup, hdialled]
  exact longestLead_of_leads _ hne hhead t _ (lookupDigits_longest t m h _ hne hhead)

/-! ## Answers -/

theorem fileFor?_english (m : Mapping) (key : Int) (h : m.table.get? key = some (.ofList ["en"])) :
    m.fileFor? key english = some (toString key ++ "_en") := by
  unfold Mapping.fileFor?
  rw [if_neg (by decide), h]
  dsimp only
  have hfind : english.names.find? (SortedSet.ofList ["en"]).keys.contains = some "en" := by
    decide +kernel
  rw [hfind, Option.map_some, String.append_assoc]
  rfl

/-- The map for an area is that of its part; where there is no such area, there is no map. -/
theorem SplitByArea.mapFrom_eq {t : PrefixTable} {m : Mapping} {files : Files}
    (h : SplitByArea t m files) (hpos : ∀ k ∈ t.keys, 0 < k) (area : Nat) :
    (∃ part, build (areaPart t area) = .ok part ∧
      mapFrom files m area english = .ok (some part)) ∨
    ¬IsArea t area ∧ mapFrom files m area english = .ok none := by
  unfold mapFrom
  by_cases harea : IsArea t area
  · obtain ⟨part, bytes, hbuild, hwrite, hfile⟩ := h.stored area harea
    have hpos' : ∀ k ∈ (areaPart t area).keys, 0 < k := fun k hk =>
      hpos k ((mem_keys_partOf t _ k).mp hk).1
    obtain ⟨bytes', hwrite', hread⟩ := read_of_write _ part hbuild hpos'
    obtain rfl := Except.ok.inj (hwrite'.symm.trans hwrite)
    have hfile' : files (toString (area : Int) ++ "_en") = some bytes' := hfile
    rw [fileFor?_english m area (h.listed area harea)]
    refine Or.inl ⟨part, hbuild, ?_⟩
    dsimp only
    rw [readFile, hfile']
    dsimp only
    rw [hread]
    rfl
  · have hnone : m.table.get? (area : Int) = none :=
      h.unlisted area fun other hother heq => harea (Int.ofNat_inj.mp heq ▸ hother)
    have hfile : m.fileFor? area english = none := by
      unfold Mapping.fileFor?
      rw [if_neg (by decide), hnone]
    rw [hfile]
    exact Or.inr ⟨harea, rfl⟩

/-- In the map for the number is the longest prefix of the whole table. -/
theorem SplitByArea.longestLead {t : PrefixTable} {m : Mapping} {files : Files}
    (h : SplitByArea t m files) (hlong : ∀ k ∈ t.keys, 4 ≤ prefixLength k) (v : List Digit) :
    ∃ map, mapFrom files m (numberOf ((1 :: v).take 4) : Nat) english = .ok map ∧
      LongestLead t (asciiOfDigits (1 :: v)) (map.bind fun m => m.lookup 1 (asciiOfDigits v)) := by
  have harea := fun k hk => areaText_of_isLead v k (hlong k hk)
  have hpos := fun k hk => pos_of_four_le k (hlong k hk)
  rcases h.mapFrom_eq hpos (numberOf ((1 :: v).take 4)) with ⟨part, hpart, hmap⟩ | ⟨hno, hmap⟩
  · exact ⟨some part, hmap, (longestLead_lookup_one _ part hpart v).of_partOf t _ _
      fun k hk hlead => beq_iff_eq.mpr (harea k hk hlead)⟩
  · exact ⟨none, hmap, fun k hk hlead => hno ⟨k, hk, harea k hk hlead⟩⟩

/-- A table whose prefixes have four digits or more can be split by area codes, and then a reader
of the parts describes numbers of ten digits as the map of the whole table does. -/
theorem answer_splitByArea (t : PrefixTable) (hlong : ∀ k ∈ t.keys, 4 ≤ prefixLength k)
    (whole : PrefixMap) (hbuild : build t = .ok whole) :
    SplitByArea t (splitMapping t) (splitFiles t) ∧
    ∀ m files, SplitByArea t m files → ∀ number : String, number.length = 10 →
      (∀ c ∈ number.toList, (Digit.ofAscii? c).isSome = true) → ∀ qs : List NumberRequest,
        (((ofMapping m).after files qs).describe files 1 number english).answer =
          .ok ((whole.lookup 1 number).getD "") := by
  refine ⟨splitByArea_split t hlong whole hbuild, fun m files hsplit number hten hascii qs => ?_⟩
  obtain ⟨v, rfl⟩ := exists_asciiOfDigits number hascii
  rw [asciiOfDigits, String.length_ofList, List.length_map] at hten
  obtain ⟨map, hmap, hlead⟩ := hsplit.longestLead hlong v
  have hsame := hlead.unique t _ _ _ (longestLead_lookup_one t whole hbuild v)
  have hanswer : (describe files 1 (asciiOfDigits v) english _).answer =
      answerFrom files m ⟨1, asciiOfDigits v, english⟩ :=
    answer_reply_after (faithful_ofMapping files m) ⟨1, asciiOfDigits v, english⟩ qs
  have henglish := answerFrom_english files m ⟨1, asciiOfDigits v, english⟩ rfl _
    (fileKey?_tenDigits v hten) map hmap
  rw [hanswer, henglish, ← hsame]

/-- A city in New Jersey, the state around it, and California. -/
def twoStates : PrefixTable :=
  ⟨[(1201, "New Jersey"), (1650, "California"), (1201435, "Jersey City")], by decide⟩

theorem answer_splitByArea_twoStates :
    ((ofMapping (splitMapping twoStates)).describe (splitFiles twoStates) 1 "2014350000"
      english).answer = .ok "Jersey City" := by
  have hbuild : build twoStates = .ok ⟨.plain ⟨#[(1201, "New Jersey"), (1650, "California"),
      (1201435, "Jersey City")], [4, 7]⟩⟩ := by
    decide +kernel
  obtain ⟨hsplit, hanswer⟩ := answer_splitByArea twoStates (by decide) _ hbuild
  exact (hanswer _ _ hsplit "2014350000" rfl (List.all_eq_true.mp rfl) []).trans (by decide +kernel)

end NumberPlan
