import NumberPlan.Matching
import NumberPlan.Proofs.Program.Compile
import NumberPlan.Proofs.Program.LongerInput
import NumberPlan.Proofs.Regex.Cache
import NumberPlan.Proofs.Regex.Anchoring

/-!
# Two ways of matching

Any bytes may be taken as a program.  A number matches by its leading part if the program matches
some leading part of the digits, although a run that stops early is not looked at again.

    matchesProgram d number true ↔ ∃ u, u <+: w ∧ verdict program u = .matched
                                                                (matchesProgram_iff_verdict)

A description that carries a pattern and the pattern's program gives one answer by either,
whatever the cache of expressions holds.

    matchesProgram d number lead = (matchesRegex engine d number lead cache).1
                                                            (matchesProgram_eq_matchesRegex)

Of the engine no more is assumed than that it decides the words of the anchored pattern
(`Engine.Decides`).

Any text may be given as a pattern.  One that is a regular expression is matched as a unit within
its anchors; one that is none matches nothing, unless a part of it in front of a closing
parenthesis is one (`matchesRegex_anchored`, for an engine that is `Engine.Standard`).
-/

namespace NumberPlan

/-! ## Leading parts -/

/-- Some leading part of `w`, possibly all of it, is a word. -/
def HasLead (L : List Digit → Prop) (w : List Digit) : Prop := ∃ u v, w = u ++ v ∧ L u

theorem hasMatchingLead_iff (program : List UInt8) (w : List Digit) :
    hasMatchingLead program w = true ↔
      ∃ u v, v ≠ [] ∧ w = u ++ v ∧ verdict program u = .matched := by
  unfold hasMatchingLead
  rw [List.any_eq_true]
  constructor
  · rintro ⟨n, hn, h⟩
    rw [List.mem_range] at hn
    refine ⟨w.take n, w.drop n, ?_, (List.take_append_drop n w).symm, beq_iff_eq.mp h⟩
    rw [ne_eq, List.drop_eq_nil_iff]
    omega
  · rintro ⟨u, v, hv, rfl, h⟩
    have hlen := List.length_pos_iff.mpr hv
    refine ⟨u.length, ?_, ?_⟩
    · rw [List.mem_range, List.length_append]
      omega
    · rw [List.take_left, h]
      rfl

/-- The leading parts that a match looks at are the whole string and the shorter ones. -/
theorem hasLead_matched_iff (program : List UInt8) (w : List Digit) :
    HasLead (fun u => verdict program u = .matched) w ↔
      verdict program w = .matched ∨ hasMatchingLead program w = true := by
  rw [hasMatchingLead_iff]
  constructor
  · rintro ⟨u, v, rfl, hu⟩
    cases v with
    | nil => exact Or.inl (by rwa [List.append_nil])
    | cons d v => exact Or.inr ⟨u, d :: v, List.cons_ne_nil _ _, rfl, hu⟩
  · rintro (hw | ⟨u, v, -, rfl, hu⟩)
    · exact ⟨w, [], (List.append_nil w).symm, hw⟩
    · exact ⟨u, v, rfl, hu⟩

/-! ## By program -/

section

variable (d : NumberDesc) (program : List UInt8) (hd : d.program = some program)
  (hne : program ≠ []) (number : String) (w : List Digit) (hw : readDigits number = .ok w)

include hd hne hw

theorem matchesProgram_whole :
    matchesProgram d number false = true ↔ verdict program w = .matched := by
  unfold matchesProgram
  rw [hd, Option.getD_some, hw]
  split
  · exact absurd rfl hne
  · dsimp only
    cases verdict program w <;> simp

theorem matchesProgram_lead :
    matchesProgram d number true = true ↔ HasLead (fun u => verdict program u = .matched) w := by
  have hlong : verdict program w = .tooLong → hasMatchingLead program w = true := fun h =>
    (hasMatchingLead_iff program w).mpr (exists_lead_of_tooLong program w h)
  rw [hasLead_matched_iff]
  unfold matchesProgram
  rw [hd, Option.getD_some, hw]
  split
  · exact absurd rfl hne
  dsimp only
  cases hv : verdict program w with
  | matched => simp
  | tooShort => simp
  | invalid => simp
  | tooLong => simp [hlong hv]

/-- Any bytes may be taken as a program: a number matches if the program matches its digits, and
matches by a leading part if the program matches some leading part of them, be it empty or all. -/
theorem matchesProgram_iff_verdict :
    (matchesProgram d number true = true ↔ ∃ u, u <+: w ∧ verdict program u = .matched) ∧
      (matchesProgram d number false = true ↔ verdict program w = .matched) := by
  refine ⟨?_, matchesProgram_whole d program hd hne number w hw⟩
  rw [matchesProgram_lead d program hd hne number w hw]
  constructor
  · rintro ⟨u, v, rfl, hu⟩
    exact ⟨u, List.prefix_append u v, hu⟩
  · rintro ⟨u, ⟨v, rfl⟩, hu⟩
    exact ⟨u, v, rfl, hu⟩

end

/-- The number leaves the program after its first digit, where it might have ended. -/
theorem matchesProgram_iff_verdict_endsBeforeTwo :
    readDigits "1٣2" = .ok [1, 3, 2] ∧
      matchesProgram ⟨none, [], [], none, some endsBeforeTwo, []⟩ "1٣2" true = true ∧
      ¬ matchesProgram ⟨none, [], [], none, some endsBeforeTwo, []⟩ "1٣2" false = true := by
  have hread : readDigits "1٣2" = .ok [1, 3, 2] := by decide +kernel
  obtain ⟨hlead, hwhole⟩ := matchesProgram_iff_verdict ⟨none, [], [], none, some endsBeforeTwo, []⟩
    endsBeforeTwo rfl (List.cons_ne_nil _ _) "1٣2" [1, 3, 2] hread
  have hone : verdict endsBeforeTwo [1] = .matched := by decide
  have hall : ¬ verdict endsBeforeTwo [1, 3, 2] = .matched := by decide
  exact ⟨hread, hlead.mpr ⟨[1], List.prefix_append [1] [3, 2], hone⟩, mt hwhole.mp hall⟩

section

variable (s : String) (program : List UInt8) (h : compile s = .ok program)

include h

/-- A program that matches some word has bytes. -/
theorem compile_ne_nil : program ≠ [] := by
  rintro rfl
  obtain ⟨p, hread, hproper, -⟩ := compile_ok s _ h
  obtain ⟨w, hw, -⟩ := hproper.exists_word
  have hmatched := (matched_compile_iff s _ h w).mpr ((wordOf_iff s p hread w).mpr hw)
  cases hmatched

theorem matchesProgram_iff (d : NumberDesc) (hd : d.program = some program) (w : List Digit)
    (lead : Bool) : matchesProgram d (asciiOfDigits w) lead = true ↔
      if lead then HasLead (WordOf s) w else WordOf s w := by
  have hne := compile_ne_nil s program h
  have hread := readDigits_asciiOfDigits w
  have hmatched := matched_compile_iff s program h
  cases lead with
  | false => exact (matchesProgram_whole d program hd hne _ w hread).trans (hmatched w)
  | true =>
    rw [matchesProgram_lead d program hd hne _ w hread]
    unfold HasLead
    simp only [hmatched, if_true]

end

/-! ## By regular expression -/

/-- The engine compiles the anchored pattern, and its expressions decide the pattern's words among
the ASCII digit strings. -/
structure Regex.Engine.Decides {ρ : Type} (engine : Regex.Engine ρ) (s : String) : Prop where
  compiles : ∀ lead, ∃ r, engine.compile (Regex.anchored s lead) = some r
  whole : ∀ r, engine.compile (Regex.anchored s false) = some r →
    ∀ w, engine.isMatch r (asciiOfDigits w) = true ↔ WordOf s w
  lead : ∀ r, engine.compile (Regex.anchored s true) = some r →
    ∀ w, engine.isMatch r (asciiOfDigits w) = true ↔ HasLead (WordOf s) w

theorem Regex.Engine.Decides.isMatch_iff {ρ : Type} (engine : Regex.Engine ρ) (s : String)
    (h : engine.Decides s) (lead : Bool) (r : ρ)
    (hr : engine.compile (Regex.anchored s lead) = some r) (w : List Digit) :
    engine.isMatch r (asciiOfDigits w) = true ↔
      if lead then HasLead (WordOf s) w else WordOf s w := by
  cases lead with
  | false => exact h.whole r hr w
  | true => exact h.lead r hr w

/-- A match by expression is the one without a cache, and leaves a cache that requests lead to. -/
theorem matchesRegex_afresh {ρ : Type} (engine : Regex.Engine ρ) (d : NumberDesc)
    (number : String) (lead : Bool) (cache : Regex.Cache ρ)
    (hcache : cache.Reachable engine.compile) :
    (matchesRegex engine d number lead cache).1 = matchesRegexAfresh engine d number lead ∧
      (matchesRegex engine d number lead cache).2.Reachable engine.compile := by
  unfold matchesRegex matchesRegexAfresh
  generalize d.pattern.getD "" = pattern
  split
  · exact ⟨rfl, hcache⟩
  · have hanswer := cache.get_regex engine.compile (Regex.anchored pattern lead) hcache
    have hafter := hcache.get cache (Regex.anchored pattern lead)
    rw [← hanswer]
    rcases hfound : cache.get engine.compile (Regex.anchored pattern lead) with ⟨found, cache'⟩
    rw [hfound] at hafter
    cases found <;> exact ⟨rfl, hafter⟩

theorem matchesRegex_eq {ρ : Type} (engine : Regex.Engine ρ) (d : NumberDesc) (s : String)
    (hs : s ≠ "") (hd : d.pattern = some s) (number : String) (lead : Bool)
    (cache : Regex.Cache ρ) (hcache : cache.Reachable engine.compile) :
    (matchesRegex engine d number lead cache).1
      = (engine.compile (Regex.anchored s lead)).any fun r => engine.isMatch r number := by
  rw [(matchesRegex_afresh engine d number lead cache hcache).1]
  unfold matchesRegexAfresh
  rw [hd, Option.getD_some]
  split
  · exact absurd rfl hs
  · cases engine.compile (Regex.anchored s lead) <;> rfl

/-- By program or by regular expression, a description with both gives one answer. -/
theorem matchesProgram_eq_matchesRegex {ρ : Type} (engine : Regex.Engine ρ) (s : String)
    (hengine : engine.Decides s) (program : List UInt8) (hprogram : compile s = .ok program)
    (d : NumberDesc) (hd : d.pattern = some s) (hp : d.program = some program) (number : String)
    (hnumber : ∀ c ∈ number.toList, (Digit.ofAscii? c).isSome = true) (lead : Bool)
    (cache : Regex.Cache ρ) (hcache : cache.Reachable engine.compile) :
    matchesProgram d number lead = (matchesRegex engine d number lead cache).1 := by
  obtain ⟨w, rfl⟩ := exists_asciiOfDigits number hnumber
  have hs : s ≠ "" := by
    rintro rfl
    have hempty : compile "" = .error (.invalidPattern (.emptyAlternative 0)) := by rfl
    rw [hempty] at hprogram
    cases hprogram
  obtain ⟨r, hr⟩ := hengine.compiles lead
  rw [matchesRegex_eq engine d s hs hd _ lead cache hcache, hr, Option.any_some, Bool.eq_iff_iff,
    matchesProgram_iff s program hprogram d hp w lead, hengine.isMatch_iff engine s lead r hr w]

/-! ## The library's engine on a one-digit pattern -/

theorem wordOf_seven (w : List Digit) : WordOf "7" w ↔ w = [7] := by
  rw [wordOf_iff "7" [[⟨DigitSet.single 7, 1, 1⟩]] (by cbv)]
  constructor
  · rintro ⟨a, ha, hw⟩
    obtain rfl := List.mem_singleton.mp ha
    obtain ⟨u, v, rfl, ⟨hmin, hmax, hmem⟩, rfl⟩ := hw
    obtain ⟨d, rfl⟩ := List.length_eq_one_iff.mp (Nat.le_antisymm hmax hmin)
    have hd := hmem d (List.mem_singleton_self d)
    rw [DigitSet.mem_single, decide_eq_true_iff] at hd
    rw [hd, List.append_nil]
  · rintro rfl
    refine ⟨_, List.mem_singleton_self _, [7], [], rfl, ⟨Nat.le_refl _, Nat.le_refl _, ?_⟩, rfl⟩
    decide

/-- The library's engine decides the words of a one-digit pattern. -/
theorem engine_decides_seven : Regex.engine.Decides "7" := by
  have hstandard : ∀ lead, Regex.engine.Standard (Regex.anchored "7" lead) := fun lead =>
    Regex.standard_engine _ _ (by cases lead <;> decide +kernel)
  have hterm : Regex.term? "7" = some (Regex.Term.ofChar '7') := by decide +kernel
  have hone : ∀ u, u ∈ (Regex.Term.ofChar '7').expr.language ↔ u = ['7'] := by
    intro u
    constructor
    · rintro ⟨c, hc, rfl⟩
      simp only [Regex.CharSet.only, Regex.CharSet.mem, Bool.and_eq_true, decide_eq_true_iff] at hc
      rw [Char.le_antisymm hc.2 hc.1]
    · rintro rfl
      exact ⟨'7', by decide, rfl⟩
  have hseven : ∀ d : Digit, d.toChar = '7' ↔ d = 7 := by decide
  have hlist : ∀ w, (asciiOfDigits w).toList = w.map Digit.toChar := fun w =>
    String.toList_ofList
  have hany : ∀ lead r, Regex.engine.compile (Regex.anchored "7" lead) = some r → ∀ w,
      Regex.engine.isMatch r (asciiOfDigits w) = true ↔
        if lead then ∃ u, u <+: w.map Digit.toChar ∧ u = ['7'] else w.map Digit.toChar = ['7'] := by
    intro lead r hr w
    have hfound := (hstandard lead).any_compile_anchored _ hterm trivial (asciiOfDigits w)
    simp only [hone, hlist] at hfound
    rw [← hfound, hr, Option.any_some]
  refine ⟨fun lead => ?_, fun r hr w => (hany false r hr w).trans ?_,
    fun r hr w => (hany true r hr w).trans ?_⟩
  · rw [← Option.isSome_iff_exists, (hstandard lead).compiles]
    cases lead <;> decide +kernel
  · rw [wordOf_seven, if_neg (by decide), List.map_eq_singleton_iff]
    constructor
    · rintro ⟨d, rfl, hd⟩
      rw [(hseven d).mp hd]
    · rintro rfl
      exact ⟨7, rfl, rfl⟩
  · unfold HasLead
    simp only [wordOf_seven, if_true]
    constructor
    · rintro ⟨u, ⟨v, hv⟩, rfl⟩
      obtain ⟨d, w, rfl, hd, -⟩ := List.map_eq_cons_iff.mp hv.symm
      exact ⟨[7], w, by rw [(hseven d).mp hd]; rfl, rfl⟩
    · rintro ⟨u, v, rfl, rfl⟩
      exact ⟨['7'], ⟨v.map Digit.toChar, rfl⟩, rfl⟩

/-- The two ways agree on a description with a one-digit pattern, the cache being new. -/
theorem matchesProgram_eq_matchesRegex_seven :
    matchesProgram ⟨some "7", [], [], none, some [39, 0], []⟩ "71" true
      = (matchesRegex Regex.engine ⟨some "7", [], [], none, some [39, 0], []⟩ "71" true
          (Regex.Cache.withCapacity 1)).1 :=
  matchesProgram_eq_matchesRegex Regex.engine "7" engine_decides_seven [39, 0] (by cbv) _ rfl rfl
    "71" (List.all_eq_true.mp rfl) true _ (Regex.Cache.Reachable.empty 1)

/-! ## Patterns within anchors -/

section

variable {ρ : Type} (engine : Regex.Engine ρ) (d : NumberDesc) (p : String) (hp : p ≠ "")
  (hd : d.pattern = some p) (hengine : ∀ lead, engine.Standard (Regex.anchored p lead))
  (number : String) (cache : Regex.Cache ρ) (hcache : cache.Reachable engine.compile)

include hp hd hengine hcache

/-- Where neither the pattern nor a part of it in front of a closing parenthesis is a regular
expression, no number matches.  Where the pattern is one that does not look around, a number
matches if it is a word of the pattern, and matches by a leading part if that is one.

Regular expressions are those that `Regex.term?` reads.  A pattern with flags or classes that it
leaves out, such as `(?i)1`, `(?x)1#` or `\p{Nd}`, counts as none.  An engine that compiles such a
pattern within the anchors is not standard there, so that nothing is said of what it matches. -/
theorem matchesRegex_anchored :
    (Regex.term? p = none → (∀ q r, p = q ++ ")" ++ r → Regex.term? q = none) →
      ∀ lead, (matchesRegex engine d number lead cache).1 = false) ∧
    ∀ t, Regex.term? p = some t → t.expr.LookFree →
      ((matchesRegex engine d number false cache).1 = true ↔
        number.toList ∈ t.expr.language) ∧
      ((matchesRegex engine d number true cache).1 = true ↔
        ∃ u, u <+: number.toList ∧ u ∈ t.expr.language) := by
  have hany : ∀ lead, (matchesRegex engine d number lead cache).1 = _ := fun lead =>
    matchesRegex_eq engine d p hp hd number lead cache hcache
  refine ⟨fun hnone hparts lead => ?_, fun t ht hlook => ⟨?_, ?_⟩⟩
  · rw [hany, (hengine lead).compile_anchored_eq_none hnone hparts]
    rfl
  · rw [hany, (hengine false).any_compile_anchored t ht hlook number, if_neg (by decide)]
  · rw [hany, (hengine true).any_compile_anchored t ht hlook number, if_pos rfl]

end

/-- With the library's engine, `1|2` is one unit within the anchors, and `(1` matches nothing. -/
theorem matchesRegex_anchored_alternatives :
    let one : NumberDesc := ⟨some "1|2", [], [], none, none, []⟩
    let unclosed : NumberDesc := ⟨some "(1", [], [], none, none, []⟩
    let cache : Regex.Cache Regex.Expr := .withCapacity 1
    (matchesRegex Regex.engine one "13" true cache).1 = true ∧
      (matchesRegex Regex.engine one "13" false cache).1 = false ∧
      ∀ lead, (matchesRegex Regex.engine unclosed "1" lead cache).1 = false := by
  intro one unclosed cache
  have hcache : cache.Reachable Regex.engine.compile := .empty 1
  have hstandard : ∀ lead, Regex.engine.Standard (Regex.anchored "1|2" lead) := fun lead =>
    Regex.standard_engine _ _ (by cases lead <;> decide +kernel)
  have hstandard' : ∀ lead, Regex.engine.Standard (Regex.anchored "(1" lead) := fun lead =>
    Regex.standard_engine _ _ (by cases lead <;> decide +kernel)
  have hunclosed : ∀ q r, "(1" ≠ q ++ ")" ++ r := by
    intro q r h
    have hmem : ')' ∈ "(1".toList := by
      rw [h, String.toList_append, String.toList_append]
      exact List.mem_append_left _ (List.mem_append_right _ (by decide))
    exact absurd hmem (by decide)
  obtain ⟨-, hunit⟩ := matchesRegex_anchored Regex.engine one "1|2" (by decide) rfl hstandard "13"
    cache hcache
  obtain ⟨hwhole, hpart⟩ := hunit
    ⟨.alt (.one (.only '1')) (.one (.only '2')), 1, 136⟩ (by decide +kernel) ⟨trivial, trivial⟩
  obtain ⟨hinvalid, -⟩ := matchesRegex_anchored Regex.engine unclosed "(1" (by decide) rfl
    hstandard' "1" cache hcache
  refine ⟨hpart.mpr ⟨['1'], ⟨['3'], by decide⟩, .inl ⟨'1', by decide, rfl⟩⟩, ?_,
    hinvalid (by decide +kernel) fun q r h => absurd h (hunclosed q r)⟩
  rw [Bool.eq_false_iff, ne_eq, hwhole]
  have htwo : "13".toList.length ≠ 1 := by decide
  rintro (⟨c, -, hc⟩ | ⟨c, -, hc⟩)
  · exact htwo (congrArg List.length hc)
  · exact htwo (congrArg List.length hc)

/-- A parenthesis of the pattern may close the group that is written around it, and what follows
may open another: then the pattern is none and matches. -/
theorem matchesRegex_anchored_unbalanced :
    ¬ ∀ (engine : Regex.Engine Regex.Expr) (p number : String), p ≠ "" →
      (∀ lead, engine.Standard (Regex.anchored p lead)) → Regex.term? p = none →
      ∀ lead, (matchesRegex engine ⟨some p, [], [], none, none, []⟩ number lead
        (Regex.Cache.withCapacity 1)).1 = false := by
  intro h
  have hstandard : ∀ lead, Regex.engine.Standard (Regex.anchored "1)|(?:2" lead) := fun lead =>
    Regex.standard_engine _ _ (by cases lead <;> decide +kernel)
  have hfalse := h Regex.engine "1)|(?:2" "13" (by decide) hstandard (by decide +kernel) false
  exact absurd hfalse (by decide +kernel)

end NumberPlan
