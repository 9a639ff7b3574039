import NumberPlan.Prefixes.Mapping
import NumberPlan.Proofs.Text.SortedTable

/-!
# The best listed language

The names under which data for a locale may be listed are ranked (`Locale.Ranks`): traditional
Chinese for the locales that write it, the full locale, language and script, language and region,
the language alone.  The file that is found has the name of lowest rank that is listed:

    m.fileFor? key l = some file ↔ file = key ++ "_" ++ name, name the best of those listed for key
    m.fileFor? key l = none ↔ no ranked name is listed for key
                                                                          (fileFor?_best)

The language alone has a rank in every locale, so where it is listed no script and no region is
without a file; and more languages never take a file away.
-/

namespace NumberPlan.Mapping

/-! ## Ranks -/

/-- A name for the data of a locale, and its rank; the lowest is preferred. -/
inductive Locale.Ranks (l : Locale) : Nat → String → Prop
  | traditional (h : l.full = "zh_TW" ∨ l.full = "zh_HK" ∨ l.full = "zh_MO") : Ranks l 0 "zh_Hant"
  | full : Ranks l 1 l.full
  | script (hscript : l.script ≠ "") (hregion : l.region ≠ "") :
    Ranks l 2 (l.language ++ "_" ++ l.script)
  | region (hscript : l.script ≠ "") (hregion : l.region ≠ "") :
    Ranks l 3 (l.language ++ "_" ++ l.region)
  | language : Ranks l 4 l.language

/-- The name is one of the languages, and none of lower rank is. -/
def Locale.Best (l : Locale) (languages : Languages) (name : String) : Prop :=
  ∃ rank, l.Ranks rank name ∧ name ∈ languages.keys ∧
    ∀ rank' name', l.Ranks rank' name' → rank' < rank → name' ∉ languages.keys

/-- The names with their ranks, ascending. -/
def Locale.ranked (l : Locale) : List (Nat × String) :=
  (if traditionalChinese.contains l.full then [(0, "zh_Hant")] else [])
    ++ [(1, l.full)]
    ++ (if !l.script.isEmpty && !l.region.isEmpty then
        [(2, l.language ++ "_" ++ l.script), (3, l.language ++ "_" ++ l.region)]
      else [])
    ++ [(4, l.language)]

namespace Locale

variable (l : Locale)

theorem mem_ranked (rank : Nat) (name : String) : (rank, name) ∈ l.ranked ↔ l.Ranks rank name := by
  have hboth : (!l.script.isEmpty && !l.region.isEmpty) = true ↔ l.script ≠ "" ∧ l.region ≠ "" := by
    simp
  have htraditional : traditionalChinese.contains l.full = true ↔
      l.full = "zh_TW" ∨ l.full = "zh_HK" ∨ l.full = "zh_MO" := by
    simp [traditionalChinese]
  simp only [ranked, List.mem_append, List.mem_ite_nil_right, hboth, htraditional,
    List.mem_cons, List.not_mem_nil, or_false, Prod.mk.injEq]
  constructor
  · rintro (((⟨h, rfl, rfl⟩ | ⟨rfl, rfl⟩) | ⟨⟨hs, hr⟩, ⟨rfl, rfl⟩ | ⟨rfl, rfl⟩⟩) | ⟨rfl, rfl⟩)
    · exact .traditional h
    · exact .full
    · exact .script hs hr
    · exact .region hs hr
    · exact .language
  · intro h
    cases h with
    | traditional h => exact Or.inl (Or.inl (Or.inl ⟨h, rfl, rfl⟩))
    | full => exact Or.inl (Or.inl (Or.inr ⟨rfl, rfl⟩))
    | script hs hr => exact Or.inl (Or.inr ⟨⟨hs, hr⟩, Or.inl ⟨rfl, rfl⟩⟩)
    | region hs hr => exact Or.inl (Or.inr ⟨⟨hs, hr⟩, Or.inr ⟨rfl, rfl⟩⟩)
    | language => exact Or.inr ⟨rfl, rfl⟩

theorem ranked_ascending : l.ranked.Pairwise fun a b => a.1 < b.1 := by
  unfold ranked
  split <;> split <;> simp

/-- Without script and region the full locale is the language, which need not be tried again. -/
theorem find?_names (p : String → Bool) :
    l.names.find? p = (l.ranked.map Prod.snd).find? p := by
  have hranked : (l.ranked.map Prod.snd).find? p =
      ((if traditionalChinese.contains l.full then ["zh_Hant"] else []) ++ [l.full]
        ++ (if !l.script.isEmpty && !l.region.isEmpty then
            [l.language ++ "_" ++ l.script, l.language ++ "_" ++ l.region]
          else []) ++ [l.language]).find? p := by
    unfold ranked
    split <;> split <;> rfl
  rw [hranked, names]
  by_cases hbare : (l.script.isEmpty && l.region.isEmpty) = true
  · obtain ⟨hscript, hregion⟩ := Bool.and_eq_true_iff.mp hbare
    have hfull : l.full = l.language := by
      rw [full, if_pos hscript, if_pos hregion, String.append_empty, String.append_empty]
    rw [if_pos hbare, hscript, hfull]
    simp only [List.find?_append, List.find?_cons, List.find?_nil]
    cases p l.language <;> simp
  · rw [if_neg hbare]

end Locale

/-- The value of lowest rank with a property is found first. -/
theorem find?_ranked {α : Type} (rs : List (Nat × α)) (hrs : rs.Pairwise fun a b => a.1 < b.1)
    (p : α → Bool) (a : α) :
    (rs.map Prod.snd).find? p = some a ↔
      ∃ rank, (rank, a) ∈ rs ∧ p a = true ∧ ∀ r ∈ rs, r.1 < rank → p r.2 = false := by
  induction rs with
  | nil => simp
  | cons r rs ih =>
    obtain ⟨hr, hrs⟩ := List.pairwise_cons.mp hrs
    rw [List.map_cons, List.find?_cons]
    cases hp : p r.2 with
    | true =>
      simp only [Option.some.injEq]
      constructor
      · rintro rfl
        refine ⟨r.1, List.mem_cons_self .., hp, fun r' hr' hlt => ?_⟩
        rcases List.mem_cons.mp hr' with rfl | hr'
        · omega
        · have := hr r' hr'
          omega
      · rintro ⟨rank, hmem, -, hlower⟩
        rcases List.mem_cons.mp hmem with rfl | hmem
        · rfl
        · have hfalse := hlower r (List.mem_cons_self ..) (hr _ hmem)
          rw [hp] at hfalse
          cases hfalse
    | false =>
      dsimp only
      rw [ih hrs]
      constructor
      · rintro ⟨rank, hmem, ha, hlower⟩
        refine ⟨rank, List.mem_cons_of_mem _ hmem, ha, fun r' hr' hlt => ?_⟩
        rcases List.mem_cons.mp hr' with rfl | hr'
        · exact hp
        · exact hlower r' hr' hlt
      · rintro ⟨rank, hmem, ha, hlower⟩
        rcases List.mem_cons.mp hmem with rfl | hmem
        · rw [ha] at hp
          cases hp
        · exact ⟨rank, hmem, ha, fun r' hr' => hlower r' (List.mem_cons_of_mem _ hr')⟩

/-! ## Names that are listed -/

theorem find?_names_eq_some_iff (l : Locale) (languages : Languages) (name : String) :
    l.names.find? languages.keys.contains = some name ↔ l.Best languages name := by
  rw [l.find?_names, find?_ranked _ l.ranked_ascending]
  simp only [Prod.forall, l.mem_ranked, List.contains_iff_mem, Locale.Best,
    ← Bool.not_eq_true]

theorem find?_names_eq_none_iff (l : Locale) (languages : Languages) :
    l.names.find? languages.keys.contains = none ↔
      ∀ rank name, l.Ranks rank name → name ∉ languages.keys := by
  rw [l.find?_names, List.find?_eq_none]
  simp only [List.mem_map, Prod.exists, l.mem_ranked, exists_eq_right, List.contains_iff_mem,
    forall_exists_index]
  exact ⟨fun h rank name hrank => h name rank hrank, fun h name rank hrank => h rank name hrank⟩

/-! ## Files -/

section

variable (m : Mapping) (key : Int) (l : Locale) (hl : l.language ≠ "")

include hl

theorem fileFor?_eq : m.fileFor? key l =
    (m.table.get? key).bind fun languages =>
      (l.names.find? languages.keys.contains).map fun name => toString key ++ "_" ++ name := by
  have hne : ¬ l.language.isEmpty = true := fun h => hl (String.isEmpty_iff.mp h)
  rw [fileFor?, if_neg hne]
  cases m.table.get? key <;> rfl

theorem fileFor?_eq_some_iff (file : String) : m.fileFor? key l = some file ↔
    ∃ languages name, m.table.get? key = some languages ∧ l.Best languages name ∧
      file = toString key ++ "_" ++ name := by
  rw [fileFor?_eq m key l hl, Option.bind_eq_some_iff]
  simp only [Option.map_eq_some_iff, find?_names_eq_some_iff]
  constructor
  · rintro ⟨languages, hlanguages, name, hbest, rfl⟩
    exact ⟨languages, name, hlanguages, hbest, rfl⟩
  · rintro ⟨languages, name, hlanguages, hbest, rfl⟩
    exact ⟨languages, hlanguages, name, hbest, rfl⟩

theorem fileFor?_eq_none_iff : m.fileFor? key l = none ↔
    ∀ languages, m.table.get? key = some languages →
      ∀ rank name, l.Ranks rank name → name ∉ languages.keys := by
  rw [fileFor?_eq m key l hl, Option.bind_eq_none_iff]
  simp only [Option.map_eq_none_iff, find?_names_eq_none_iff]

/-- The file that is found is that of the best name listed for the key, and none is found only if
no name is listed.  So a language that is listed has a file whatever the script and the region, and
a file is still found where more languages are listed. -/
theorem fileFor?_best :
    (∀ file, m.fileFor? key l = some file ↔
      ∃ languages name, m.table.get? key = some languages ∧ l.Best languages name ∧
        file = toString key ++ "_" ++ name) ∧
      (m.fileFor? key l = none ↔ ∀ languages, m.table.get? key = some languages →
        ∀ rank name, l.Ranks rank name → name ∉ languages.keys) ∧
      (∀ languages, m.table.get? key = some languages → l.language ∈ languages.keys →
        ∀ script region, m.fileFor? key ⟨l.language, script, region⟩ ≠ none) ∧
      ∀ (m' : Mapping) languages more, m.table.get? key = some languages →
        m'.table.get? key = some more → (∀ name ∈ languages.keys, name ∈ more.keys) →
        m.fileFor? key l ≠ none → m'.fileFor? key l ≠ none := by
  refine ⟨fileFor?_eq_some_iff m key l hl, fileFor?_eq_none_iff m key l hl, ?_, ?_⟩
  · intro languages hlanguages hlisted script region hnone
    exact (fileFor?_eq_none_iff m key ⟨l.language, script, region⟩ hl).mp hnone languages hlanguages
      4 l.language .language hlisted
  · intro m' languages more hlanguages hmore hsub hfound hnone
    refine hfound ((fileFor?_eq_none_iff m key l hl).mpr ?_)
    intro languages' hlanguages' rank name hrank
    obtain rfl := Option.some.inj (hlanguages.symm.trans hlanguages')
    exact fun hname =>
      (fileFor?_eq_none_iff m' key l hl).mp hnone more hmore rank name hrank (hsub name hname)

end

/-- The data for Hong Kong in two languages. -/
def hongKong : Mapping := .ofEntries [(852, ["zh", "zh_Hant"])]

/-- A language with an underscore makes the full locale of a language and a region. -/
theorem fileFor?_best_underscore :
    Locale.full ⟨"zh_HK", "", ""⟩ = Locale.full ⟨"zh", "", "HK"⟩ ∧
      hongKong.fileFor? 852 ⟨"zh_HK", "", ""⟩ = some "852_zh_Hant" := by
  have hlanguages : hongKong.table.get? 852 = some (.ofList ["zh", "zh_Hant"]) := by decide +kernel
  have hbest : Locale.Best ⟨"zh_HK", "", ""⟩ (.ofList ["zh", "zh_Hant"]) "zh_Hant" := by
    refine ⟨0, .traditional (Or.inr (Or.inl (by decide))), by decide +kernel, ?_⟩
    intro rank' _ _ hlt
    exact absurd hlt (Nat.not_lt_zero rank')
  exact ⟨by decide, ((fileFor?_best hongKong 852 ⟨"zh_HK", "", ""⟩ (by decide)).1 _).mpr
    ⟨_, _, hlanguages, hbest, by decide +kernel⟩⟩

end NumberPlan.Mapping
