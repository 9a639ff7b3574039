import NumberPlan.Matching
import NumberPlan.Proofs.Regex.Groups
import NumberPlan.Proofs.Regex.Language

/-!
# Anchored patterns

A pattern is anchored by writing around it.  If it is a regular expression, the written text ties
that expression to the start and the end of the number (`term?_anchored`).  If it is none, neither
is the written text, unless the pattern has a closing parenthesis behind an expression of its own,
which then closes the group around it (`term?_of_anchored`).

An engine that compiles regular expressions and searches for what they match (`Engine.Standard`)
thus finds an anchored expression in its words (`Engine.Standard.any_compile_anchored`).
-/

namespace NumberPlan.Regex

/-! ## The written text -/

/-- What stands after the group in an anchored pattern. -/
def ending (lead : Bool) : List Char := if lead then [] else ['$']

theorem toList_anchored (p : String) (lead : Bool) : (anchored p lead).toList =
    '^' :: '(' :: '?' :: ':' :: (p.toList ++ ')' :: ending lead) := by
  cases lead <;> simp [anchored, ending]

theorem lexes_anchored (p : String) (lead : Bool) (ts : List Token) :
    Lexes (anchored p lead).toList ts ↔ ∃ us, Lexes (p.toList ++ ')' :: ending lead) us ∧
      ts = .item (.ofLook .start) :: .opening .plain :: us := by
  rw [toList_anchored]
  constructor
  · intro h
    cases h with
    | cons first others =>
      obtain ⟨rfl, rfl⟩ := Prod.mk.inj (Option.some.inj first)
      cases others with
      | cons first others =>
        obtain ⟨rfl, rfl⟩ := Prod.mk.inj (Option.some.inj first)
        exact ⟨_, others, rfl⟩
  · rintro ⟨us, hus, rfl⟩
    exact .cons rfl (.cons rfl hus)

/-- The look that the ending spells. -/
def endingTokens (lead : Bool) : List Token := if lead then [] else [.item (.ofLook .finish)]

theorem lexes_ending (lead : Bool) : Lexes (ending lead) (endingTokens lead) := by
  cases lead with
  | true => exact .nil
  | false => exact .cons rfl .nil

/-- The stack within the group around the pattern. -/
def within : Stack := ⟨.empty false, [⟨true, [], [.ofLook .start]⟩]⟩

theorem rests_within : Rests [⟨true, [], [.ofLook .start]⟩] .empty within :=
  .lowest true false [] []

theorem pushAll_anchored (us : List Token) :
    Stack.pushAll (.item (.ofLook .start) :: .opening .plain :: us) .empty = within.pushAll us :=
  rfl

theorem pushAll_append (us vs : List Token) (s : Stack) :
    s.pushAll (us ++ vs) = (s.pushAll us).bind (Stack.pushAll vs) := by
  induction us generalizing s with
  | nil => rfl
  | cons u us ih =>
    rw [List.cons_append, Stack.pushAll, Stack.pushAll]
    cases s.push u with
    | none => rfl
    | some r => exact ih r

theorem allDistinct_append (xs ys : List String) (h : allDistinct (xs ++ ys) = true) :
    allDistinct xs = true := by
  induction xs with
  | nil => rfl
  | cons x xs ih =>
    rw [List.cons_append, allDistinct, Bool.and_eq_true] at h
    rw [allDistinct, Bool.and_eq_true]
    rw [List.all_append, Bool.and_eq_true] at h
    exact ⟨h.1.1, ih h.2⟩

/-- An expression tied to the start of a text and, without `lead`, to its end. -/
def Expr.tied (e : Expr) (lead : Bool) : Expr :=
  .seq (.look .start) (.seq e (if lead then .empty else .seq (.look .finish) .empty))

theorem names_anchored (ts : List Token) (lead : Bool) :
    (.item (.ofLook .start) :: .opening .plain :: (ts ++ .closing :: endingTokens lead)).filterMap
      Token.name? = ts.filterMap Token.name? := by
  cases lead <;> simp [endingTokens, List.filterMap_cons, Token.name?]

/-- Around an expression, the written text ties it. -/
theorem term?_anchored (p : String) (lead : Bool) (t : Term) (h : term? p = some t) :
    ∃ t', term? (anchored p lead) = some t' ∧ t'.expr = t.expr.tied lead := by
  obtain ⟨ts, hts, hnames, g, hg, rfl⟩ := (term?_eq_some_iff p t).mp h
  rcases rests_within.pushAll ts with ⟨us, vs, g', rfl, hus⟩ | ⟨hnone, -⟩ | ⟨r, r', hr, hr', hrests⟩
  · rw [pushAll_append, hus] at hg
    cases hg
  · rw [hnone] at hg
    cases hg
  · obtain rfl := Option.some.inj (hr.symm.trans hg)
    have hlexes : Lexes (p.toList ++ ')' :: ending lead) (ts ++ .closing :: endingTokens lead) :=
      hts.append (ended_closing _) (.cons rfl (lexes_ending lead))
    -- the group is closed, and then the text ends
    obtain ⟨whole, hwhole, hexpr⟩ : ∃ whole : Group,
        within.pushAll (ts ++ .closing :: endingTokens lead) = some ⟨whole, []⟩ ∧
          whole.close.expr = g.close.expr.tied lead := by
      cases hrests with
      | lowest c c' branches items =>
        rw [pushAll_append, hr']
        cases lead with
        | true => exact ⟨_, rfl, rfl⟩
        | false => exact ⟨_, rfl, rfl⟩
    refine ⟨whole.close, (term?_eq_some_iff _ _).mpr ⟨_, (lexes_anchored p lead _).mpr
      ⟨_, hlexes, rfl⟩, ?_, whole, hwhole, rfl⟩, hexpr⟩
    rw [names_anchored]
    exact hnames

/-- If the written text is an expression, so is the pattern, or a part of it in front of a closing
parenthesis. -/
theorem term?_of_anchored (p : String) (lead : Bool) (t : Term)
    (h : term? (anchored p lead) = some t) :
    (∃ t, term? p = some t) ∨ ∃ q r t, p = q ++ ")" ++ r ∧ term? q = some t := by
  obtain ⟨ts, hts, hnames, g, hg, -⟩ := (term?_eq_some_iff _ t).mp h
  obtain ⟨us, hus, rfl⟩ := (lexes_anchored p lead ts).mp hts
  rw [pushAll_anchored] at hg
  rcases rests_within.pushAll us with ⟨us, vs, g', rfl, hg'⟩ | ⟨-, hnone⟩ | ⟨r, r', -, hr', hrests⟩
  · -- the group around the pattern closes after the tokens of an expression
    obtain ⟨q, r, hsplit, hq, -⟩ := hus.split
    have hterm : term? (String.ofList q) = some g'.close := by
      refine (term?_eq_some_iff _ _).mpr ⟨us, by rwa [String.toList_ofList], ?_, g', hg', rfl⟩
      refine allDistinct_append _ (vs.filterMap Token.name?) ?_
      simpa [List.filterMap_cons, Token.name?] using hnames
    rcases List.append_eq_append_iff.mp hsplit with ⟨a, rfl, ha⟩ | ⟨a, ha, hr⟩
    · cases a with
      | nil =>
        rw [List.append_nil, String.ofList_toList] at hterm
        exact .inl ⟨_, hterm⟩
      | cons c a =>
        obtain ⟨-, hending⟩ := List.cons.inj ha
        have hmem : ')' ∈ ending lead := hending ▸ List.mem_append_right a List.mem_cons_self
        cases lead <;> simp [ending] at hmem
    · cases a with
      | nil =>
        rw [List.append_nil] at ha
        rw [← ha, String.ofList_toList] at hterm
        exact .inl ⟨_, hterm⟩
      | cons c a =>
        obtain ⟨rfl, -⟩ := List.cons.inj hr
        refine .inr ⟨String.ofList q, String.ofList a, _, ?_, hterm⟩
        rw [← String.toList_inj, String.toList_append, String.toList_append, ha]
        simp
  · rw [hnone] at hg
    cases hg
  · obtain rfl := Option.some.inj (hr'.symm.trans hg)
    exact absurd rfl (hrests.outer_ne_nil (List.cons_ne_nil _ _))

/-! ## Tied expressions -/

theorem matches_look_start (text : List Char) (i j : Nat) :
    Matches text (.look .start) i j ↔ i = 0 ∧ j = 0 := by
  constructor
  · intro h
    cases h with
    | look hi hholds =>
      cases i with
      | zero => exact ⟨rfl, rfl⟩
      | succ i =>
        have hnone : text[i]? = none := by simpa [Look.holds, charBefore] using hholds
        have := List.getElem?_eq_none_iff.mp hnone
        omega
  · rintro ⟨rfl, rfl⟩
    exact .look (Nat.zero_le _) rfl

theorem matches_look_finish (text : List Char) (i j : Nat) :
    Matches text (.look .finish) i j ↔ i = text.length ∧ j = text.length := by
  constructor
  · intro h
    cases h with
    | look hi hholds =>
      have hnone : text[i]? = none := by simpa [Look.holds] using hholds
      have := List.getElem?_eq_none_iff.mp hnone
      omega
  · rintro ⟨rfl, rfl⟩
    exact .look (Nat.le_refl _) (by simp [Look.holds])

/-- A tied expression is found where the expression matches the text from its start and, without
`lead`, to its end. -/
theorem exists_matches_tied (text : List Char) (e : Expr) (lead : Bool) :
    (∃ i j, Matches text (e.tied lead) i j) ↔
      ∃ j, Matches text e 0 j ∧ (lead = false → j = text.length) := by
  unfold Expr.tied
  simp only [matches_seq_iff, matches_look_start]
  constructor
  · rintro ⟨i, j, k, ⟨rfl, rfl⟩, m, he, hend⟩
    refine ⟨m, he, ?_⟩
    rintro rfl
    rw [if_neg (by decide), matches_seq_iff] at hend
    obtain ⟨n, hfinish, -⟩ := hend
    exact ((matches_look_finish text m n).mp hfinish).1
  · rintro ⟨j, he, hend⟩
    refine ⟨0, j, 0, ⟨rfl, rfl⟩, j, he, ?_⟩
    cases lead with
    | true => exact .empty he.le.2
    | false =>
      rw [if_neg (by decide), matches_seq_iff]
      obtain rfl := hend rfl
      exact ⟨text.length, (matches_look_finish _ _ _).mpr ⟨rfl, rfl⟩, .empty (Nat.le_refl _)⟩

theorem matches_from_start (text : List Char) (e : Expr) (he : e.LookFree) (j : Nat) :
    Matches text e 0 j ↔ j ≤ text.length ∧ text.take j ∈ e.language := by
  have hspans := spans_language e he [] (text.take j) (text.drop j)
  have htext : [] ++ text.take j ++ text.drop j = text := List.take_append_drop j text
  constructor
  · intro h
    have hle := h.le.2
    have hlen : ([] ++ text.take j).length = j := by simpa using hle
    rw [htext, hlen] at hspans
    exact ⟨hle, hspans.mp h⟩
  · rintro ⟨hle, hmem⟩
    have hlen : ([] ++ text.take j).length = j := by simpa using hle
    rw [htext, hlen] at hspans
    exact hspans.mpr hmem

/-! ## Engines -/

/-- The engine compiles the text exactly if it is a regular expression, and searches for what it
matches.  Regular expressions are those of `term?`.  So an engine that knows more syntax, such as
the flags of `(?i)` and `(?x)` or the classes `\p` and `\P`, can be relied on to be standard for
texts only that use none of it, and one with a limit of size for texts only within that limit. -/
structure Engine.Standard {ρ : Type} (engine : Engine ρ) (s : String) : Prop where
  compiles : (engine.compile s).isSome = (term? s).isSome
  searches : ∀ r t, engine.compile s = some r → term? s = some t →
    ∀ text, engine.isMatch r text = true ↔ ∃ i j, Matches text.toList t.expr i j

/-- The library's engine is standard, but for expressions that exceed its limits. -/
theorem standard_engine (limit : Nat) (s : String) (h : (term? s).all (Term.fits limit) = true) :
    (engineWithin limit).Standard s := by
  have hcompile : ∀ t, term? s = some t → read? limit s = some t.expr := by
    intro t ht
    rw [ht, Option.all_some] at h
    rw [read?_eq, ht, Option.filter_some, if_pos h]
    rfl
  refine ⟨?_, fun r t hr ht text => ?_⟩
  · show (read? limit s).isSome = _
    cases ht : term? s with
    | none => rw [read?_eq, ht]; rfl
    | some t => rw [hcompile t ht]; rfl
  · have hread := hcompile t ht
    obtain rfl := Option.some.inj (hr.symm.trans hread)
    exact isMatch_of_read limit s _ hread text

section

variable {ρ : Type} {engine : Engine ρ} {p : String} {lead : Bool}

/-- No engine compiles the written text where neither the pattern nor a part of it in front of a
closing parenthesis is a regular expression. -/
theorem Engine.Standard.compile_anchored_eq_none (h : engine.Standard (anchored p lead))
    (hp : term? p = none) (hparts : ∀ q r, p = q ++ ")" ++ r → term? q = none) :
    engine.compile (anchored p lead) = none := by
  have hanchored : term? (anchored p lead) = none := by
    cases ht : term? (anchored p lead) with
    | none => rfl
    | some t =>
      rcases term?_of_anchored p lead t ht with ⟨t, hpt⟩ | ⟨q, r, t, hsplit, hqt⟩
      · rw [hp] at hpt
        cases hpt
      · rw [hparts q r hsplit] at hqt
        cases hqt
  have hcompiles := h.compiles
  rwa [hanchored, Option.isSome_none, Option.isSome_eq_false_iff, Option.isNone_iff_eq_none]
    at hcompiles

/-- An anchored expression that does not look around is found in its words, and with `lead` where
one of them leads. -/
theorem Engine.Standard.any_compile_anchored (h : engine.Standard (anchored p lead)) (t : Term)
    (ht : term? p = some t) (hlook : t.expr.LookFree) (text : String) :
    ((engine.compile (anchored p lead)).any fun r => engine.isMatch r text) = true ↔
      if lead then ∃ u, u <+: text.toList ∧ u ∈ t.expr.language
      else text.toList ∈ t.expr.language := by
  obtain ⟨t', ht', hexpr⟩ := term?_anchored p lead t ht
  have hcompiles := h.compiles
  rw [ht', Option.isSome_some, Option.isSome_iff_exists] at hcompiles
  obtain ⟨r, hr⟩ := hcompiles
  rw [hr, Option.any_some, h.searches r t' hr ht' text, hexpr, exists_matches_tied]
  simp only [matches_from_start _ _ hlook]
  cases lead with
  | true =>
    rw [if_pos rfl]
    constructor
    · rintro ⟨j, ⟨-, hmem⟩, -⟩
      exact ⟨_, List.take_prefix j _, hmem⟩
    · rintro ⟨u, hu, hmem⟩
      refine ⟨u.length, ⟨hu.length_le, ?_⟩, fun h => by cases h⟩
      rwa [← List.prefix_iff_eq_take.mp hu]
  | false =>
    rw [if_neg (by decide)]
    constructor
    · rintro ⟨j, ⟨-, hmem⟩, hend⟩
      rwa [hend rfl, List.take_length] at hmem
    · intro hmem
      exact ⟨_, ⟨Nat.le_refl _, by rwa [List.take_length]⟩, fun _ => rfl⟩

end

end NumberPlan.Regex
