import NumberPlan.Classifier
import NumberPlan.Proofs.Matching

/-!
# The types of numbers

A number goes through a cascade of descriptions.  `Classified` tells all its outcomes, each with
the descriptions that the number matches and does not match:

    Classified (fun t => matchesDesc matcher number (r.descOf t)) r.sharesPattern
      (numberType matcher r number)                                         (classified_numberType)

A classifier asks its matcher one question after the other.  The matcher keeps no more than a
cache, so each answer is the one that it would give at any other time (`Yields`).

    (c.numberType r number).1 = numberType c.plain r number                     (yields_numberType)

A match takes a pattern or a program, so the type of a number is a type of which its record says
something (`mem_supportedTypes`).

Matching looks at the digits of a number, whatever script they are written in; a possible length
is compared with the bytes (`numberType_of_script`).
-/

namespace NumberPlan

/-! ## Outcomes -/

/-- What the type of a number tells about the descriptions that it matches, `shared` being whether
fixed lines and mobile phones share their patterns. -/
inductive Classified (isOf : NumberType → Bool) (shared : Bool) : NumberType → Prop
  | outside (general : isOf .unknown = false) : Classified isOf shared .unknown
  | exclusive (t : NumberType) (general : isOf .unknown = true) (mem : t ∈ NumberType.exclusive)
    (matched : isOf t = true) : Classified isOf shared t
  | fixedLine (general : isOf .unknown = true)
    (others : ∀ t ∈ NumberType.exclusive, isOf t = false) (fixed : isOf .fixedLine = true)
    (unshared : shared = false) (mobile : isOf .mobile = false) : Classified isOf shared .fixedLine
  | mobile (general : isOf .unknown = true)
    (others : ∀ t ∈ NumberType.exclusive, isOf t = false) (fixed : isOf .fixedLine = false)
    (unshared : shared = false) (mobile : isOf .mobile = true) : Classified isOf shared .mobile
  | either (general : isOf .unknown = true)
    (others : ∀ t ∈ NumberType.exclusive, isOf t = false) (fixed : isOf .fixedLine = true)
    (both : shared = true ∨ isOf .mobile = true) : Classified isOf shared .fixedLineOrMobile
  | neither (general : isOf .unknown = true)
    (others : ∀ t ∈ NumberType.exclusive, isOf t = false) (fixed : isOf .fixedLine = false)
    (mobile : shared = true ∨ isOf .mobile = false) : Classified isOf shared .unknown

/-- The cascade ends in one of the outcomes. -/
theorem classified_numberType (matcher : Matcher) (r : Record) (number : String) :
    Classified (fun t => matchesDesc matcher number (r.descOf t)) r.sharesPattern
      (numberType matcher r number) := by
  unfold numberType
  generalize (fun t => matchesDesc matcher number (r.descOf t)) = isOf
  dsimp only
  cases hgeneral : isOf .unknown with
  | false => exact .outside hgeneral
  | true =>
    rw [if_neg (by decide)]
    cases hfirst : NumberType.exclusive.find? isOf with
    | some t =>
      exact .exclusive t hgeneral (List.mem_of_find?_eq_some hfirst) (List.find?_some hfirst)
    | none =>
      have hothers : ∀ t ∈ NumberType.exclusive, isOf t = false := fun t ht =>
        Bool.eq_false_iff.mpr (List.find?_eq_none.mp hfirst t ht)
      cases hfixed : isOf .fixedLine <;> cases hshared : r.sharesPattern <;>
        cases hmobile : isOf .mobile
      · exact .neither hgeneral hothers hfixed (.inr hmobile)
      · exact .mobile hgeneral hothers hfixed rfl hmobile
      · exact .neither hgeneral hothers hfixed (.inl rfl)
      · exact .neither hgeneral hothers hfixed (.inl rfl)
      · exact .fixedLine hgeneral hothers hfixed rfl hmobile
      · exact .either hgeneral hothers hfixed (.inr hmobile)
      · exact .either hgeneral hothers hfixed (.inl rfl)
      · exact .either hgeneral hothers hfixed (.inl rfl)

namespace Classified

variable {isOf : NumberType → Bool} {shared : Bool} {t : NumberType} (h : Classified isOf shared t)

include h

theorem matched (ht : t ≠ .unknown) (heither : isOf .fixedLineOrMobile = isOf .fixedLine) :
    isOf .unknown = true ∧ isOf t = true := by
  cases h with
  | outside => exact absurd rfl ht
  | exclusive t general mem matched => exact ⟨general, matched⟩
  | fixedLine general others fixed => exact ⟨general, fixed⟩
  | mobile general others fixed unshared mobile => exact ⟨general, mobile⟩
  | either general others fixed => exact ⟨general, heither.trans fixed⟩
  | neither => exact absurd rfl ht

theorem fixedLine_only (ht : t = .fixedLine) : shared = false ∧ isOf .mobile = false := by
  subst ht
  cases h with
  | exclusive _ _ mem => exact absurd mem (by decide)
  | fixedLine _ _ _ unshared mobile => exact ⟨unshared, mobile⟩

theorem mobile_only (ht : t = .mobile) : shared = false ∧ isOf .fixedLine = false := by
  subst ht
  cases h with
  | exclusive _ _ mem => exact absurd mem (by decide)
  | mobile _ _ fixed unshared => exact ⟨unshared, fixed⟩

theorem unknown_iff (hgeneral : isOf .unknown = true) : t = .unknown ↔
    (∀ e ∈ NumberType.exclusive, isOf e = false) ∧ isOf .fixedLine = false ∧
      (shared = true ∨ isOf .mobile = false) := by
  cases h with
  | outside general =>
    rw [hgeneral] at general
    cases general
  | exclusive t _ mem matched =>
    refine ⟨fun ht => absurd mem (by rw [ht]; decide), fun ⟨hothers, _⟩ => ?_⟩
    rw [hothers t mem] at matched
    cases matched
  | fixedLine _ _ fixed =>
    refine ⟨fun ht => (by cases ht), fun ⟨_, hfixed, _⟩ => ?_⟩
    rw [hfixed] at fixed
    cases fixed
  | mobile _ _ _ unshared mobile =>
    refine ⟨fun ht => (by cases ht), fun ⟨_, _, hmobile⟩ => ?_⟩
    rw [unshared, mobile] at hmobile
    exact absurd hmobile (by decide)
  | either _ _ fixed =>
    refine ⟨fun ht => (by cases ht), fun ⟨_, hfixed, _⟩ => ?_⟩
    rw [hfixed] at fixed
    cases fixed
  | neither _ others fixed mobile => exact ⟨fun _ => ⟨others, fixed, mobile⟩, fun _ => rfl⟩

end Classified

/-! ## One question after another -/

namespace Classifier

variable {ρ : Type}

/-- The classifier's cache, if it has one, is one that requests lead to. -/
def Reachable : Classifier ρ → Prop
  | byProgram => True
  | byRegex engine cache => cache.Reachable engine.compile

/-- Matching without a cache. -/
def plain : Classifier ρ → Matcher
  | byProgram => fun d number => matchesProgram d number false
  | byRegex engine _ => fun d number => matchesRegexAfresh engine d number false

/-- A question to `c` is answered by `a`, and leaves a classifier that answers as `c` does. -/
structure Yields {α : Type} (c : Classifier ρ) (a : α) (reply : α × Classifier ρ) : Prop where
  answer : reply.1 = a
  reachable : reply.2.Reachable
  plain_eq : reply.2.plain = c.plain

section

variable {c : Classifier ρ} {α : Type} {a : α}

theorem Yields.none (h : c.Reachable) (a : α) : Yields c a (a, c) := ⟨rfl, h, rfl⟩

/-- A question that is put to a classifier after another one. -/
theorem Yields.after {β : Type} {b : β} {c' : Classifier ρ} {first : β × Classifier ρ}
    {reply : α × Classifier ρ} (h : Yields c b first) (hc' : first.2 = c')
    (h' : Yields c' a reply) : Yields c a reply :=
  ⟨h'.answer, h'.reachable, h'.plain_eq.trans (hc' ▸ h.plain_eq)⟩

end

section

variable (c : Classifier ρ) (hc : c.Reachable)

include hc

theorem yields_matchNumber (d : NumberDesc) (number : String) :
    Yields c (c.plain d number) (c.matchNumber d number) := by
  cases c with
  | byProgram => exact ⟨rfl, trivial, rfl⟩
  | byRegex engine cache =>
    obtain ⟨hanswer, hafter⟩ := matchesRegex_afresh engine d number false cache hc
    exact ⟨hanswer, hafter, rfl⟩

theorem yields_matchesDesc (number : String) (desc : Option NumberDesc) :
    Yields c (NumberPlan.matchesDesc c.plain number desc) (c.matchesDesc number desc) := by
  unfold matchesDesc NumberPlan.matchesDesc
  cases desc with
  | none => exact .none hc false
  | some d =>
    dsimp only
    split
    · exact .none hc false
    · exact yields_matchNumber c hc d number

theorem yields_firstType (r : Record) (number : String) (ts : List NumberType) :
    Yields c (ts.find? fun t => NumberPlan.matchesDesc c.plain number (r.descOf t))
      (c.firstType r number ts) := by
  induction ts generalizing c with
  | nil => exact .none hc none
  | cons t ts ih =>
    have hfirst := yields_matchesDesc c hc number (r.descOf t)
    rw [firstType, List.find?_cons, ← hfirst.answer]
    rcases hreply : c.matchesDesc number (r.descOf t) with ⟨answer, c'⟩
    rw [hreply] at hfirst
    cases answer with
    | true => exact ⟨rfl, hfirst.reachable, hfirst.plain_eq⟩
    | false =>
      have hrest := ih c' hfirst.reachable
      rw [hfirst.plain_eq] at hrest
      exact hfirst.after rfl hrest

/-- The type is the one without a cache. -/
theorem yields_numberType (r : Record) (number : String) :
    Yields c (NumberPlan.numberType c.plain r number) (c.numberType r number) := by
  have hgeneral := yields_matchesDesc c hc number r.general
  rcases hreply : c.matchesDesc number r.general with ⟨general, c₁⟩
  rw [hreply] at hgeneral
  have hothers := yields_firstType c₁ hgeneral.reachable r number NumberType.exclusive
  rcases hreply₁ : c₁.firstType r number NumberType.exclusive with ⟨other, c₂⟩
  rw [hreply₁] at hothers
  have hfixed := yields_matchesDesc c₂ hothers.reachable number r.fixedLine
  rcases hreply₂ : c₂.matchesDesc number r.fixedLine with ⟨fixed, c₃⟩
  rw [hreply₂] at hfixed
  have hmobile := yields_matchesDesc c₃ hfixed.reachable number r.mobile
  rcases hreply₃ : c₃.matchesDesc number r.mobile with ⟨mobile, c₄⟩
  rw [hreply₃] at hmobile
  have h₁ : c₁.plain = c.plain := hgeneral.plain_eq
  have h₂ : c₂.plain = c.plain := hothers.plain_eq.trans h₁
  have h₃ : c₃.plain = c.plain := hfixed.plain_eq.trans h₂
  have h₄ : c₄.plain = c.plain := hmobile.plain_eq.trans h₃
  have hgeneral_eq : NumberPlan.matchesDesc c.plain number (r.descOf .unknown) = general :=
    hgeneral.answer.symm
  have hother_eq : (NumberType.exclusive.find? fun t =>
      NumberPlan.matchesDesc c.plain number (r.descOf t)) = other := h₁ ▸ hothers.answer.symm
  have hfixed_eq : NumberPlan.matchesDesc c.plain number (r.descOf .fixedLine) = fixed :=
    h₂ ▸ hfixed.answer.symm
  have hmobile_eq : NumberPlan.matchesDesc c.plain number (r.descOf .mobile) = mobile :=
    h₃ ▸ hmobile.answer.symm
  unfold numberType NumberPlan.numberType
  simp only [hreply, hgeneral_eq, hother_eq, hfixed_eq, hmobile_eq]
  cases general with
  | false => exact ⟨rfl, hgeneral.reachable, h₁⟩
  | true =>
    simp only [hreply₁]
    cases other with
    | some t => exact ⟨rfl, hothers.reachable, h₂⟩
    | none =>
      simp only [hreply₂]
      -- the description of mobile phones is asked for only where the patterns are not shared
      cases fixed <;> cases r.sharesPattern
      · simp only [hreply₃]
        cases mobile <;> exact ⟨rfl, hmobile.reachable, h₄⟩
      · exact ⟨rfl, hfixed.reachable, h₃⟩
      · simp only [hreply₃]
        cases mobile <;> exact ⟨rfl, hmobile.reachable, h₄⟩
      · exact ⟨rfl, hfixed.reachable, h₃⟩

end

/-- Whether a number matches the description for a type. -/
def isOf (c : Classifier ρ) (r : Record) (number : String) (t : NumberType) : Bool :=
  (c.matchesDesc number (r.descOf t)).1

theorem classified (c : Classifier ρ) (hc : c.Reachable) (r : Record) (number : String) :
    Classified (c.isOf r number) r.sharesPattern (c.numberType r number).1 := by
  have hisOf : c.isOf r number = fun t => NumberPlan.matchesDesc c.plain number (r.descOf t) :=
    funext fun t => (yields_matchesDesc c hc number (r.descOf t)).answer
  rw [hisOf, (yields_numberType c hc r number).answer]
  exact classified_numberType c.plain r number

/-! ## Types that a record supports -/

/-- A match takes a program or a pattern. -/
theorem hasData_of_plain (c : Classifier ρ) (d : NumberDesc) (number : String)
    (h : c.plain d number = true) : d.hasData = true := by
  unfold NumberDesc.hasData
  cases c with
  | byProgram =>
    cases hprogram : d.program with
    | some program => exact Bool.or_true _
    | none =>
      have hfalse : matchesProgram d number false = false := by
        unfold matchesProgram
        rw [hprogram]
        rfl
      exact absurd (hfalse.symm.trans h) (by decide)
  | byRegex engine cache =>
    cases hpattern : d.pattern with
    | some pattern => rw [Option.isSome_some, Bool.or_true, Bool.true_or]
    | none =>
      have hfalse : matchesRegexAfresh engine d number false = false := by
        unfold matchesRegexAfresh
        rw [hpattern]
        rfl
      exact absurd (hfalse.symm.trans h) (by decide)

theorem mem_supportedTypes (c : Classifier ρ) (hc : c.Reachable) (r : Record) (number : String)
    (t : NumberType) (ht : c.isOf r number t = true) (heither : t ≠ .fixedLineOrMobile)
    (hunknown : t ≠ .unknown) : t ∈ r.supportedTypes := by
  have hall : t ∈ NumberType.all := by cases t <;> decide
  have hmatch := (yields_matchesDesc c hc number (r.descOf t)).answer.symm.trans ht
  unfold NumberPlan.matchesDesc at hmatch
  cases hdesc : r.descOf t with
  | none =>
    rw [hdesc] at hmatch
    cases hmatch
  | some d =>
    rw [hdesc] at hmatch
    dsimp only at hmatch
    split at hmatch
    · cases hmatch
    · have hdata := hasData_of_plain c d number hmatch
      exact List.mem_filter.mpr ⟨hall, by simp [heither, hunknown, hdesc, hdata]⟩

/-- A number with a type matches the general description and the one for the type, of which the
record says something.  The types of fixed lines and mobile phones exclude each other, and a number
has no type exactly where it matches no description that would give it one. -/
theorem numberType_outcomes (c : Classifier ρ) (hc : c.Reachable) (r : Record) (number : String) :
    (∀ t ≠ .unknown, (c.numberType r number).1 = t →
      c.isOf r number .unknown = true ∧ c.isOf r number t = true ∧
        (if t = .fixedLineOrMobile then .fixedLine else t) ∈ r.supportedTypes) ∧
    ((c.numberType r number).1 = .fixedLine →
      r.sharesPattern = false ∧ c.isOf r number .mobile = false) ∧
    ((c.numberType r number).1 = .mobile →
      r.sharesPattern = false ∧ c.isOf r number .fixedLine = false) ∧
    (c.isOf r number .unknown = true → ((c.numberType r number).1 = .unknown ↔
      (∀ e ∈ NumberType.exclusive, c.isOf r number e = false) ∧
        c.isOf r number .fixedLine = false ∧
        (r.sharesPattern = true ∨ c.isOf r number .mobile = false))) := by
  have hclass := c.classified hc r number
  refine ⟨?_, hclass.fixedLine_only, hclass.mobile_only, hclass.unknown_iff⟩
  rintro t ht rfl
  obtain ⟨hgeneral, hmatch⟩ := hclass.matched ht rfl
  refine ⟨hgeneral, hmatch, ?_⟩
  -- fixed lines have the description of what may be either
  split
  · next heither =>
    rw [heither] at hmatch
    exact c.mem_supportedTypes hc r number .fixedLine hmatch (by decide) (by decide)
  · next heither => exact c.mem_supportedTypes hc r number _ hmatch heither ht

/-- Numbers that start with a seven are those of mobile phones, others may be toll free.  There are
no fixed lines; a cache for one expression compiles each of them anew. -/
theorem numberType_outcomes_mobile :
    let r : Record := { Record.empty with
      general := some ⟨some "[1-9]\\d", [2], [], none, none, []⟩
      fixedLine := some ⟨none, [-1], [], none, none, []⟩
      mobile := some ⟨some "7.", [], [], none, none, []⟩
      tollFree := some ⟨some "8(?:0|8)", [2], [], none, none, []⟩ }
    let c : Classifier Regex.Expr := byRegex Regex.engine (.withCapacity 1)
    (c.numberType r "71").1 = .mobile ∧ (c.numberType r "72").1 = .mobile ∧
      c.isOf r "71" .unknown = true ∧ c.isOf r "71" .mobile = true ∧
      NumberType.mobile ∈ r.supportedTypes ∧ c.isOf r "71" .fixedLine = false := by
  intro r c
  have hc : c.Reachable := .empty 1
  have hmobile : (c.numberType r "71").1 = .mobile := by decide +kernel
  have houtcomes := numberType_outcomes c hc r "71"
  obtain ⟨hgeneral, hmatch, hsupported⟩ := houtcomes.1 .mobile (by decide) hmobile
  exact ⟨hmobile, by decide +kernel, hgeneral, hmatch, hsupported, (houtcomes.2.2.1 hmobile).2⟩

end Classifier

/-! ## Scripts -/

/-- A number has one of the possible lengths, if any are given. -/
def NumberDesc.allows (d : NumberDesc) (number : String) : Bool :=
  d.possibleLengths.isEmpty || d.possibleLengths.contains (numberLength number)

theorem matchesDesc_some (matcher : Matcher) (number : String) (d : NumberDesc) :
    matchesDesc matcher number (some d) = (d.allows number && matcher d number) := by
  unfold matchesDesc NumberDesc.allows
  dsimp only
  cases d.possibleLengths.isEmpty <;> cases d.possibleLengths.contains (numberLength number) <;> rfl

/-- The type depends on nothing but the answers for the descriptions. -/
theorem numberType_congr (matcher : Matcher) (r : Record) (number number' : String)
    (h : ∀ t, matchesDesc matcher number (r.descOf t) = matchesDesc matcher number' (r.descOf t)) :
    numberType matcher r number = numberType matcher r number' := by
  unfold numberType
  rw [funext h]

section

variable (number : String) (w : List Digit) (hw : readDigits number = .ok w)

include hw

theorem matchesProgram_of_script (d : NumberDesc) (lead : Bool) :
    matchesProgram d number lead = matchesProgram d (asciiOfDigits w) lead := by
  unfold matchesProgram
  rw [hw, readDigits_asciiOfDigits]

namespace Classifier

variable {ρ : Type}

/-- A match by program does not depend on the script of the digits.  A possible length does, since
it is compared with the number of bytes; where that makes no difference, neither the descriptions
that a number matches nor its type depend on the script. -/
theorem numberType_of_script :
    (∀ d lead, matchesProgram d number lead = matchesProgram d (asciiOfDigits w) lead) ∧
    (∀ d : NumberDesc,
      ((default : Classifier ρ).matchesDesc number (some d)).1 =
          ((default : Classifier ρ).matchesDesc (asciiOfDigits w) (some d)).1 ↔
        (matchesProgram d (asciiOfDigits w) false = true →
          d.allows number = d.allows (asciiOfDigits w))) ∧
    (∀ r : Record,
      (∀ t d, r.descOf t = some d → d.allows number = d.allows (asciiOfDigits w)) →
        ((default : Classifier ρ).numberType r number).1 =
            ((default : Classifier ρ).numberType r (asciiOfDigits w)).1 ∧
          ((default : Classifier ρ).isValidNumber r number).1 =
            ((default : Classifier ρ).isValidNumber r (asciiOfDigits w)).1) := by
  have hc : (default : Classifier ρ).Reachable := trivial
  have hscript := matchesProgram_of_script number w hw
  have hmatch : ∀ d, (default : Classifier ρ).plain d number =
      (default : Classifier ρ).plain d (asciiOfDigits w) := fun d => hscript d false
  refine ⟨hscript, fun d => ?_, fun r hallows => ?_⟩
  · rw [(yields_matchesDesc _ hc number _).answer, (yields_matchesDesc _ hc _ _).answer,
      matchesDesc_some, matchesDesc_some, hmatch]
    show (_ && matchesProgram d (asciiOfDigits w) false) =
      (_ && matchesProgram d (asciiOfDigits w) false) ↔ _
    cases matchesProgram d (asciiOfDigits w) false <;> simp
  · have htype : ((default : Classifier ρ).numberType r number).1 =
        ((default : Classifier ρ).numberType r (asciiOfDigits w)).1 := by
      rw [(yields_numberType _ hc r number).answer, (yields_numberType _ hc r _).answer]
      refine numberType_congr _ r number _ fun t => ?_
      cases hdesc : r.descOf t with
      | none => rfl
      | some d => rw [matchesDesc_some, matchesDesc_some, hmatch, hallows t d hdesc]
    exact ⟨htype, congrArg (· != NumberType.unknown) htype⟩

end Classifier

end

namespace Classifier

/-- Three Arabic digits take six bytes.  Where both three and six are possible lengths, they have
the type of the ASCII digits. -/
theorem numberType_of_script_both :
    let d : NumberDesc := ⟨none, [3, 6], [], none, some [35, 35, 35, 0], []⟩
    let r : Record := { Record.empty with general := some d, fixedLine := some d }
    readDigits "٣٣٣" = .ok [3, 3, 3] ∧ asciiOfDigits [3, 3, 3] = "333" ∧
      d.allows "٣٣٣" = d.allows "333" ∧
      ((default : Classifier Regex.Expr).numberType r "٣٣٣").1 =
        ((default : Classifier Regex.Expr).numberType r "333").1 ∧
      ((default : Classifier Regex.Expr).numberType r "٣٣٣").1 = .fixedLine := by
  intro d r
  have hread : readDigits "٣٣٣" = .ok [3, 3, 3] := by decide +kernel
  have hascii : asciiOfDigits [3, 3, 3] = "333" := by decide +kernel
  have hallows : d.allows "٣٣٣" = d.allows "333" := by decide +kernel
  obtain ⟨-, -, htype⟩ := numberType_of_script (ρ := Regex.Expr) "٣٣٣" [3, 3, 3] hread
  have hsame := htype r fun t d' hd' => by
    have hd : d = d' := by cases t <;> cases hd' <;> rfl
    rw [← hd, hascii, hallows]
  rw [hascii] at hsame
  exact ⟨hread, hascii, hallows, hsame.1, by decide +kernel⟩

/-- Where three is the only length, the Arabic digits have no type. -/
theorem numberType_of_script_refused :
    ¬ ∀ (r : Record) (number : String) (w : List Digit), readDigits number = .ok w →
      ((default : Classifier Regex.Expr).numberType r number).1 =
        ((default : Classifier Regex.Expr).numberType r (asciiOfDigits w)).1 := by
  intro h
  let d : NumberDesc := ⟨none, [3], [], none, some [35, 35, 35, 0], []⟩
  have hread : readDigits "٣٣٣" = .ok [3, 3, 3] := by decide +kernel
  have hsame := h { Record.empty with general := some d, fixedLine := some d } "٣٣٣" _ hread
  exact absurd hsame (by decide +kernel)

end Classifier

end NumberPlan
