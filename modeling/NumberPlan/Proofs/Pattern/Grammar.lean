import NumberPlan.Pattern.Reading
import NumberPlan.Proofs.Digit
import NumberPlan.Proofs.Pattern.Slots

/-!
# The grammar of patterns

The texts of patterns as a relation to the patterns they stand for.  Reading accepts exactly the
texts of the grammar, so a text stands for at most one pattern.

    readPattern s = .ok p ↔ PatternText s.toList p                    (readPattern_iff)
    PatternText cs p → p.Proper                                       (PatternText.proper)
-/

namespace NumberPlan

/-! ## Grammar -/

/-- Decimal digits, at least one, for a number. -/
def CountText (cs : List Char) (n : Nat) : Prop :=
  ∃ ds, ds ≠ [] ∧ cs = ds.map Digit.toChar ∧ n = numberOf ds

/-- Digits and ascending ranges, for the set of their members. -/
inductive ClassText : List Char → DigitSet → Prop
  | nil : ClassText [] DigitSet.empty
  | digit (d : Digit) (cs : List Char) (s : DigitSet) (h : ClassText cs s) :
    ClassText (d.toChar :: cs) (DigitSet.single d ||| s)
  | range (lo hi : Digit) (cs : List Char) (s : DigitSet) (hle : lo ≤ hi) (h : ClassText cs s) :
    ClassText (lo.toChar :: '-' :: hi.toChar :: cs) (DigitSet.span lo hi ||| s)

/-- A digit, any digit, or a class with a member. -/
inductive AtomText : List Char → DigitSet → Prop
  | digit (d : Digit) : AtomText [d.toChar] (DigitSet.single d)
  | any : AtomText ['\\', 'd'] DigitSet.full
  | digitClass (body : List Char) (s : DigitSet) (hne : body ≠ []) (h : ClassText body s) :
    AtomText ('[' :: (body ++ [']'])) s

/-- How often an atom may occur. -/
inductive QuantifierText : List Char → Nat → Nat → Prop
  | once : QuantifierText [] 1 1
  | optional : QuantifierText ['?'] 0 1
  | exactly (cs : List Char) (n : Nat) (h : CountText cs n) (hpos : 1 ≤ n)
    (hmax : n ≤ maxRepetition) : QuantifierText ('{' :: (cs ++ ['}'])) n n
  | between (as bs : List Char) (n m : Nat) (ha : CountText as n) (hb : CountText bs m)
    (hle : n ≤ m) (hpos : 1 ≤ m) (hmax : m ≤ maxRepetition) :
    QuantifierText ('{' :: (as ++ ',' :: (bs ++ ['}']))) n m

/-- An atom and its quantifier. -/
def ItemText (cs : List Char) (i : Item) : Prop :=
  ∃ as qs, cs = as ++ qs ∧ AtomText as i.digits ∧ QuantifierText qs i.least i.most

/-- Items one after the other. -/
inductive SequenceText : List Char → List Item → Prop
  | nil : SequenceText [] []
  | cons (cs ds : List Char) (i : Item) (is : List Item) (hi : ItemText cs i)
    (h : SequenceText ds is) : SequenceText (cs ++ ds) (i :: is)

/-- Alternatives between bars, each with an item. -/
inductive PatternText : List Char → Pattern → Prop
  | last (cs : List Char) (a : List Item) (h : SequenceText cs a) (hne : a ≠ []) :
    PatternText cs [a]
  | more (cs ds : List Char) (a : List Item) (p : Pattern) (h : SequenceText cs a) (hne : a ≠ [])
    (hp : PatternText ds p) : PatternText (cs ++ '|' :: ds) (a :: p)

/-! ## Counts -/

/-- A count that stops growing at the limit, with the digits read before. -/
def countFrom (sofar : Option Nat) (ds : List Digit) : Option Nat :=
  ds.foldl (fun n d => some (min (10 * n.getD 0 + d.val) countLimit)) sofar

theorem countFrom_some (ds : List Digit) : ∀ n,
    countFrom (some (min n countLimit)) ds
      = some (min (ds.foldl (fun n d => 10 * n + d.val) n) countLimit) := by
  induction ds with
  | nil => exact fun _ => rfl
  | cons d ds ih =>
    intro n
    have hmin : min (10 * min n countLimit + d.val) countLimit = min (10 * n + d.val) countLimit := by
      unfold countLimit
      omega
    rw [countFrom, List.foldl_cons, Option.getD_some, hmin]
    exact ih _

theorem countFrom_none (ds : List Digit) (h : ds ≠ []) :
    countFrom none ds = some (min (numberOf ds) countLimit) := by
  cases ds with
  | nil => exact absurd rfl h
  | cons d ds => exact countFrom_some ds (10 * 0 + d.val)

/-- No decimal digit comes first. -/
def NoDigitAhead (cs : List Char) : Prop := ∀ c ∈ cs.head?, Digit.ofAscii? c = none

theorem readCount_digits (ds : List Digit) (rest : List Char) (h : NoDigitAhead rest) :
    ∀ sofar position, ∃ place, readCount sofar position (ds.map Digit.toChar ++ rest)
      = (countFrom sofar ds, ⟨place, rest⟩) := by
  induction ds with
  | nil =>
    intro sofar position
    refine ⟨position, ?_⟩
    cases rest with
    | nil => rfl
    | cons c rest =>
      rw [List.map_nil, List.nil_append, readCount, h c rfl]
      rfl
  | cons d ds ih =>
    intro sofar position
    rw [List.map_cons, List.cons_append, readCount, ofAscii?_toChar]
    exact ih _ _

theorem readCount_split (cs : List Char) : ∀ sofar position,
    ∃ ds place rest, cs = ds.map Digit.toChar ++ rest ∧
      readCount sofar position cs = (countFrom sofar ds, ⟨place, rest⟩) := by
  induction cs with
  | nil => exact fun sofar position => ⟨[], position, [], rfl, rfl⟩
  | cons c cs ih =>
    intro sofar position
    rw [readCount]
    cases hc : Digit.ofAscii? c with
    | none => exact ⟨[], position, c :: cs, rfl, rfl⟩
    | some d =>
      obtain ⟨ds, place, rest, hcs, hread⟩ :=
        ih (some (min (10 * sofar.getD 0 + d.val) countLimit)) (position + 1)
      refine ⟨d :: ds, place, rest, ?_, hread⟩
      rw [hcs, (ofAscii?_eq_some c d).mp hc]
      rfl

theorem requireCount_text (start : Nat) (cs : List Char) (n : Nat) (h : CountText cs n)
    (rest : List Char) (hrest : NoDigitAhead rest) (position : Nat) :
    ∃ place, requireCount start ⟨position, cs ++ rest⟩
      = .ok (min n countLimit, ⟨place, rest⟩) := by
  obtain ⟨ds, hne, rfl, rfl⟩ := h
  obtain ⟨place, hread⟩ := readCount_digits ds rest hrest none position
  refine ⟨place, ?_⟩
  rw [requireCount, hread, countFrom_none ds hne]

theorem requireCount_sound (start : Nat) (t rest : Unread) (n : Nat)
    (h : requireCount start t = .ok (n, rest)) :
    ∃ cs k, t.chars = cs ++ rest.chars ∧ CountText cs k ∧ n = min k countLimit := by
  obtain ⟨ds, place, left, hcs, hread⟩ := readCount_split t.chars none t.position
  rw [requireCount, hread] at h
  cases hds : ds with
  | nil =>
    rw [hds] at h
    cases left <;> cases h
  | cons d ds' =>
    rw [hds, countFrom_none _ (List.cons_ne_nil _ _)] at h
    cases h
    exact ⟨ds.map Digit.toChar, numberOf ds, hcs, ⟨ds, by rw [hds]; exact List.cons_ne_nil _ _,
      rfl, rfl⟩, by rw [hds]⟩

/-! ## Quantifiers -/

theorem closeRepetition_sound (start least most n m : Nat) (t rest : Unread)
    (h : closeRepetition start least most t = .ok (n, m, rest)) :
    t.chars = '}' :: rest.chars ∧ n = least ∧ m = most ∧ least ≤ most ∧ 1 ≤ most ∧
      most ≤ maxRepetition := by
  unfold closeRepetition at h
  split at h
  · cases h
  · next c cs hcs =>
    split at h
    · next hc =>
      split at h
      · next hbounds =>
        cases h
        exact ⟨by rw [hcs, hc]; rfl, rfl, rfl, hbounds⟩
      · cases h
    · cases h

theorem closeRepetition_text (start least most position : Nat) (rest : List Char)
    (h : least ≤ most ∧ 1 ≤ most ∧ most ≤ maxRepetition) :
    ∃ place, closeRepetition start least most ⟨position, '}' :: rest⟩
      = .ok (least, most, ⟨place, rest⟩) := by
  unfold closeRepetition
  dsimp only
  rw [if_pos rfl, if_pos h]
  exact ⟨_, rfl⟩

theorem min_countLimit (k : Nat) (h : min k countLimit ≤ maxRepetition) : min k countLimit = k := by
  unfold maxRepetition at h
  unfold countLimit at h ⊢
  omega

theorem readRepetition_sound (start n m : Nat) (t rest : Unread)
    (h : readRepetition start t = .ok (n, m, rest)) :
    ∃ qs, t.chars = qs ++ rest.chars ∧ QuantifierText ('{' :: qs) n m := by
  unfold readRepetition at h
  cases hleast : requireCount start t with
  | error e =>
    rw [hleast] at h
    cases h
  | ok r =>
    obtain ⟨least, left⟩ := r
    obtain ⟨as, k, has, hk, rfl⟩ := requireCount_sound start t left least hleast
    rw [hleast] at h
    dsimp only at h
    split at h
    · next cs hcs =>
      cases hmost : requireCount start (left.after ',' cs) with
      | error e =>
        rw [hmost] at h
        cases h
      | ok r =>
        obtain ⟨most, last⟩ := r
        obtain ⟨bs, j, hbs, hj, rfl⟩ := requireCount_sound start _ last most hmost
        rw [hmost] at h
        obtain ⟨hlast, rfl, rfl, hle, hpos, hmax⟩ := closeRepetition_sound start _ _ n m last rest h
        have hjeq := min_countLimit j hmax
        have hkeq := min_countLimit k (Nat.le_trans hle hmax)
        rw [hjeq, hkeq] at hle
        rw [hjeq] at hpos hmax
        refine ⟨as ++ ',' :: (bs ++ ['}']), ?_, ?_⟩
        · have : cs = bs ++ last.chars := hbs
          rw [has, hcs, this, hlast]
          simp
        · rw [hjeq, hkeq]
          exact QuantifierText.between as bs k j hk hj hle hpos hmax
    · obtain ⟨hlast, rfl, rfl, -, hpos, hmax⟩ := closeRepetition_sound start _ _ n m left rest h
      have hkeq := min_countLimit k hmax
      rw [hkeq] at hpos hmax ⊢
      refine ⟨as ++ ['}'], ?_, QuantifierText.exactly as k hk hpos hmax⟩
      rw [has, hlast]
      simp

theorem readQuantifier_sound (t rest : Unread) (n m : Nat)
    (h : readQuantifier t = .ok (n, m, rest)) :
    ∃ qs, t.chars = qs ++ rest.chars ∧ QuantifierText qs n m := by
  unfold readQuantifier at h
  split at h
  · next cs hcs =>
    cases h
    exact ⟨['?'], hcs, QuantifierText.optional⟩
  · next cs hcs =>
    obtain ⟨qs, hqs, htext⟩ := readRepetition_sound _ n m _ rest h
    refine ⟨'{' :: qs, ?_, htext⟩
    rw [hcs, List.cons_append, ← hqs]
    rfl
  · cases h
    exact ⟨[], rfl, QuantifierText.once⟩

/-- No quantifier comes first. -/
def NoQuantifierAhead (cs : List Char) : Prop := ∀ c ∈ cs.head?, c ≠ '?' ∧ c ≠ '{'

theorem noDigitAhead_cons (c : Char) (cs : List Char) (h : Digit.ofAscii? c = none) :
    NoDigitAhead (c :: cs) := by
  intro e he
  cases he
  exact h

theorem readQuantifier_text (qs : List Char) (n m : Nat) (h : QuantifierText qs n m)
    (rest : List Char) (hrest : NoQuantifierAhead rest) (position : Nat) :
    ∃ place, readQuantifier ⟨position, qs ++ rest⟩ = .ok (n, m, ⟨place, rest⟩) := by
  cases h with
  | once =>
    refine ⟨position, ?_⟩
    unfold readQuantifier
    split
    · next cs hcs => exact absurd rfl (hrest '?' (by rw [show rest = '?' :: cs from hcs]; rfl)).1
    · next cs hcs => exact absurd rfl (hrest '{' (by rw [show rest = '{' :: cs from hcs]; rfl)).2
    · rfl
  | optional => exact ⟨_, rfl⟩
  | exactly cs n hc hpos hmax =>
    have hn : min n countLimit = n := min_countLimit n (by omega)
    have hclose := noDigitAhead_cons '}' rest (by decide)
    obtain ⟨place, hread⟩ := requireCount_text position cs n hc _ hclose (position + '{'.utf8Size)
    obtain ⟨place', hend⟩ := closeRepetition_text position n n place rest ⟨Nat.le_refl _, hpos, hmax⟩
    refine ⟨place', ?_⟩
    rw [List.cons_append, List.append_assoc]
    show readRepetition position ⟨position + '{'.utf8Size, cs ++ '}' :: rest⟩ = _
    rw [readRepetition, hread, hn]
    exact hend
  | between as bs n m ha hb hle hpos hmax =>
    have hn : min n countLimit = n := min_countLimit n (by omega)
    have hm : min m countLimit = m := min_countLimit m (by omega)
    have hcomma := noDigitAhead_cons ',' (bs ++ '}' :: rest) (by decide)
    have hclose := noDigitAhead_cons '}' rest (by decide)
    obtain ⟨place, hread⟩ := requireCount_text position as n ha _ hcomma (position + '{'.utf8Size)
    obtain ⟨place', hread'⟩ := requireCount_text position bs m hb _ hclose (place + ','.utf8Size)
    obtain ⟨place'', hend⟩ := closeRepetition_text position n m place' rest ⟨hle, hpos, hmax⟩
    refine ⟨place'', ?_⟩
    rw [List.cons_append, List.append_assoc, List.cons_append, List.append_assoc]
    show readRepetition position ⟨position + '{'.utf8Size, as ++ ',' :: (bs ++ '}' :: rest)⟩ = _
    rw [readRepetition, hread, hn]
    simp only [Unread.after, hread', hm]
    exact hend

/-! ## Atoms -/

theorem toChar_ne (d : Digit) (c : Char) (h : Digit.ofAscii? c = none) : d.toChar ≠ c := by
  rintro rfl
  rw [ofAscii?_toChar] at h
  cases h

theorem or_ne_empty (s t : DigitSet) (h : s ≠ DigitSet.empty) : s ||| t ≠ DigitSet.empty := by
  obtain ⟨d, hd⟩ := s.exists_mem_of_ne_empty h
  intro heq
  have hmem : DigitSet.mem (s ||| t) d = true := by rw [DigitSet.mem_union, hd, Bool.true_or]
  rw [heq, DigitSet.mem_empty] at hmem
  cases hmem

theorem single_ne_empty (d : Digit) : DigitSet.single d ≠ DigitSet.empty := by
  revert d
  decide

theorem span_ne_empty (lo hi : Digit) (h : lo ≤ hi) : DigitSet.span lo hi ≠ DigitSet.empty := by
  intro heq
  have hmem : (DigitSet.span lo hi).mem lo = true := by
    rw [DigitSet.mem_span, decide_eq_true (Fin.le_refl lo), decide_eq_true h]
    rfl
  rw [heq, DigitSet.mem_empty] at hmem
  cases hmem

theorem ClassText.ne_empty (body : List Char) (s : DigitSet) (h : ClassText body s)
    (hne : body ≠ []) : s ≠ DigitSet.empty := by
  cases h with
  | nil => exact absurd rfl hne
  | digit d cs s h => exact or_ne_empty _ s (single_ne_empty d)
  | range lo hi cs s hle h => exact or_ne_empty _ s (span_ne_empty lo hi hle)

theorem readClass_sound (start : Nat) (sofar : DigitSet) (position : Nat) (cs : List Char)
    (s : DigitSet) (rest : Unread) (h : readClass start sofar position cs = .ok (s, rest)) :
    ∃ body t, cs = body ++ ']' :: rest.chars ∧ ClassText body t ∧ s = sofar ||| t ∧
      s ≠ DigitSet.empty := by
  fun_induction readClass start sofar position cs with
  | case3 sofar position cs hne =>
    cases h
    exact ⟨[], DigitSet.empty, rfl, ClassText.nil, BitVec.or_zero.symm, hne⟩
  | case7 sofar position c _ lo hlo e ds hi hhi hle ih =>
    obtain ⟨body, t, rfl, htext, hs, hne⟩ := ih h
    rw [(ofAscii?_eq_some c lo).mp hlo, (ofAscii?_eq_some e hi).mp hhi]
    exact ⟨_, _, rfl, ClassText.range lo hi body t hle htext, by rw [hs, BitVec.or_assoc], hne⟩
  | case9 sofar position c _ d hd cs _ _ ih =>
    obtain ⟨body, t, rfl, htext, hs, hne⟩ := ih h
    rw [(ofAscii?_eq_some c d).mp hd]
    exact ⟨_, _, rfl, ClassText.digit d body t htext, by rw [hs, BitVec.or_assoc], hne⟩
  | case1 => cases h
  | case2 => cases h
  | case4 => cases h
  | case5 => cases h
  | case6 => cases h
  | case8 => cases h

theorem readClass_text (start : Nat) (body : List Char) (t : DigitSet) (h : ClassText body t)
    (rest : List Char) : ∀ (sofar : DigitSet) (position : Nat), sofar ||| t ≠ DigitSet.empty →
      ∃ place, readClass start sofar position (body ++ ']' :: rest)
        = .ok (sofar ||| t, ⟨place, rest⟩) := by
  induction h with
  | nil =>
    intro sofar position hne
    have hor : sofar ||| DigitSet.empty = sofar := BitVec.or_zero
    rw [hor] at hne ⊢
    refine ⟨position + 1, ?_⟩
    rw [List.nil_append, readClass, if_pos rfl, if_neg hne]
  | digit d cs t h ih =>
    intro sofar position hne
    rw [← BitVec.or_assoc] at hne ⊢
    obtain ⟨place, hread⟩ := ih _ (position + 1) hne
    refine ⟨place, ?_⟩
    rw [List.cons_append, readClass, if_neg (toChar_ne d ']' (by decide)), ofAscii?_toChar, ← hread]
    -- a class goes on with a digit or ends with its bracket, so no range starts here
    have hhead : ∀ c ∈ (cs ++ ']' :: rest).head?, c ≠ '-' := by
      intro c hc
      cases h with
      | nil =>
        cases hc
        decide
      | digit e cs t h =>
        cases hc
        exact toChar_ne e '-' (by decide)
      | range lo hi cs t hle h =>
        cases hc
        exact toChar_ne lo '-' (by decide)
    generalize cs ++ ']' :: rest = l at hhead
    dsimp only
    split
    · exact absurd rfl (hhead '-' rfl)
    · exact absurd rfl (hhead '-' rfl)
    · rfl
  | range lo hi cs t hle h ih =>
    intro sofar position hne
    rw [← BitVec.or_assoc] at hne ⊢
    obtain ⟨place, hread⟩ := ih _ (position + 3) hne
    refine ⟨place, ?_⟩
    rw [List.cons_append, List.cons_append, List.cons_append, readClass,
      if_neg (toChar_ne lo ']' (by decide)), ofAscii?_toChar]
    simp only [ofAscii?_toChar]
    rw [if_pos hle, hread]

theorem readAtom_sound (position : Nat) (c : Char) (cs : List Char) (s : DigitSet) (rest : Unread)
    (h : readAtom position c cs = .ok (s, rest)) :
    ∃ as, c :: cs = as ++ rest.chars ∧ AtomText as s := by
  unfold readAtom at h
  split at h
  · next d hd =>
    cases h
    exact ⟨[d.toChar], by rw [(ofAscii?_eq_some c d).mp hd]; rfl, AtomText.digit d⟩
  · split at h
    · next hc =>
      cases cs with
      | nil => cases h
      | cons e cs =>
        dsimp only at h
        split at h
        · next he =>
          cases h
          exact ⟨['\\', 'd'], by rw [hc, he]; rfl, AtomText.any⟩
        · cases h
    · split at h
      · next hc =>
        obtain ⟨body, t, hcs, htext, hs, hne⟩ := readClass_sound _ _ _ _ s rest h
        have ht : s = t := by rw [hs]; exact BitVec.zero_or
        refine ⟨'[' :: (body ++ [']']), ?_, ?_⟩
        · rw [hc, hcs]
          simp
        · refine AtomText.digitClass body s ?_ (ht ▸ htext)
          rintro rfl
          cases htext
          exact hne ht
      · cases h

theorem readAtom_text (as : List Char) (s : DigitSet) (h : AtomText as s) (rest cs : List Char)
    (c : Char) (hcs : as ++ rest = c :: cs) (position : Nat) :
    ∃ place, readAtom position c cs = .ok (s, ⟨place, rest⟩) := by
  cases h with
  | digit d =>
    obtain ⟨rfl, rfl⟩ := List.cons.inj hcs
    exact ⟨position + 1, by unfold readAtom; rw [ofAscii?_toChar]; rfl⟩
  | any =>
    obtain ⟨rfl, rfl⟩ := List.cons.inj hcs
    exact ⟨position + 2, rfl⟩
  | digitClass body s hne htext =>
    obtain ⟨rfl, rfl⟩ := List.cons.inj hcs
    have hor : DigitSet.empty ||| s = s := BitVec.zero_or
    have hread := readClass_text position body s htext rest DigitSet.empty (position + 1)
    rw [hor] at hread
    obtain ⟨place, hread⟩ := hread (htext.ne_empty body s hne)
    refine ⟨place, ?_⟩
    show readClass position DigitSet.empty (position + 1) (body ++ [']'] ++ rest) = _
    rw [List.append_assoc]
    exact hread

/-! ## Items -/

theorem readItem_sound (position : Nat) (c : Char) (cs : List Char) (i : Item) (rest : Unread)
    (h : readItem position c cs = .ok (i, rest)) :
    ∃ is, c :: cs = is ++ rest.chars ∧ ItemText is i := by
  unfold readItem at h
  cases hatom : readAtom position c cs with
  | error e =>
    rw [hatom] at h
    cases h
  | ok r =>
    obtain ⟨s, left⟩ := r
    obtain ⟨as, has, htext⟩ := readAtom_sound position c cs s left hatom
    rw [hatom] at h
    dsimp only at h
    cases hquant : readQuantifier left with
    | error e =>
      rw [hquant] at h
      cases h
    | ok r =>
      obtain ⟨n, m, last⟩ := r
      obtain ⟨qs, hqs, hqtext⟩ := readQuantifier_sound left last n m hquant
      rw [hquant] at h
      cases h
      exact ⟨as ++ qs, by rw [has, hqs, List.append_assoc], as, qs, rfl, htext, hqtext⟩

theorem readItem_text (is : List Char) (i : Item) (h : ItemText is i) (rest cs : List Char)
    (hrest : NoQuantifierAhead rest) (c : Char) (hcs : is ++ rest = c :: cs) (position : Nat) :
    ∃ place, readItem position c cs = .ok (i, ⟨place, rest⟩) := by
  obtain ⟨as, qs, rfl, hatom, hquant⟩ := h
  rw [List.append_assoc] at hcs
  obtain ⟨place, hread⟩ := readAtom_text as _ hatom (qs ++ rest) cs c hcs position
  obtain ⟨place', hread'⟩ := readQuantifier_text qs _ _ hquant rest hrest place
  refine ⟨place', ?_⟩
  rw [readItem, hread]
  dsimp only
  rw [hread']

/-- The first character of an item is that of its atom. -/
theorem ItemText.head (is : List Char) (i : Item) (h : ItemText is i) :
    ∃ c cs, is = c :: cs ∧ c ≠ '|' ∧ c ≠ '?' ∧ c ≠ '{' := by
  obtain ⟨as, qs, rfl, hatom, -⟩ := h
  generalize i.digits = s at hatom
  cases hatom with
  | digit d =>
    exact ⟨_, _, rfl, toChar_ne d '|' (by decide), toChar_ne d '?' (by decide),
      toChar_ne d '{' (by decide)⟩
  | any => exact ⟨_, _, rfl, by decide, by decide, by decide⟩
  | digitClass body s hne htext => exact ⟨_, _, rfl, by decide, by decide, by decide⟩

/-! ## Patterns -/

/-- The text goes on inside an alternative that holds some items, latest first. -/
def RestText (items : List Item) (cs : List Char) (p : Pattern) : Prop :=
  ∃ ds a, SequenceText ds a ∧ items.reverse ++ a ≠ [] ∧
    (cs = ds ∧ p = [items.reverse ++ a] ∨
      ∃ es q, cs = ds ++ '|' :: es ∧ PatternText es q ∧ p = (items.reverse ++ a) :: q)

theorem RestText.patternText (cs : List Char) (p : Pattern) (h : RestText [] cs p) :
    PatternText cs p := by
  obtain ⟨ds, a, hseq, hne, hrest⟩ := h
  rw [List.reverse_nil, List.nil_append] at hne hrest
  rcases hrest with ⟨rfl, rfl⟩ | ⟨es, q, rfl, hq, rfl⟩
  · exact PatternText.last cs a hseq hne
  · exact PatternText.more ds es a q hseq hne hq

theorem RestText.stop (items : List Item) (hne : items ≠ []) :
    RestText items [] [items.reverse] := by
  refine ⟨[], [], SequenceText.nil, ?_, Or.inl ⟨rfl, ?_⟩⟩
  · simpa using hne
  · rw [List.append_nil]

theorem RestText.bar (items : List Item) (hne : items ≠ []) (cs : List Char) (q : Pattern)
    (h : PatternText cs q) : RestText items ('|' :: cs) (items.reverse :: q) := by
  refine ⟨[], [], SequenceText.nil, ?_, Or.inr ⟨cs, q, rfl, h, ?_⟩⟩
  · simpa using hne
  · rw [List.append_nil]

theorem RestText.item (items : List Item) (is cs : List Char) (i : Item) (hi : ItemText is i)
    (p : Pattern) (h : RestText (i :: items) cs p) : RestText items (is ++ cs) p := by
  obtain ⟨ds, a, hseq, hne, hrest⟩ := h
  rw [List.reverse_cons, List.append_assoc] at hne hrest
  refine ⟨is ++ ds, i :: a, SequenceText.cons is ds i a hi hseq, hne, ?_⟩
  rcases hrest with ⟨rfl, rfl⟩ | ⟨es, q, rfl, hq, rfl⟩
  · exact Or.inl ⟨rfl, rfl⟩
  · exact Or.inr ⟨es, q, (List.append_assoc ..).symm, hq, rfl⟩

/-- Where the text ends, so does the last alternative. -/
theorem restText_of_end (start : Nat) (items : List Item) (p : Pattern)
    (h : (if items.isEmpty then .error (.emptyAlternative start) else .ok [items.reverse]
      : Except PatternError Pattern) = .ok p) : RestText items [] p := by
  split at h
  · cases h
  · next hne =>
    cases h
    exact RestText.stop items (by simpa using hne)

theorem readAlternatives_sound (fuel : Nat) : ∀ (start : Nat) (items : List Item) (t : Unread)
    (p : Pattern), t.chars.length ≤ fuel → readAlternatives fuel start items t = .ok p →
    RestText items t.chars p := by
  induction fuel with
  | zero =>
    intro start items t p hlen h
    rw [readAlternatives.eq_def] at h
    rw [List.length_eq_zero_iff.mp (Nat.le_zero.mp hlen)]
    exact restText_of_end start items p h
  | succ fuel ih =>
    intro start items t p hlen h
    rw [readAlternatives.eq_def] at h
    dsimp only at h
    cases hcs : t.chars with
    | nil =>
      rw [hcs] at h
      exact restText_of_end start items p h
    | cons c cs =>
      rw [hcs] at h hlen
      dsimp only at h
      rw [List.length_cons] at hlen
      by_cases hbar : c = '|'
      · rw [if_pos hbar] at h
        split at h
        · cases h
        · next hne =>
          cases hread : readAlternatives fuel (t.position + 1) [] (t.after c cs) with
          | error e =>
            rw [hread] at h
            cases h
          | ok q =>
            rw [hread] at h
            cases h
            have hrest := ih _ [] (t.after c cs) q (Nat.le_of_succ_le_succ hlen) hread
            rw [hbar]
            exact RestText.bar items (by simpa using hne) cs q hrest.patternText
      · rw [if_neg hbar] at h
        cases hitem : readItem t.position c cs with
        | error e =>
          rw [hitem] at h
          cases h
        | ok r =>
          obtain ⟨i, rest⟩ := r
          rw [hitem] at h
          obtain ⟨is, his, htext⟩ := readItem_sound _ c cs i rest hitem
          have hshort : rest.chars.length ≤ fuel := by
            obtain ⟨e, es, rfl, -⟩ := htext.head
            have := congrArg List.length his
            rw [List.length_cons, List.length_append, List.length_cons] at this
            omega
          rw [his]
          exact RestText.item items is rest.chars i htext p (ih start (i :: items) rest p hshort h)

theorem noQuantifierAhead_cons (c : Char) (cs : List Char) (h : c ≠ '?' ∧ c ≠ '{') :
    NoQuantifierAhead (c :: cs) := by
  intro e he
  cases he
  exact h

/-- Items are read one after the other. -/
theorem readAlternatives_items (cs : List Char) (a : List Item) (h : SequenceText cs a)
    (rest : List Char) (hrest : NoQuantifierAhead rest) :
    ∀ (fuel start : Nat) (items : List Item) (position : Nat), (cs ++ rest).length ≤ fuel →
      ∃ fuel' place, rest.length ≤ fuel' ∧
        readAlternatives fuel start items ⟨position, cs ++ rest⟩
          = readAlternatives fuel' start (a.reverse ++ items) ⟨place, rest⟩ := by
  induction h with
  | nil => exact fun fuel _ _ position hlen => ⟨fuel, position, hlen, rfl⟩
  | cons is ds i a hi hseq ih =>
    intro fuel start items position hlen
    have hnext : NoQuantifierAhead (ds ++ rest) := by
      cases hseq with
      | nil => exact hrest
      | cons js es j b hj _ =>
        obtain ⟨c, cs, rfl, -, hc⟩ := hj.head
        exact noQuantifierAhead_cons c _ hc
    obtain ⟨c, cs, rfl, hbar, -⟩ := hi.head
    obtain ⟨place, hread⟩ := readItem_text (c :: cs) i hi (ds ++ rest) (cs ++ (ds ++ rest)) hnext c
      rfl position
    obtain ⟨fuel, rfl⟩ : ∃ k, fuel = k + 1 := ⟨fuel - 1, by
      rw [List.append_assoc, List.cons_append, List.length_cons] at hlen
      omega⟩
    have hshort : (ds ++ rest).length ≤ fuel := by
      rw [List.append_assoc, List.cons_append, List.length_cons, List.length_append] at hlen
      omega
    obtain ⟨fuel', place', hle, heq⟩ := ih fuel start (i :: items) place hshort
    refine ⟨fuel', place', hle, ?_⟩
    rw [List.append_assoc, List.cons_append, readAlternatives.eq_def]
    dsimp only
    rw [if_neg hbar, hread]
    dsimp only
    rw [heq, List.reverse_cons, List.append_assoc]
    rfl

theorem readAlternatives_text (cs : List Char) (p : Pattern) (h : PatternText cs p) :
    ∀ (fuel start position : Nat), cs.length ≤ fuel →
      readAlternatives fuel start [] ⟨position, cs⟩ = .ok p := by
  have hne : ∀ a : List Item, a ≠ [] → (a.reverse ++ []).isEmpty = false := by
    intro a ha
    rw [List.append_nil, List.isEmpty_reverse]
    cases a with
    | nil => exact absurd rfl ha
    | cons => rfl
  induction h with
  | last cs a hseq ha =>
    intro fuel start position hlen
    obtain ⟨fuel', place, -, heq⟩ := readAlternatives_items cs a hseq []
      (fun c hc => nomatch hc) fuel start [] position (by rwa [List.append_nil])
    rw [List.append_nil] at heq
    rw [heq, readAlternatives.eq_def]
    have hend : (if (a.reverse ++ []).isEmpty then .error (.emptyAlternative start)
        else .ok [(a.reverse ++ []).reverse] : Except PatternError Pattern) = .ok [a] := by
      rw [hne a ha, List.append_nil, List.reverse_reverse]
      rfl
    cases fuel' <;> exact hend
  | more cs ds a p hseq ha _ ih =>
    intro fuel start position hlen
    obtain ⟨fuel', place, hle, heq⟩ := readAlternatives_items cs a hseq ('|' :: ds)
      (noQuantifierAhead_cons '|' ds (by decide)) fuel start [] position hlen
    rw [List.length_cons] at hle
    obtain ⟨fuel', rfl⟩ : ∃ k, fuel' = k + 1 := ⟨fuel' - 1, by omega⟩
    rw [heq, readAlternatives.eq_def]
    dsimp only
    rw [if_pos rfl, hne a ha, if_neg (by decide)]
    dsimp only [Unread.after]
    rw [ih fuel' _ _ (by omega), List.append_nil, List.reverse_reverse]
    rfl

/-- Reading accepts exactly the texts of the grammar. -/
theorem readPattern_iff (s : String) (p : Pattern) :
    readPattern s = .ok p ↔ PatternText s.toList p := by
  unfold readPattern
  constructor
  · intro h
    exact (readAlternatives_sound _ 0 [] ⟨0, s.toList⟩ p (Nat.le_refl _) h).patternText
  · exact fun h => readAlternatives_text _ p h _ 0 0 (Nat.le_refl _)

/-- A text stands for at most one pattern. -/
theorem PatternText.unique (s : String) (p q : Pattern) (hp : PatternText s.toList p)
    (hq : PatternText s.toList q) : p = q := by
  rw [← readPattern_iff] at hp hq
  rw [hp] at hq
  exact Except.ok.inj hq

/-! ## Well-formedness -/

theorem QuantifierText.bounds (qs : List Char) (n m : Nat) (h : QuantifierText qs n m) :
    n ≤ m ∧ 1 ≤ m := by
  cases h with
  | once => exact ⟨Nat.le_refl _, Nat.le_refl _⟩
  | optional => exact ⟨Nat.zero_le _, Nat.le_refl _⟩
  | exactly cs n h hpos => exact ⟨Nat.le_refl _, hpos⟩
  | between as bs n m ha hb hle hpos => exact ⟨hle, hpos⟩

theorem AtomText.ne_empty (as : List Char) (s : DigitSet) (h : AtomText as s) :
    s ≠ DigitSet.empty := by
  cases h with
  | digit d => exact single_ne_empty d
  | any => decide
  | digitClass body s hne h => exact h.ne_empty body s hne

theorem ItemText.proper (cs : List Char) (i : Item) (h : ItemText cs i) : i.Proper := by
  obtain ⟨as, qs, -, hatom, hquant⟩ := h
  obtain ⟨hle, hpos⟩ := hquant.bounds
  exact ⟨hle, hpos, hatom.ne_empty⟩

theorem SequenceText.proper (cs : List Char) (a : List Item) (h : SequenceText cs a) :
    ∀ i ∈ a, i.Proper := by
  induction h with
  | nil => exact fun i hi => nomatch hi
  | cons cs ds j a hj _ ih =>
    intro i hi
    rcases List.mem_cons.mp hi with rfl | hi
    · exact hj.proper
    · exact ih i hi

/-- The patterns of texts have alternatives with items that take digits. -/
theorem PatternText.proper (cs : List Char) (p : Pattern) (h : PatternText cs p) : p.Proper := by
  induction h with
  | last cs a hseq hne =>
    refine ⟨List.cons_ne_nil _ _, fun b hb => ?_, fun b hb => ?_⟩
    · rwa [List.mem_singleton.mp hb]
    · rw [List.mem_singleton.mp hb]
      exact hseq.proper
  | more cs ds a p hseq hne _ ih =>
    refine ⟨List.cons_ne_nil _ _, fun b hb => ?_, fun b hb => ?_⟩
    · rcases List.mem_cons.mp hb with rfl | hb
      · exact hne
      · exact ih.alternative_ne_nil b hb
    · rcases List.mem_cons.mp hb with rfl | hb
      · exact hseq.proper
      · exact ih.item_proper b hb

end NumberPlan
