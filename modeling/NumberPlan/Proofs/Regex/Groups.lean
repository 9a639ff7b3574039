import NumberPlan.Proofs.Regex.Places
import NumberPlan.Proofs.Regex.Steady

/-!
# Tokens and groups

A text has the same tokens in front of a closing parenthesis (`Lexes.append`), and wherever a
parenthesis is a token, the tokens before it are those of the text before it (`Lexes.split`).

An open group is read on its own: what stands below it on the stack does not matter until its
parenthesis closes (`Rests.pushAll`).

    read? s = some e → (isMatch e text = true ↔ ∃ i j, Matches text.toList e i j)  (isMatch_of_read)
-/

namespace NumberPlan.Regex

/-! ## Tokens -/

/-- The bounds of a quantifier and those within an item are in order. -/
def Token.Ordered : Token → Prop
  | .quantifier lo hi => ∀ n ∈ hi, lo ≤ n
  | .item t => t.expr.Ordered
  | _ => True

theorem lazily_eq (lo : Nat) (hi : Option Nat) (cs rest : List Char) (t : Token)
    (h : lazily lo hi cs = some (t, rest)) : t = .quantifier lo hi := by
  unfold lazily at h
  split at h
  · exact (Prod.mk.inj (Option.some.inj h)).1.symm
  · exact (Prod.mk.inj (Option.some.inj h)).1.symm

theorem readBraces_quantifier (cs rest : List Char) (t : Token)
    (h : readBraces cs = some (t, rest)) :
    ∃ lo hi, t = .quantifier lo hi ∧ ∀ n ∈ hi, lo ≤ n := by
  unfold readBraces at h
  split at h
  · cases h
  · next lo _ _ =>
    exact ⟨lo, some lo, lazily_eq _ _ _ _ t h, fun n hn => Nat.le_of_eq (Option.some.inj hn)⟩
  · next lo _ _ => exact ⟨lo, none, lazily_eq _ _ _ _ t h, fun n hn => by cases hn⟩
  · next lo _ _ _ =>
    split at h
    · next hi _ _ =>
      split at h
      · next hle =>
        exact ⟨lo, some hi, lazily_eq _ _ _ _ t h, fun n hn => Option.some.inj hn ▸ hle⟩
      · cases h
    · cases h
  · cases h

theorem readOpening_opening (cs rest : List Char) (t : Token)
    (h : readOpening cs = some (t, rest)) : ∃ o, t = .opening o := by
  have hname : ∀ cs, readName cs = some (t, rest) → ∃ o, t = .opening o := by
    intro cs h
    unfold readName at h
    split at h
    · split at h
      · exact ⟨_, (Prod.mk.inj (Option.some.inj h)).1.symm⟩
      · cases h
    · cases h
  unfold readOpening at h
  split at h
  · exact ⟨_, (Prod.mk.inj (Option.some.inj h)).1.symm⟩
  · exact hname _ h
  · exact hname _ h
  · cases h
  · exact ⟨_, (Prod.mk.inj (Option.some.inj h)).1.symm⟩

/-- A token is the closing parenthesis of the text or another token in order. -/
theorem readToken_cases (c : Char) (cs rest : List Char) (t : Token)
    (h : readToken c cs = some (t, rest)) :
    (t = .closing ∧ c = ')' ∧ rest = cs) ∨ (t ≠ .closing ∧ t.Ordered) := by
  have hquantifier (lo : Nat) (hi : Option Nat) (hle : ∀ n ∈ hi, lo ≤ n)
      (ht : t = .quantifier lo hi) : t ≠ .closing ∧ t.Ordered := by
    rw [ht]
    exact ⟨Token.noConfusion, hle⟩
  have hitem (x : Term) (ht : t = .item x) (hx : x.expr.Ordered) : t ≠ .closing ∧ t.Ordered := by
    rw [ht]
    exact ⟨Token.noConfusion, hx⟩
  rw [readToken.eq_def] at h
  split at h
  · obtain ⟨o, rfl⟩ := readOpening_opening _ _ t h
    exact .inr ⟨Token.noConfusion, trivial⟩
  · obtain ⟨rfl, rfl⟩ := Prod.mk.inj (Option.some.inj h)
    exact .inl ⟨rfl, rfl, rfl⟩
  · obtain ⟨rfl, -⟩ := Prod.mk.inj (Option.some.inj h)
    exact .inr ⟨Token.noConfusion, trivial⟩
  · exact .inr (hquantifier 0 none (fun n hn => by cases hn) (lazily_eq _ _ _ _ t h))
  · exact .inr (hquantifier 1 none (fun n hn => by cases hn) (lazily_eq _ _ _ _ t h))
  · exact .inr (hquantifier 0 (some 1) (fun n _ => Nat.zero_le n) (lazily_eq _ _ _ _ t h))
  · obtain ⟨lo, hi, ht, hle⟩ := readBraces_quantifier _ _ t h
    exact .inr (hquantifier lo hi hle ht)
  · exact .inr (hitem _ (Prod.mk.inj (Option.some.inj h)).1.symm trivial)
  · exact .inr (hitem _ (Prod.mk.inj (Option.some.inj h)).1.symm trivial)
  · exact .inr (hitem _ (Prod.mk.inj (Option.some.inj h)).1.symm trivial)
  · obtain ⟨s, -, heq⟩ := Option.map_eq_some_iff.mp h
    exact .inr (hitem _ (Prod.mk.inj heq).1.symm trivial)
  · obtain ⟨⟨e, _⟩, -, heq⟩ := Option.map_eq_some_iff.mp h
    refine .inr (hitem _ (Prod.mk.inj heq).1.symm ?_)
    cases e <;> trivial
  · exact .inr (hitem _ (Prod.mk.inj (Option.some.inj h)).1.symm trivial)

/-! ## Lexing -/

/-- The text consists of the tokens. -/
inductive Lexes : List Char → List Token → Prop
  | nil : Lexes [] []
  | cons {c : Char} {cs rest : List Char} {t : Token} {ts : List Token}
    (first : readToken c cs = some (t, rest)) (others : Lexes rest ts) : Lexes (c :: cs) (t :: ts)

theorem readTokens_eq_some_iff (fuel : Nat) (cs : List Char) (hfuel : cs.length ≤ fuel)
    (ts : List Token) : readTokens fuel cs = some ts ↔ Lexes cs ts := by
  have hnil : ∀ ts, some [] = some ts ↔ Lexes [] ts := fun ts =>
    ⟨fun h => Option.some.inj h ▸ .nil, fun h => by cases h; rfl⟩
  induction fuel generalizing cs ts with
  | zero =>
    obtain rfl := List.length_eq_zero_iff.mp (Nat.le_zero.mp hfuel)
    exact hnil ts
  | succ fuel ih =>
    cases cs with
    | nil => exact hnil ts
    | cons c cs =>
      rw [readTokens]
      cases htoken : readToken c cs with
      | none =>
        refine ⟨fun h => (by cases h), fun h => ?_⟩
        cases h with
        | cons first others => rw [htoken] at first; cases first
      | some r =>
        obtain ⟨t, rest⟩ := r
        obtain ⟨d, -, rfl, -⟩ := steady_readToken c cs t rest htoken
        have hrest : rest.length ≤ fuel := by
          rw [List.length_cons, List.length_append] at hfuel
          omega
        constructor
        · intro h
          obtain ⟨us, hus, rfl⟩ := Option.map_eq_some_iff.mp h
          exact .cons htoken ((ih rest hrest us).mp hus)
        · intro h
          cases h with
          | cons first others =>
            obtain ⟨rfl, rfl⟩ := Prod.mk.inj (Option.some.inj (htoken.symm.trans first))
            exact Option.map_eq_some_iff.mpr ⟨_, (ih rest hrest _).mpr others, rfl⟩

namespace Lexes

/-- A text with some tokens in front of an end or a parenthesis. -/
theorem append {q w : List Char} {us vs : List Token} (hq : Lexes q us) (hended : Ended w)
    (hw : Lexes w vs) : Lexes (q ++ w) (us ++ vs) := by
  induction hq with
  | nil => exact hw
  | @cons c cs rest t ts first others ih =>
    obtain ⟨d, -, rfl, hagain⟩ := steady_readToken c cs t rest first
    have halike : Alike rest (rest ++ w) := by
      have := (Alike.ended ended_nil hended).append rest
      rwa [List.append_nil] at this
    rw [List.cons_append, List.append_assoc]
    exact .cons (hagain _ halike) ih

/-- Tokens in front of a closing parenthesis are those of the text in front of it. -/
theorem split {w : List Char} {us vs : List Token} (h : Lexes w (us ++ .closing :: vs)) :
    ∃ q r, w = q ++ ')' :: r ∧ Lexes q us ∧ Lexes r vs := by
  induction us generalizing w with
  | nil =>
    cases h with
    | cons first others =>
      rcases readToken_cases _ _ _ _ first with ⟨-, rfl, rfl⟩ | ⟨hne, -⟩
      · exact ⟨[], _, rfl, .nil, others⟩
      · exact absurd rfl hne
  | cons u us ih =>
    cases h with
    | @cons c cs rest _ _ first others =>
      obtain ⟨q, r, rfl, hq, hr⟩ := ih others
      obtain ⟨d, -, rfl, hagain⟩ := steady_readToken c cs u _ first
      have halike : Alike (q ++ ')' :: r) q := by
        have := (Alike.ended (ended_closing r) ended_nil).append q
        rwa [List.append_nil] at this
      exact ⟨c :: d ++ q, r, by simp, .cons (hagain q halike) hq, hr⟩

theorem ordered {cs : List Char} {ts : List Token} (h : Lexes cs ts) : ∀ t ∈ ts, t.Ordered := by
  induction h with
  | nil => exact fun t ht => by cases ht
  | cons first others ih =>
    intro t ht
    rcases List.mem_cons.mp ht with rfl | ht
    · rcases readToken_cases _ _ _ _ first with ⟨rfl, -⟩ | ⟨-, hordered⟩
      · trivial
      · exact hordered
    · exact ih t ht

end Lexes

/-! ## Terms in order -/

theorem Expr.Ordered.repeated {e : Expr} (he : e.Ordered) (lo : Nat) (hi : Option Nat)
    (hle : ∀ n ∈ hi, lo ≤ n) : (e.repeated lo hi).Ordered := by
  unfold Expr.repeated
  split
  · exact ⟨he, hle⟩
  · split
    · exact he
    · exact ⟨he.1, fun n hn => by cases hn⟩
    · exact ⟨he, hle⟩

namespace Term

/-- The bounds of the term's expression are in order. -/
def Ordered (t : Term) : Prop := t.expr.Ordered

theorem ordered_times (t : Term) (ht : t.Ordered) (lo : Nat) (hi : Option Nat)
    (hle : ∀ n ∈ hi, lo ≤ n) : (t.times lo hi).Ordered := by
  unfold times
  split
  · refine ⟨ht, fun n hn => ?_⟩
    obtain ⟨m, hm, rfl⟩ := Option.map_eq_some_iff.mp hn
    have := hle m hm
    omega
  · exact Expr.Ordered.repeated ht lo hi hle

theorem ordered_foldl (f : Expr → Expr → Expr)
    (hf : ∀ a b : Expr, a.Ordered → b.Ordered → (f a b).Ordered) (e : Expr) (he : e.Ordered)
    (ts : List Term) (hts : ∀ t ∈ ts, t.Ordered) :
    (ts.foldl (fun e t => f t.expr e) e).Ordered := by
  induction ts generalizing e with
  | nil => exact he
  | cons t ts ih =>
    exact ih _ (hf _ _ (hts t List.mem_cons_self) he) fun t ht => hts t (List.mem_cons_of_mem _ ht)

theorem ordered_seq (ts : List Term) (hts : ∀ t ∈ ts, t.Ordered) : (seq ts).Ordered := by
  match ts with
  | [] => trivial
  | [t] => exact hts t List.mem_cons_self
  | t :: t' :: ts =>
    exact ordered_foldl .seq (fun _ _ ha hb => ⟨ha, hb⟩) .empty trivial _ hts

theorem ordered_alt (t : Term) (ht : t.Ordered) (ts : List Term) (hts : ∀ t ∈ ts, t.Ordered) :
    (alt t ts).Ordered := by
  cases ts with
  | nil => exact ht
  | cons t' ts => exact ordered_foldl .alt (fun _ _ ha hb => ⟨ha, hb⟩) t.expr ht _ hts

end Term

/-- All terms of the group are in order. -/
def Group.Ordered (g : Group) : Prop :=
  (∀ t ∈ g.branches, t.Ordered) ∧ ∀ t ∈ g.items, t.Ordered

namespace Group

variable {g : Group} (hg : g.Ordered)

include hg

theorem ordered_close : g.close.Ordered := Term.ordered_alt _ (Term.ordered_seq _ hg.2) _ hg.1

theorem ordered_push (t : Term) (ht : t.Ordered) : (g.push t).Ordered :=
  ⟨hg.1, List.forall_mem_cons.mpr ⟨ht, hg.2⟩⟩

theorem ordered_split : g.split.Ordered :=
  ⟨List.forall_mem_cons.mpr ⟨Term.ordered_seq _ hg.2, hg.1⟩, fun _ ht => by cases ht⟩

end Group

theorem Group.ordered_empty (captures : Bool) : (Group.empty captures).Ordered :=
  ⟨fun _ ht => (by cases ht), fun _ ht => by cases ht⟩

namespace Stack

def Ordered (s : Stack) : Prop := s.inner.Ordered ∧ ∀ g ∈ s.outer, g.Ordered

theorem ordered_push (t : Token) (ht : t.Ordered) (s r : Stack) (hs : s.Ordered)
    (h : s.push t = some r) : r.Ordered := by
  unfold push at h
  split at h
  · obtain rfl := Option.some.inj h
    exact ⟨Group.ordered_push hs.1 _ ht, hs.2⟩
  · obtain rfl := Option.some.inj h
    exact ⟨Group.ordered_split hs.1, hs.2⟩
  · obtain rfl := Option.some.inj h
    obtain ⟨hitem, hitems⟩ := List.forall_mem_cons.mp hs.1.2
    exact ⟨⟨hs.1.1, List.forall_mem_cons.mpr ⟨Term.ordered_times _ hitem _ _ ht, hitems⟩⟩, hs.2⟩
  · cases h
  · obtain rfl := Option.some.inj h
    exact ⟨Group.ordered_empty _, List.forall_mem_cons.mpr hs⟩
  · obtain rfl := Option.some.inj h
    obtain ⟨hg, houter⟩ := List.forall_mem_cons.mp hs.2
    exact ⟨Group.ordered_push hg _ (Group.ordered_close hs.1), houter⟩
  · cases h

theorem ordered_pushAll (ts : List Token) (hts : ∀ t ∈ ts, t.Ordered) (s r : Stack)
    (hs : s.Ordered) (h : s.pushAll ts = some r) : r.Ordered := by
  induction ts generalizing s with
  | nil => exact Option.some.inj h ▸ hs
  | cons t ts ih =>
    obtain ⟨ht, hts⟩ := List.forall_mem_cons.mp hts
    rw [pushAll] at h
    split at h
    · cases h
    · next s' hs' => exact ih hts s' (ordered_push t ht s s' hs hs') h

end Stack

/-! ## Terms of texts -/

/-- The term that a text spells, however large it is.  Flags, as in `(?i)` and `(?x)`, and the
classes `\p` and `\P` are not spelt: a text that uses them has no term. -/
def term? (s : String) : Option Term :=
  (readTokens s.toList.length s.toList).bind Term.ofTokens?

theorem read?_eq (limit : Nat) (s : String) :
    read? limit s = ((term? s).filter (Term.fits limit)).map Term.expr := rfl

theorem ofTokens?_eq_some_iff (ts : List Token) (t : Term) : Term.ofTokens? ts = some t ↔
    allDistinct (ts.filterMap Token.name?) = true ∧
      ∃ g, Stack.pushAll ts .empty = some ⟨g, []⟩ ∧ g.close = t := by
  unfold Term.ofTokens?
  by_cases hnames : allDistinct (ts.filterMap Token.name?) = true
  · rw [if_pos hnames, Option.bind_eq_some_iff]
    constructor
    · rintro ⟨⟨g, outer⟩, hg, hclose⟩
      cases outer with
      | nil => exact ⟨hnames, g, hg, Option.some.inj hclose⟩
      | cons => cases hclose
    · rintro ⟨-, g, hg, rfl⟩
      exact ⟨_, hg, rfl⟩
  · rw [if_neg hnames]
    exact ⟨fun h => (by cases h), fun h => absurd h.1 hnames⟩

/-- A text spells a term if its tokens have distinct names and close all groups. -/
theorem term?_eq_some_iff (s : String) (t : Term) : term? s = some t ↔
    ∃ ts, Lexes s.toList ts ∧ allDistinct (ts.filterMap Token.name?) = true ∧
      ∃ g, Stack.pushAll ts .empty = some ⟨g, []⟩ ∧ g.close = t := by
  unfold term?
  rw [Option.bind_eq_some_iff]
  exact exists_congr fun ts => and_congr
    (readTokens_eq_some_iff _ _ (Nat.le_refl _) ts) (ofTokens?_eq_some_iff ts t)

theorem ordered_of_term? (s : String) (t : Term) (h : term? s = some t) : t.expr.Ordered := by
  obtain ⟨ts, hts, -, g, hg, rfl⟩ := (term?_eq_some_iff s t).mp h
  have hempty : Stack.empty.Ordered := ⟨Group.ordered_empty true, fun _ hg => by cases hg⟩
  exact Group.ordered_close (Stack.ordered_pushAll ts hts.ordered _ _ hempty hg).1

/-- An expression that was read is found in a text exactly if it matches there. -/
theorem isMatch_of_read (limit : Nat) (s : String) (e : Expr) (h : read? limit s = some e)
    (text : String) : isMatch e text = true ↔ ∃ i j, Matches text.toList e i j := by
  rw [read?_eq] at h
  obtain ⟨t, ht, rfl⟩ := Option.map_eq_some_iff.mp h
  exact isMatch_iff t.expr (ordered_of_term? s t (Option.filter_eq_some_iff.mp ht).1) text

/-! ## Groups in groups -/

/-- The second stack is the first one with `below` under it; its lowest group may capture or
not. -/
inductive Rests (below : List Group) : Stack → Stack → Prop
  | lowest (c c' : Bool) (branches items : List Term) :
    Rests below ⟨⟨c, branches, items⟩, []⟩ ⟨⟨c', branches, items⟩, below⟩
  | above (g : Group) {h h' : Group} {gs gs' : List Group} (rests : Rests below ⟨h, gs⟩ ⟨h', gs'⟩) :
    Rests below ⟨g, h :: gs⟩ ⟨g, h' :: gs'⟩

namespace Rests

variable {below : List Group} {s s' : Stack}

theorem push_inner (h : Rests below s s') (t : Term) :
    Rests below ⟨s.inner.push t, s.outer⟩ ⟨s'.inner.push t, s'.outer⟩ := by
  cases h with
  | lowest c c' branches items => exact .lowest c c' branches (t :: items)
  | above g rests => exact .above (g.push t) rests

theorem split_inner (h : Rests below s s') :
    Rests below ⟨s.inner.split, s.outer⟩ ⟨s'.inner.split, s'.outer⟩ := by
  cases h with
  | lowest c c' branches items => exact .lowest c c' (.seq items :: branches) []
  | above g rests => exact .above g.split rests

/-- A quantifier repeats the last item of the inner groups, or fails with both. -/
theorem push_quantifier (h : Rests below s s') (lo : Nat) (hi : Option Nat) :
    (s.push (.quantifier lo hi) = none ∧ s'.push (.quantifier lo hi) = none) ∨
      ∃ r r', s.push (.quantifier lo hi) = some r ∧ s'.push (.quantifier lo hi) = some r' ∧
        Rests below r r' := by
  cases h with
  | lowest c c' branches items =>
    cases items with
    | nil => exact .inl ⟨rfl, rfl⟩
    | cons t items => exact .inr ⟨_, _, rfl, rfl, .lowest c c' branches (t.times lo hi :: items)⟩
  | above g rests =>
    obtain ⟨captures, branches, items⟩ := g
    cases items with
    | nil => exact .inl ⟨rfl, rfl⟩
    | cons t items => exact .inr ⟨_, _, rfl, rfl, .above _ rests⟩

/-- A token does the same to both stacks, unless it would close the lowest group of the first. -/
theorem push (h : Rests below s s') (t : Token) :
    (t = .closing ∧ s.outer = []) ∨ (s.push t = none ∧ s'.push t = none) ∨
      ∃ r r', s.push t = some r ∧ s'.push t = some r' ∧ Rests below r r' := by
  cases t with
  | opening o => exact .inr (.inr ⟨_, _, rfl, rfl, .above (.empty _) h⟩)
  | closing =>
    cases h with
    | lowest => exact .inl ⟨rfl, rfl⟩
    | above g rests => exact .inr (.inr ⟨_, _, rfl, rfl, rests.push_inner _⟩)
  | bar => exact .inr (.inr ⟨_, _, rfl, rfl, h.split_inner⟩)
  | quantifier lo hi => exact .inr (h.push_quantifier lo hi)
  | item x => exact .inr (.inr ⟨_, _, rfl, rfl, h.push_inner x⟩)

/-- Tokens do the same to both stacks, up to one that closes the lowest group. -/
theorem pushAll (h : Rests below s s') (ts : List Token) :
    (∃ us vs g, ts = us ++ .closing :: vs ∧ s.pushAll us = some ⟨g, []⟩) ∨
      (s.pushAll ts = none ∧ s'.pushAll ts = none) ∨
      ∃ r r', s.pushAll ts = some r ∧ s'.pushAll ts = some r' ∧ Rests below r r' := by
  induction ts generalizing s s' with
  | nil => exact .inr (.inr ⟨s, s', rfl, rfl, h⟩)
  | cons t ts ih =>
    rcases h.push t with ⟨rfl, houter⟩ | ⟨hs, hs'⟩ | ⟨r, r', hr, hr', hrests⟩
    · refine .inl ⟨[], ts, s.inner, rfl, ?_⟩
      rw [← houter]
      rfl
    · simp only [Stack.pushAll, hs, hs']
      exact .inr (.inl ⟨trivial, trivial⟩)
    · rcases ih hrests with ⟨us, vs, g, rfl, hus⟩ | hnone | hsome
      · refine .inl ⟨t :: us, vs, g, rfl, ?_⟩
        simp only [Stack.pushAll, hr]
        exact hus
      · simp only [Stack.pushAll, hr, hr']
        exact .inr (.inl hnone)
      · simp only [Stack.pushAll, hr, hr']
        exact .inr (.inr hsome)

theorem outer_ne_nil (h : Rests below s s') (hbelow : below ≠ []) : s'.outer ≠ [] := by
  cases h with
  | lowest => exact hbelow
  | above => exact List.cons_ne_nil _ _

end Rests

end NumberPlan.Regex
