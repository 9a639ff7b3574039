import NumberPlan.Proofs.Text.Entries
import NumberPlan.Proofs.Text.Runs
import NumberPlan.Regex.Reading

/-!
# Readers and what follows

What a reader takes off a text depends on the characters that it takes and, in a few places, on the
next two.  Neither tells the end of a text from a closing parenthesis (`Alike`), so a token is read
from a text as it is read from the same text in parentheses:

    readToken c cs = some (t, rest) →
      ∃ d, cs = d ++ rest ∧ ∀ rest', Alike rest rest' → readToken c (d ++ rest') = some (t, rest')
                                                                              (steady_readToken)
-/

namespace NumberPlan.Regex

/-! ## Ends of texts -/

/-- The end of a text or a closing parenthesis. -/
def Ended (cs : List Char) : Prop := ∀ c ∈ cs.head?, c = ')'

theorem ended_nil : Ended [] := fun _ hc => by cases hc

theorem ended_closing (cs : List Char) : Ended (')' :: cs) := fun _ hc => (Option.some.inj hc).symm

/-- The texts are the same up to where both end, or one of them comes to a parenthesis. -/
inductive Alike : List Char → List Char → Prop
  | ended {cs ds : List Char} (hcs : Ended cs) (hds : Ended ds) : Alike cs ds
  | cons (c : Char) {cs ds : List Char} (h : Alike cs ds) : Alike (c :: cs) (c :: ds)

namespace Alike

variable {cs ds : List Char}

theorem refl (cs : List Char) : Alike cs cs := by
  induction cs with
  | nil => exact .ended ended_nil ended_nil
  | cons c _ ih => exact .cons c ih

theorem symm (h : Alike cs ds) : Alike ds cs := by
  induction h with
  | ended hcs hds => exact .ended hds hcs
  | cons c _ ih => exact .cons c ih

theorem append (h : Alike cs ds) (es : List Char) : Alike (es ++ cs) (es ++ ds) := by
  induction es with
  | nil => exact h
  | cons c es ih => exact .cons c ih

/-- A character that closes nothing is followed alike. -/
theorem tail {c : Char} (h : Alike (c :: cs) ds) (hc : c ≠ ')') :
    ∃ ds', ds = c :: ds' ∧ Alike cs ds' := by
  cases h with
  | ended hcs => exact absurd (hcs c rfl) hc
  | cons _ h => exact ⟨_, rfl, h⟩

theorem drop {es : List Char} (h : Alike (es ++ cs) ds) (hes : ')' ∉ es) :
    ∃ ds', ds = es ++ ds' ∧ Alike cs ds' := by
  induction es generalizing ds with
  | nil => exact ⟨ds, rfl, h⟩
  | cons c es ih =>
    obtain ⟨ds', rfl, h'⟩ := h.tail fun hc => hes (hc ▸ List.mem_cons_self)
    obtain ⟨ds'', rfl, h''⟩ := ih h' fun hmem => hes (List.mem_cons_of_mem c hmem)
    exact ⟨ds'', rfl, h''⟩

theorem ne_cons {c : Char} (hc : c ≠ ')') (h : Alike cs ds) (hcs : ∀ es, cs ≠ c :: es)
    (es : List Char) : ds ≠ c :: es := by
  rintro rfl
  obtain ⟨es', rfl, -⟩ := h.symm.tail hc
  exact hcs es' rfl

/-- The first characters are told apart by the parenthesis only. -/
theorem head {p : Char → Bool} (hp : p ')' = false) (h : Alike cs ds)
    (hcs : ∀ c ∈ cs.head?, p c = false) : ∀ c ∈ ds.head?, p c = false := by
  intro c hc
  cases h with
  | ended _ hds => rw [hds c hc]; exact hp
  | cons => exact hcs c hc

end Alike

/-! ## Steady readers -/

/-- `f` takes a part of the text that satisfies `P`, and takes it from any text that goes on
alike. -/
def Steady {α : Type} (P : List Char → Prop) (f : List Char → Option (α × List Char)) : Prop :=
  ∀ cs v rest, f cs = some (v, rest) → ∃ d, P d ∧ cs = d ++ rest ∧
    ∀ rest', Alike rest rest' → f (d ++ rest') = some (v, rest')

section

variable {α β : Type} {P : List Char → Prop} {f : List Char → Option (α × List Char)}

theorem Steady.map (h : Steady P f) (g : α → β) :
    Steady P fun cs => (f cs).map fun r => (g r.1, r.2) := by
  intro cs v rest hv
  obtain ⟨⟨a, rest⟩, hf, heq⟩ := Option.map_eq_some_iff.mp hv
  obtain ⟨rfl, rfl⟩ := Prod.mk.inj heq
  obtain ⟨d, hd, hcs, hagain⟩ := h cs a rest hf
  refine ⟨d, hd, hcs, fun rest' halike => ?_⟩
  dsimp only
  rw [hagain rest' halike]
  rfl

/-- A reader that takes no parenthesis fails alike. -/
theorem Steady.none_of_alike (h : Steady (fun d => ')' ∉ d) f) {cs ds : List Char}
    (hcs : Alike cs ds) (hnone : f cs = none) : f ds = none := by
  cases hds : f ds with
  | none => rfl
  | some r =>
    obtain ⟨d, hd, rfl, hagain⟩ := h ds r.1 r.2 hds
    obtain ⟨rest, rfl, hrest⟩ := hcs.symm.drop hd
    rw [hagain rest hrest] at hnone
    cases hnone

end

/-! ## Quantifiers -/

theorem lazily_of_ne (lo : Nat) (hi : Option Nat) (cs : List Char) (h : ∀ es, cs ≠ '?' :: es) :
    lazily lo hi cs = some (.quantifier lo hi, cs) := by
  unfold lazily
  split
  · next es => exact absurd rfl (h es)
  · rfl

theorem steady_lazily (lo : Nat) (hi : Option Nat) : Steady (fun _ => True) (lazily lo hi) := by
  intro cs v rest h
  unfold lazily at h
  split at h
  · obtain ⟨rfl, rfl⟩ := Prod.mk.inj (Option.some.inj h)
    exact ⟨['?'], trivial, rfl, fun _ _ => rfl⟩
  · next hnot =>
    obtain ⟨rfl, rfl⟩ := Prod.mk.inj (Option.some.inj h)
    exact ⟨[], trivial, rfl, fun rest' halike =>
      lazily_of_ne lo hi _ (halike.ne_cons (by decide) hnot)⟩

/-- A text begins with a run of characters, which is read again where the text goes on alike. -/
theorem exists_run (p : Char → Bool) (hp : p ')' = false) (cs : List Char) :
    ∃ run rest, cs = run ++ rest ∧ ∀ rest', Alike rest rest' →
      (run ++ rest').takeWhile p = run ∧ (run ++ rest').dropWhile p = rest' := by
  obtain ⟨hrun, hhead⟩ := run_spec p cs
  exact ⟨cs.takeWhile p, cs.dropWhile p, List.takeWhile_append_dropWhile.symm,
    fun rest' halike => takeWhile_run p _ rest' hrun (halike.head hp hhead)⟩

theorem steady_readNumber : Steady (fun _ => True) readNumber := by
  intro cs n rest h
  obtain ⟨before, cs, rfl, hspace⟩ := exists_run isSpace (by decide) cs
  obtain ⟨digits, cs, rfl, hnumber⟩ := exists_run Char.isDigit (by decide) cs
  obtain ⟨after, cs, rfl, hspace'⟩ := exists_run isSpace (by decide) cs
  -- the number depends on its digits only
  obtain ⟨value, hvalue⟩ : ∃ value : Option Nat, ∀ rest', Alike cs rest' →
      readNumber (before ++ (digits ++ (after ++ rest'))) = value.map fun n => (n, rest') := by
    let n : Nat := digits.foldl (fun n c => 10 * n + (c.toNat - 48)) 0
    refine ⟨if digits.isEmpty || decide (0x100000000 ≤ n) then none else some n,
      fun rest' halike => ?_⟩
    have hlast := halike.append after
    unfold readNumber
    simp only [(hspace _ (hlast.append digits)).2, hnumber _ hlast, (hspace' _ halike).2]
    split <;> simp_all [n]
  rw [hvalue cs (.refl cs)] at h
  obtain ⟨m, rfl, heq⟩ := Option.map_eq_some_iff.mp h
  obtain ⟨rfl, rfl⟩ := Prod.mk.inj heq
  refine ⟨before ++ (digits ++ after), trivial, by simp, fun rest' halike => ?_⟩
  simpa using hvalue rest' halike

theorem steady_readBraces : Steady (fun _ => True) readBraces := by
  intro cs v rest h
  unfold readBraces at h
  split at h
  · cases h
  · next lo es hlo =>
    obtain ⟨d, -, rfl, hnumber⟩ := steady_readNumber cs lo _ hlo
    obtain ⟨e, -, rfl, hlazy⟩ := steady_lazily _ _ es v rest h
    refine ⟨d ++ ('}' :: e), trivial, by simp, fun rest' halike => ?_⟩
    have hagain := hnumber ('}' :: (e ++ rest')) (.cons _ (halike.append e))
    unfold readBraces
    rw [List.append_assoc, List.cons_append, hagain]
    exact hlazy rest' halike
  · next lo es hlo =>
    obtain ⟨d, -, rfl, hnumber⟩ := steady_readNumber cs lo _ hlo
    obtain ⟨e, -, rfl, hlazy⟩ := steady_lazily _ _ es v rest h
    refine ⟨d ++ (',' :: '}' :: e), trivial, by simp, fun rest' halike => ?_⟩
    have hagain := hnumber (',' :: '}' :: (e ++ rest')) (.cons _ (.cons _ (halike.append e)))
    unfold readBraces
    rw [List.append_assoc, List.cons_append, List.cons_append, hagain]
    exact hlazy rest' halike
  · next lo es hne hlo =>
    obtain ⟨d, -, rfl, hnumber⟩ := steady_readNumber cs lo _ hlo
    split at h
    · next hi fs hhi =>
      obtain ⟨d', -, rfl, hnumber'⟩ := steady_readNumber es hi _ hhi
      split at h
      · next hle =>
        obtain ⟨e, -, rfl, hlazy⟩ := steady_lazily _ _ fs v rest h
        refine ⟨d ++ (',' :: (d' ++ '}' :: e)), trivial, by simp,
          fun rest' halike => ?_⟩
        have hagain' := hnumber' ('}' :: (e ++ rest')) (.cons _ (halike.append e))
        have hagain := hnumber (',' :: (d' ++ '}' :: (e ++ rest')))
          (.cons _ (((halike.append e).cons '}').append d'))
        rw [List.append_assoc, List.cons_append, List.append_assoc, List.cons_append]
        have hbraces : readBraces (d ++ ',' :: (d' ++ '}' :: (e ++ rest'))) =
            lazily lo (some hi) (e ++ rest') := by
          cases d' with
          | nil => exact absurd rfl (hne _)
          | cons c d' =>
            have hc : c ≠ '}' := fun hc => hne _ (by rw [hc]; rfl)
            rw [List.cons_append] at hagain hagain' ⊢
            simp [readBraces, hagain, hagain', hc, hle]
        rw [hbraces]
        exact hlazy rest' halike
      · cases h
    · cases h
  · cases h

/-! ## Groups -/

theorem steady_readName : Steady (fun _ => True) readName := by
  intro cs v rest h
  unfold readName at h
  split at h
  · next name stop es hspan =>
    obtain ⟨rfl, hstop, rfl⟩ := (span_eq_iff '>' cs name es stop).mp hspan
    split at h
    · next hname =>
      obtain ⟨rfl, rfl⟩ := Prod.mk.inj (Option.some.inj h)
      refine ⟨name ++ ['>'], trivial, by simp, fun rest' _ => ?_⟩
      have hspan' := (span_eq_iff '>' _ name rest' '>').mpr ⟨rfl, hstop, rfl⟩
      unfold readName
      rw [List.append_assoc, List.singleton_append, hspan']
      exact if_pos hname
    · cases h
  · cases h

theorem steady_readOpening : Steady (fun _ => True) readOpening := by
  intro cs v rest h
  unfold readOpening at h
  split at h
  · obtain ⟨rfl, rfl⟩ := Prod.mk.inj (Option.some.inj h)
    exact ⟨['?', ':'], trivial, rfl, fun _ _ => rfl⟩
  · next es =>
    obtain ⟨d, -, rfl, hname⟩ := steady_readName es v rest h
    exact ⟨'?' :: '<' :: d, trivial, rfl, hname⟩
  · next es =>
    obtain ⟨d, -, rfl, hname⟩ := steady_readName es v rest h
    exact ⟨'?' :: 'P' :: '<' :: d, trivial, rfl, hname⟩
  · cases h
  · next hnone =>
    obtain ⟨rfl, rfl⟩ := Prod.mk.inj (Option.some.inj h)
    refine ⟨[], trivial, rfl, fun rest' halike => ?_⟩
    have hne := halike.ne_cons (by decide) hnone
    cases rest' with
    | nil => rfl
    | cons c es =>
      have hc : c ≠ '?' := fun hc => hne es (hc ▸ rfl)
      simp [readOpening, hc]

/-! ## Escapes -/

theorem steady_readCodePoint (count : Nat) : Steady (fun _ => True) (readCodePoint count) := by
  intro cs v rest h
  unfold readCodePoint at h
  split at h
  · next es =>
    split at h
    · next ds stop fs hspan =>
      obtain ⟨rfl, hstop, rfl⟩ := (span_eq_iff '}' es ds fs stop).mp hspan
      obtain ⟨c, hc, heq⟩ := Option.map_eq_some_iff.mp h
      obtain ⟨rfl, rfl⟩ := Prod.mk.inj heq
      refine ⟨'{' :: (ds ++ ['}']), trivial, by simp, fun rest' _ => ?_⟩
      have hspan' := (span_eq_iff '}' _ ds rest' '}').mpr ⟨rfl, hstop, rfl⟩
      simp [readCodePoint, -List.span_eq_takeWhile_dropWhile, hspan', hc]
    · cases h
  · next hbrace =>
    split at h
    · next hlen =>
      obtain ⟨c, hc, heq⟩ := Option.map_eq_some_iff.mp h
      obtain ⟨rfl, rfl⟩ := Prod.mk.inj heq
      refine ⟨cs.take count, trivial, (List.take_append_drop count cs).symm, fun rest' _ => ?_⟩
      have hlen' : (cs.take count).length = count := by
        rw [List.length_take]
        omega
      generalize hds : cs.take count = ds at *
      cases ds with
      | nil => cases hc
      | cons d ds =>
        have hd : d ≠ '{' := by
          rintro rfl
          refine hbrace (ds ++ cs.drop count) ?_
          rw [← List.cons_append, ← hds, List.take_append_drop]
        have htake : (d :: (ds ++ rest')).take count = d :: ds := by
          rw [← hlen', ← List.cons_append, List.take_left']
          rfl
        have hdrop : (d :: (ds ++ rest')).drop count = rest' := by
          rw [← hlen', ← List.cons_append, List.drop_left']
          rfl
        have hle : count ≤ (d :: (ds ++ rest')).length := by
          rw [← hlen', ← List.cons_append, List.length_append]
          omega
        rw [List.cons_append, readCodePoint, if_pos hle, htake, hdrop, hc]
        · rfl
        · exact fun _ heq => hd (List.cons.inj heq).1
    · cases h

/-- An edge of a word is told more of by a letter or a hyphen after a brace only. -/
theorem readWordEdge_of_not (cs : List Char)
    (h : ∀ c es, cs = '{' :: c :: es → (c.isAlpha || c == '-') = false) :
    readWordEdge cs = some (.wordEdge, cs) := by
  unfold readWordEdge
  split
  · next c es => rw [if_neg (by simp [h c es rfl])]
  · rfl

theorem steady_readWordEdge : Steady (fun _ => True) readWordEdge := by
  have hplain : ∀ cs, (∀ c es, cs = '{' :: c :: es → (c.isAlpha || c == '-') = false) →
      ∀ rest', Alike cs rest' → readWordEdge rest' = some (.wordEdge, rest') := by
    intro cs hcs rest' halike
    refine readWordEdge_of_not rest' fun c es heq => ?_
    subst heq
    obtain ⟨ds, rfl, halike'⟩ := halike.symm.tail (by decide)
    have hhead : ∀ d ∈ ds.head?, (d.isAlpha || d == '-') = false := by
      intro d hd
      cases ds with
      | nil => cases hd
      | cons e ds =>
        obtain rfl := Option.some.inj hd
        exact hcs e ds rfl
    exact halike'.symm.head (p := fun c => c.isAlpha || c == '-') (by decide) hhead c rfl
  intro cs v rest h
  unfold readWordEdge at h
  split at h
  · next c es =>
    split at h
    · next hletter =>
      split at h
      · next name stop fs hspan =>
        obtain ⟨rfl, hstop, hes⟩ := (span_eq_iff '}' (c :: es) name fs stop).mp hspan
        obtain ⟨l, hl, heq⟩ := Option.map_eq_some_iff.mp h
        obtain ⟨rfl, rfl⟩ := Prod.mk.inj heq
        cases name with
        | nil =>
          obtain ⟨rfl, -⟩ := List.cons.inj hes
          exact absurd hletter (by decide)
        | cons d name =>
          obtain ⟨rfl, rfl⟩ := List.cons.inj hes
          refine ⟨'{' :: (c :: name ++ ['}']), trivial, by simp, fun rest' _ => ?_⟩
          have hspan' := (span_eq_iff '}' _ (c :: name) rest' '}').mpr ⟨rfl, hstop, rfl⟩
          have happend : '{' :: (c :: name ++ ['}']) ++ rest' =
              '{' :: c :: (name ++ '}' :: rest') := by simp
          rw [happend, readWordEdge, if_pos hletter, ← List.cons_append, hspan']
          dsimp only
          rw [hl]
          rfl
      · cases h
    · next hletter =>
      obtain ⟨rfl, rfl⟩ := Prod.mk.inj (Option.some.inj h)
      refine ⟨[], trivial, rfl, hplain _ fun d ds heq => ?_⟩
      obtain ⟨-, heq⟩ := List.cons.inj heq
      obtain ⟨rfl, -⟩ := List.cons.inj heq
      exact Bool.eq_false_iff.mpr hletter
  · next hbrace =>
    obtain ⟨rfl, rfl⟩ := Prod.mk.inj (Option.some.inj h)
    exact ⟨[], trivial, rfl, hplain _ fun c es heq => absurd heq (hbrace c es)⟩

theorem steady_readEscape : Steady (fun _ => True) readEscape := by
  -- after a letter, what its reader reads
  have hletter {α : Type} (c : Char) (f : List Char → Option (α × List Char))
      (hf : Steady (fun _ => True) f) (g : α → Escape)
      (heq : ∀ cs, readEscape (c :: cs) = (f cs).map fun r => (g r.1, r.2))
      (cs : List Char) (v : Escape) (rest : List Char)
      (h : ((f cs).map fun r => (g r.1, r.2)) = some (v, rest)) :
      ∃ d, True ∧ c :: cs = d ++ rest ∧
        ∀ rest', Alike rest rest' → readEscape (d ++ rest') = some (v, rest') := by
    obtain ⟨d, -, rfl, hagain⟩ := hf.map g cs v rest h
    refine ⟨c :: d, trivial, rfl, fun rest' halike => ?_⟩
    rw [List.cons_append, heq]
    exact hagain rest' halike
  intro cs v rest h
  rw [readEscape.eq_def] at h
  split at h
  · cases h
  · exact hletter 'x' _ (steady_readCodePoint 2) .char (fun _ => rfl) _ v rest h
  · exact hletter 'u' _ (steady_readCodePoint 4) .char (fun _ => rfl) _ v rest h
  · exact hletter 'U' _ (steady_readCodePoint 8) .char (fun _ => rfl) _ v rest h
  · exact hletter 'b' _ steady_readWordEdge .look (fun _ => rfl) _ v rest h
  · next c cs hx hu hU hb =>
    obtain ⟨e, he, heq⟩ := Option.map_eq_some_iff.mp h
    obtain ⟨rfl, rfl⟩ := Prod.mk.inj heq
    refine ⟨[c], trivial, rfl, fun rest' _ => ?_⟩
    rw [List.singleton_append, readEscape, he]
    · rfl
    all_goals assumption

/-! ## Brackets -/

theorem steady_readMember : Steady (· ≠ []) readMember := by
  intro cs v rest h
  rw [readMember.eq_def] at h
  split at h
  · cases h
  · next cs =>
    obtain ⟨d, -, rfl, hagain⟩ := steady_readEscape cs v rest h
    exact ⟨'\\' :: d, List.cons_ne_nil _ d, rfl, hagain⟩
  · next c cs hslash =>
    obtain ⟨rfl, rfl⟩ := Prod.mk.inj (Option.some.inj h)
    refine ⟨[c], List.cons_ne_nil c [], rfl, fun rest' _ => ?_⟩
    rw [List.singleton_append, readMember]
    exact hslash

theorem steady_readSetName : Steady (fun d => d ≠ [] ∧ ')' ∉ d) readSetName := by
  have hnames : ∀ name ∈ CharSet.named.map (·.1), ')' ∉ name.toList := by decide
  intro cs v rest h
  unfold readSetName at h
  split at h
  · next name rest hspan =>
    obtain ⟨-, hstop, rfl⟩ := (span_eq_iff ':' cs name (']' :: rest) ':').mp hspan
    obtain ⟨s, hs, heq⟩ := Option.map_eq_some_iff.mp h
    obtain ⟨rfl, rfl⟩ := Prod.mk.inj heq
    have hname := hnames _ (List.mem_map_of_mem (mem_of_lookup _ _ _ hs))
    rw [String.toList_ofList] at hname
    refine ⟨name ++ [':', ']'], ⟨by simp, by simp [hname]⟩, by simp, fun rest' _ => ?_⟩
    have hspan' := (span_eq_iff ':' _ name (']' :: rest') ':').mpr ⟨rfl, hstop, rfl⟩
    have happend : name ++ [':', ']'] ++ rest' = name ++ ':' :: ']' :: rest' := by simp
    rw [happend, readSetName, hspan']
    exact congrArg (Option.map fun s => (s, rest')) hs
  · cases h

theorem steady_readNamed : Steady (fun d => ')' ∉ d) readNamed := by
  intro cs v rest h
  unfold readNamed at h
  split at h
  · next cs =>
    obtain ⟨d, ⟨-, hd⟩, rfl, hagain⟩ := (steady_readSetName.map CharSet.compl) cs v rest h
    exact ⟨':' :: '^' :: d, by simp [hd], rfl, hagain⟩
  · next cs hnot =>
    obtain ⟨d, ⟨hne, hd⟩, rfl, hagain⟩ := steady_readSetName cs v rest h
    refine ⟨':' :: d, by simp [hd], rfl, fun rest' halike => ?_⟩
    cases d with
    | nil => exact absurd rfl hne
    | cons c d =>
      have hc : c ≠ '^' := fun hc => hnot (d ++ rest) (by rw [hc]; rfl)
      rw [← hagain rest' halike]
      simp [readNamed, hc]
  · cases h

theorem readRange_of_ne (cs : List Char) (a : Escape) (es : List Char)
    (h : readMember cs = some (a, es)) (hes : ∀ fs, es ≠ '-' :: fs) :
    readRange cs = a.toSet?.map fun s => (s, es) := by
  cases es with
  | nil => simp [readRange, h]
  | cons c es =>
    have hc : c ≠ '-' := fun hc => hes es (hc ▸ rfl)
    simp [readRange, h, hc]

/-- A hyphen in front of a bracket or another hyphen is left. -/
theorem readRange_of_hyphen (cs : List Char) (a : Escape) (c : Char) (hc : c = ']' ∨ c = '-')
    (es : List Char) (h : readMember cs = some (a, '-' :: c :: es)) :
    readRange cs = a.toSet?.map fun s => (s, '-' :: c :: es) := by
  rcases hc with rfl | rfl <;> simp [readRange, h]

theorem steady_readRange : Steady (· ≠ []) readRange := by
  -- a member that no range begins with
  have hlone (cs : List Char) (a : Escape) (es : List Char) (ha : readMember cs = some (a, es))
      (hagain : ∀ d es', Alike es es' → readMember (d ++ es') = some (a, es') →
        readRange (d ++ es') = a.toSet?.map fun s => (s, es'))
      (v : CharSet) (rest : List Char) (h : (a.toSet?.map fun s => (s, es)) = some (v, rest)) :
      ∃ d, d ≠ [] ∧ cs = d ++ rest ∧
        ∀ rest', Alike rest rest' → readRange (d ++ rest') = some (v, rest') := by
    obtain ⟨d, hd, rfl, hmember⟩ := steady_readMember cs a es ha
    obtain ⟨s, hs, heq⟩ := Option.map_eq_some_iff.mp h
    obtain ⟨rfl, rfl⟩ := Prod.mk.inj heq
    refine ⟨d, hd, rfl, fun rest' halike => ?_⟩
    rw [hagain d rest' halike (hmember rest' halike), hs]
    rfl
  have hhyphen (c : Char) (hc : c = ']' ∨ c = '-') (a : Escape) (es : List Char)
      (d es' : List Char) (halike : Alike ('-' :: c :: es) es')
      (ha : readMember (d ++ es') = some (a, es')) :
      readRange (d ++ es') = a.toSet?.map fun s => (s, es') := by
    obtain ⟨fs, rfl, hnext⟩ := halike.tail (by decide)
    obtain ⟨fs, rfl, -⟩ := hnext.tail (by rcases hc with rfl | rfl <;> decide)
    exact readRange_of_hyphen _ a c hc fs ha
  intro cs v rest h
  unfold readRange at h
  split at h
  · cases h
  · next a es ha => exact hlone cs a _ ha (hhyphen ']' (.inl rfl) a es) v rest h
  · next a es ha => exact hlone cs a _ ha (hhyphen '-' (.inr rfl) a es) v rest h
  · next a es hbracket hhyphen' ha =>
    obtain ⟨d, hd, rfl, hmember⟩ := steady_readMember cs a _ ha
    split at h
    · cases h
    · next b fs hb =>
      obtain ⟨d', hd', rfl, hmember'⟩ := steady_readMember es b fs hb
      obtain ⟨s, hs, heq⟩ := Option.map_eq_some_iff.mp h
      obtain ⟨rfl, rfl⟩ := Prod.mk.inj heq
      refine ⟨d ++ '-' :: d', by simp, by simp, fun rest' halike => ?_⟩
      have hagain := hmember ('-' :: (d' ++ rest')) (.cons _ (halike.append d'))
      have hagain' := hmember' rest' halike
      cases d' with
      | nil => exact absurd rfl hd'
      | cons c d' =>
        have hclosing : c ≠ ']' := fun hc => hbracket (d' ++ fs) (by rw [hc]; rfl)
        have hdash : c ≠ '-' := fun hc => hhyphen' (d' ++ fs) (by rw [hc]; rfl)
        rw [List.cons_append] at hagain hagain'
        simp [readRange, hagain, hagain', hclosing, hdash, hs]
  · next a es _ _ hnext ha =>
    exact hlone cs a es ha (fun d es' halike ha' =>
      readRange_of_ne _ a es' ha' (halike.ne_cons (by decide) hnext)) v rest h

theorem exists_readFirst (cs : List Char) : ∃ d b rest, readFirst cs = (b, rest) ∧
    cs = d ++ rest ∧ ∀ rest', Alike rest rest' → readFirst (d ++ rest') = (b, rest') := by
  obtain ⟨hyphens, rest, rfl, hrun⟩ := exists_run (· == '-') (by decide) cs
  by_cases hmember : hyphens = [] ∧ ∃ es, rest = ']' :: es
  · obtain ⟨rfl, es, rfl⟩ := hmember
    refine ⟨[']'], ⟨none, [(.only ']', 0)]⟩, es, rfl, rfl, fun rest' _ => rfl⟩
  · have hfirst : ∀ rest', Alike rest rest' → readFirst (hyphens ++ rest') =
        (⟨none, hyphens.map fun c => (CharSet.only c, 0)⟩, rest') := by
      intro rest' halike
      obtain ⟨htake, hdrop⟩ := hrun rest' halike
      unfold readFirst
      rw [htake, hdrop]
      split
      · next hhyphens =>
        obtain ⟨ds, rfl, -⟩ := halike.symm.tail (by decide)
        exact absurd ⟨List.map_eq_nil_iff.mp hhyphens, ds, rfl⟩ hmember
      · rfl
    exact ⟨hyphens, _, rest, hfirst rest (.refl rest), rfl, hfirst⟩

theorem exists_openBracket (cs : List Char) : ∃ d negated b rest,
    openBracket cs = (negated, b, rest) ∧ cs = d ++ rest ∧
      ∀ rest', Alike rest rest' → openBracket (d ++ rest') = (negated, b, rest') := by
  by_cases hnegated : ∃ es, cs = '^' :: es
  · obtain ⟨es, rfl⟩ := hnegated
    obtain ⟨d, b, rest, hfirst, rfl, hagain⟩ := exists_readFirst es
    refine ⟨'^' :: d, true, b, rest, ?_, rfl, fun rest' halike => ?_⟩
    · rw [openBracket, hfirst]
    · rw [List.cons_append, openBracket, hagain rest' halike]
  · obtain ⟨d, b, rest, hfirst, rfl, hagain⟩ := exists_readFirst cs
    have hopen : ∀ rest', Alike rest rest' → openBracket (d ++ rest') = (false, b, rest') := by
      intro rest' halike
      have hne := (halike.append d).ne_cons (by decide) fun es hes => hnegated ⟨es, hes⟩
      rw [openBracket, hagain rest' halike]
      exact hne
    exact ⟨d, false, b, rest, hopen rest (.refl rest), rfl, hopen⟩

/-- What is read of `b` in `cs` up to a closing bracket, with more `fuel` than characters, is `v`,
and leaves `rest`. -/
def Completes (b : Bracket) (cs : List Char) (v : DeepSet) (rest : List Char) : Prop :=
  ∃ d, cs = d ++ ']' :: rest ∧ ∀ rest', Alike rest rest' → ∀ fuel, d.length < fuel →
    readBracketFrom fuel b (d ++ ']' :: rest') = some (v, rest')

/-- One step of reading takes some characters and leaves the others to the next. -/
theorem Completes.after {b' : Bracket} {cs : List Char} {v : DeepSet} {rest : List Char}
    (h : Completes b' cs v rest) (b : Bracket) (e : List Char) (he : e ≠ [])
    (hb : ∀ d, cs = d ++ ']' :: rest → ∀ rest', Alike rest rest' → ∀ n, e.length + d.length ≤ n →
      readBracketFrom (n + 1) b (e ++ (d ++ ']' :: rest')) =
        readBracketFrom n b' (d ++ ']' :: rest')) :
    Completes b (e ++ cs) v rest := by
  obtain ⟨d, rfl, hagain⟩ := h
  refine ⟨e ++ d, (List.append_assoc ..).symm, fun rest' halike fuel hfuel => ?_⟩
  have hlen := List.length_pos_iff.mpr he
  rw [List.length_append] at hfuel
  obtain ⟨n, rfl⟩ : ∃ n, fuel = n + 1 := ⟨fuel - 1, by omega⟩
  rw [List.append_assoc, hb d rfl rest' halike n (by omega)]
  exact hagain rest' halike n (by omega)

theorem completes_of_readBracketFrom (fuel : Nat) (b : Bracket) (cs : List Char) (v : DeepSet)
    (rest : List Char) (h : readBracketFrom fuel b cs = some (v, rest)) :
    Completes b cs v rest := by
  induction fuel, b, cs using readBracketFrom.induct generalizing v rest with
  | case1 => cases h
  | case2 => cases h
  | case3 fuel b cs =>
    obtain ⟨rfl, rfl⟩ := Prod.mk.inj (Option.some.inj h)
    refine ⟨[], rfl, fun rest' _ fuel' hfuel => ?_⟩
    obtain ⟨n, rfl⟩ : ∃ n, fuel' = n + 1 := ⟨fuel' - 1, by omega⟩
    rfl
  | case4 fuel b cs ih =>
    exact (ih v rest h).after b ['&', '&'] (by simp) fun d _ rest' _ n _ => rfl
  | case5 fuel b cs ih =>
    exact (ih v rest h).after b ['-', '-'] (by simp) fun d _ rest' _ n _ => rfl
  | case6 fuel b cs ih =>
    exact (ih v rest h).after b ['~', '~'] (by simp) fun d _ rest' _ n _ => rfl
  | case7 fuel b cs s cs' hnamed ih =>
    rw [readBracketFrom, hnamed] at h
    obtain ⟨e, -, rfl, hagain⟩ := steady_readNamed cs s cs' hnamed
    refine (ih v rest h).after b ('[' :: e) (by simp) fun d hd rest' halike n _ => ?_
    rw [List.cons_append, readBracketFrom, hagain]
    rw [hd]
    exact (Alike.cons _ halike).append d
  | case8 fuel b cs hnamed negated inner cs' hopen hinner =>
    rw [readBracketFrom, hnamed] at h
    simp only [hopen, hinner] at h
    cases h
  | case9 fuel b cs hnamed negated inner cs' hopen s cs'' hinner ih ih' =>
    rw [readBracketFrom, hnamed] at h
    simp only [hopen, hinner] at h
    obtain ⟨d₀, _, _, _, hopen', rfl, hagain⟩ := exists_openBracket cs
    obtain ⟨rfl, heq⟩ := Prod.mk.inj (hopen.symm.trans hopen')
    obtain ⟨rfl, rfl⟩ := Prod.mk.inj heq
    obtain ⟨d₁, rfl, hagain'⟩ := ih s cs'' hinner
    have hnext := (ih' v rest h).after b ('[' :: (d₀ ++ (d₁ ++ [']']))) (by simp)
      fun d hd rest' halike n hn => ?_
    · simpa using hnext
    · subst hd
      have halike' := ((halike.cons ']').append d).cons ']'
      have halike'' := halike'.append d₁
      have hnamed' := steady_readNamed.none_of_alike (halike''.append d₀) hnamed
      have happend : ('[' :: (d₀ ++ (d₁ ++ [']']))) ++ (d ++ ']' :: rest') =
          '[' :: (d₀ ++ (d₁ ++ ']' :: (d ++ ']' :: rest'))) := by simp
      simp only [List.length_cons, List.length_append] at hn
      have hagain'' := hagain' (d ++ ']' :: rest') ((halike.cons ']').append d) n (by omega)
      rw [happend, readBracketFrom, hnamed']
      simp only [hagain _ halike'', hagain'']
  | case10 fuel b cs hnil hclosing hand hdash htilde hbracket hrange =>
    rw [readBracketFrom, hrange] at h
    · cases h
    all_goals assumption
  | case11 fuel b cs hnil hclosing hand hdash htilde hbracket s cs' hrange ih =>
    rw [readBracketFrom, hrange] at h
    · obtain ⟨e, he, rfl, hagain⟩ := steady_readRange cs s cs' hrange
      refine (ih v rest h).after b e he fun d hd rest' halike n _ => ?_
      subst hd
      have hagain' := hagain _ ((halike.cons ']').append d)
      -- the first two characters do not tell the two texts apart
      obtain ⟨c, c', w, hw⟩ : ∃ c c' w, ∀ r, e ++ (d ++ ']' :: r) = c :: c' :: (w ++ r) := by
        match e, d with
        | [], _ => exact absurd rfl he
        | [c], [] => exact ⟨c, ']', [], fun r => rfl⟩
        | [c], c' :: d => exact ⟨c, c', d ++ [']'], fun r => by simp⟩
        | c :: c' :: e, d => exact ⟨c, c', e ++ (d ++ [']']), fun r => by simp⟩
      rw [hw] at hclosing hand hdash htilde hbracket
      rw [readBracketFrom, hagain']
      all_goals simp_all
    all_goals assumption

theorem steady_readBracket : Steady (fun _ => True) readBracket := by
  intro cs v rest h
  obtain ⟨d, negated, b, es, hopen, rfl, hagain⟩ := exists_openBracket cs
  unfold readBracket at h
  simp only [hopen] at h
  obtain ⟨⟨s, rest⟩, hfrom, heq⟩ := Option.map_eq_some_iff.mp h
  obtain ⟨rfl, rfl⟩ := Prod.mk.inj heq
  obtain ⟨e, rfl, hagain'⟩ := completes_of_readBracketFrom _ b es s rest hfrom
  refine ⟨d ++ e ++ [']'], trivial, by simp, fun rest' halike => ?_⟩
  have happend : d ++ e ++ [']'] ++ rest' = d ++ (e ++ ']' :: rest') := by simp
  unfold readBracket
  rw [happend, hagain _ ((halike.cons ']').append e)]
  simp only
  rw [hagain' rest' halike _ (by rw [List.length_append]; omega)]
  rfl

/-! ## Tokens -/

/-- A token is read from a text as from any that goes on alike. -/
theorem steady_readToken (c : Char) : Steady (fun _ => True) (readToken c) := by
  have hsingle (t : Token) : Steady (fun _ => True) fun cs => some (t, cs) := by
    intro cs v rest h
    obtain ⟨rfl, rfl⟩ := Prod.mk.inj (Option.some.inj h)
    exact ⟨[], trivial, rfl, fun _ _ => rfl⟩
  intro cs v rest h
  rw [readToken.eq_def] at h
  split at h
  · exact steady_readOpening cs v rest h
  · exact hsingle .closing cs v rest h
  · exact hsingle .bar cs v rest h
  · exact steady_lazily 0 none cs v rest h
  · exact steady_lazily 1 none cs v rest h
  · exact steady_lazily 0 (some 1) cs v rest h
  · exact steady_readBraces cs v rest h
  · exact hsingle (.item (.ofLook .start)) cs v rest h
  · exact hsingle (.item (.ofLook .finish)) cs v rest h
  · exact hsingle (.item (.ofSet .dot 0)) cs v rest h
  · exact steady_readBracket.map (fun s => Token.item (.ofSet s.1 s.2)) cs v rest h
  · exact steady_readEscape.map (fun e => Token.item (.ofEscape e)) cs v rest h
  · obtain ⟨rfl, rfl⟩ := Prod.mk.inj (Option.some.inj h)
    refine ⟨[], trivial, rfl, fun rest' _ => ?_⟩
    rw [List.nil_append, readToken] <;> assumption

end NumberPlan.Regex
