import NumberPlan.Program.Compile
import NumberPlan.Proofs.Automaton.Canonical
import NumberPlan.Proofs.Program.Placement

/-!
# Programs of automata

The program of a minimal automaton does on every digit string what the automaton does.

    assemble m = .ok p → verdict p w = m.verdictFrom m.start w        (verdict_of_assemble)
    assemble m = .error e → ∃ d, e = .programTooLarge d               (error_of_assemble)
-/

namespace NumberPlan

/-! ## Verdicts of automata -/

/-- How a digit string fares from a state. -/
def Automaton.verdictFrom (m : Automaton) : (s : Nat) → List Digit → Verdict
  | s, [] => if (m.state s).accepting then .matched else .tooShort
  | s, d :: w =>
    match (m.state s).next d with
    | some t => m.verdictFrom t w
    | none => if (m.state s).isSink then .tooLong else .invalid

section

variable (m : Automaton) (s t : Nat) (d : Digit) (w : List Digit)

theorem verdictFrom_some (h : (m.state s).next d = some t) :
    m.verdictFrom s (d :: w) = m.verdictFrom t w := by
  rw [Automaton.verdictFrom, h]

/-- A digit that leads nowhere from a state where another does. -/
theorem verdictFrom_none (h : (m.state s).next d = none) (he : m.Edge s t) :
    m.verdictFrom s (d :: w) = .invalid := by
  have hsink : (m.state s).isSink = false := by
    cases hs : (m.state s).isSink with
    | false => rfl
    | true => exact absurd he (m.not_edge_of_isSink s t hs)
  rw [Automaton.verdictFrom, h, hsink]
  rfl

theorem verdictFrom_stop (hm : m.Minimal) (h : ∀ d, (m.state s).next d = none) :
    m.verdictFrom s w = if w = [] then .matched else .tooLong := by
  have hsink : (m.state s).isSink = true := (State.isSink_iff _).mpr h
  cases w with
  | cons d w =>
    rw [Automaton.verdictFrom, h d, hsink]
    rfl
  | nil =>
    have hacc : (m.state s).accepting = true := by
      by_cases hs : s < m.size
      · exact m.accepts_of_isSink hm s hs hsink []
      · rw [m.state_of_size_le s (Nat.not_lt.mp hs)]
        rfl
    rw [Automaton.verdictFrom, hacc]
    rfl

end

/-- A run leads all long enough strings to its exit, and others end before a terminal place. -/
theorem verdictFrom_run (m : Automaton) (cs : List Nat) (t : Nat) : ∀ (s : Nat) (w : List Digit),
    m.Run s cs t → ((m.state s).accepting = true → cs = []) →
    m.verdictFrom s w = if cs.length + 1 ≤ w.length then m.verdictFrom t (w.drop (cs.length + 1))
      else if (m.state s).accepting then .matched else .tooShort := by
  induction cs with
  | nil =>
    intro s w h _
    cases w with
    | nil => rfl
    | cons d w => exact verdictFrom_some m s t d w (h d)
  | cons c cs ih =>
    rintro s w ⟨hs, -, hc, hrun⟩ hacc
    have hfalse : (m.state s).accepting = false := by
      cases h : (m.state s).accepting with
      | false => rfl
      | true => cases hacc h
    cases w with
    | nil =>
      rw [Automaton.verdictFrom]
      exact (if_neg (Nat.not_succ_le_zero _)).symm
    | cons d w =>
      have hnone : (m.state c).accepting = true → cs = [] := fun h => by
        rw [hc] at h
        cases h
      rw [verdictFrom_some m s c d w (hs d), ih c w hrun hnone, hc, hfalse]
      exact if_congr Nat.succ_le_succ_iff.symm rfl rfl

/-! ## Code with sized jumps -/

theorem unsized_eq_plain (j : CodeItem) (i : Instruction) (h : j.unsized = .plain i) :
    j = .plain i := by
  cases j <;> cases h
  rfl

theorem unsized_eq_dispatch (j : CodeItem) (head : Dispatch) (n : Nat)
    (h : j.unsized = .dispatch head n) : j = .dispatch head n := by
  cases j <;> cases h
  rfl

theorem unsized_eq_jump (j : CodeItem) (t : Nat) (h : j.unsized = .jump t 0) :
    ∃ n, j = .jump t n := by
  cases j <;> cases h
  exact ⟨_, rfl⟩

/-- Sized jumps in place of those of a block. -/
theorem jumps_split (ts : List Nat) (k : Nat) (hk : k < ts.length) (js rest : List CodeItem)
    (h : js.map CodeItem.unsized = jumpsTo ts) :
    ∃ n rest', (js ++ rest).drop k = .jump ts[k] n :: rest' := by
  induction ts generalizing js k with
  | nil => exact absurd hk (Nat.not_lt_zero k)
  | cons t ts ih =>
    obtain ⟨j, js, rfl, hj, hjs⟩ := List.map_eq_cons_iff.mp h
    cases k with
    | zero =>
      obtain ⟨n, rfl⟩ := unsized_eq_jump j t hj
      exact ⟨n, js ++ rest, rfl⟩
    | succ k => exact ih k (Nat.lt_of_succ_lt_succ hk) js hjs

/-- The code after `s`'s label is its block with its jumps sized. -/
def BlocksAt (m : Automaton) (out : List CodeItem) : Prop :=
  ∀ s before after, out = before ++ .label s :: after →
    ∃ b rest, after = b ++ rest ∧ b.map CodeItem.unsized = (blockOf m m.inDegrees s).1

theorem blocksAt_of_unsized (m : Automaton) (hm : m.Minimal) (out : List CodeItem)
    (h : out.map CodeItem.unsized = blocks m) : BlocksAt m out := by
  rintro s before after rfl
  rw [List.map_append, List.map_cons] at h
  obtain ⟨rest, hrest⟩ := label_block m hm s m.layoutOrder [] _ _ h.symm
  obtain ⟨b, rest', rfl, hb, -⟩ := List.map_eq_append_iff.mp hrest
  exact ⟨b, rest', rfl, hb⟩

section

variable (m : Automaton) (out : List CodeItem) (hlaid : Laid out) (w : List Digit)
  (ih : ∀ w' : List Digit, w'.length < w.length → ∀ s before after,
    out = before ++ .label s :: after → verdict (bytesOf after) w' = m.verdictFrom s w')

include hlaid ih

/-- A jump with fewer digits left goes on as from its target. -/
theorem verdict_at_jump (w' : List Digit) (hw : w'.length < w.length) (t n : Nat)
    (before after : List CodeItem) (h : out = before ++ .jump t n :: after) :
    verdict (bytesOf (.jump t n :: after)) w' = m.verdictFrom t w' := by
  have hsuffix : Laid (.jump t n :: after) := (h ▸ hlaid).of_append
  obtain ⟨as, has, -⟩ := afterLabel_split t after hsuffix.forward.1
  rw [verdict_jump t n after w' hsuffix]
  refine ih w' hw t (before ++ .jump t n :: as) _ ?_
  rw [List.append_assoc, List.cons_append, ← has]
  exact h

/-- One entry of the jumps after an item. -/
theorem verdict_at_entry (w' : List Digit) (hw : w'.length < w.length) (ts : List Nat) (k : Nat)
    (hk : k < ts.length) (i : CodeItem) (js rest before : List CodeItem)
    (hjs : js.map CodeItem.unsized = jumpsTo ts) (h : out = before ++ i :: (js ++ rest)) :
    verdict (bytesOf ((js ++ rest).drop k)) w' = m.verdictFrom ts[k] w' := by
  obtain ⟨n, rest', hdrop⟩ := jumps_split ts k hk js rest hjs
  rw [hdrop]
  refine verdict_at_jump m out hlaid w ih w' hw _ n (before ++ i :: (js ++ rest).take k) rest' ?_
  rw [List.append_assoc, List.cons_append, ← hdrop, List.take_append_drop]
  exact h

/-! ### One block for each shape -/

variable (s : Nat) (js rest before : List CodeItem)

theorem verdict_block_single (d : Digit) (t : Nat)
    (hnext : ∀ e, (m.state s).next e = if e = d then some t else none)
    (hjs : js.map CodeItem.unsized = jumpsTo [t])
    (h : out = before ++ .plain (.single d.val (m.state s).accepting) :: (js ++ rest)) :
    verdict (bytesOf (.plain (.single d.val (m.state s).accepting) :: (js ++ rest))) w
      = m.verdictFrom s w := by
  have hsuffix : Laid (_ :: (js ++ rest)) := (h ▸ hlaid).of_append
  cases w with
  | nil => exact verdict_plain_nil _ _ (js ++ rest) hsuffix (Or.inl ⟨_, rfl⟩)
  | cons e w =>
    rw [verdict_single d _ (js ++ rest) e w hsuffix]
    by_cases he : e = d
    · rw [if_pos he, verdictFrom_some m s t e w (by rw [hnext, if_pos he])]
      exact verdict_at_entry m out hlaid _ ih w (by simp) [t] 0 (by simp) _ js rest before hjs h
    · rw [if_neg he, verdictFrom_none m s t e w (by rw [hnext, if_neg he])
        ⟨d, by rw [hnext, if_pos rfl]⟩]

theorem verdict_block_run (between : List Nat) (t : Nat) (hrun : m.Run s between t)
    (haccept : (m.state s).accepting = true → between = [])
    (hjs : js.map CodeItem.unsized = jumpsTo [t])
    (h : out = before ++ .plain (.run (between.length + 1) (m.state s).accepting) :: (js ++ rest)) :
    verdict (bytesOf (.plain (.run (between.length + 1) (m.state s).accepting) :: (js ++ rest))) w
      = m.verdictFrom s w := by
  have hsuffix : Laid (_ :: (js ++ rest)) := (h ▸ hlaid).of_append
  rw [verdict_run _ _ (js ++ rest) w hsuffix, verdictFrom_run m between t s w hrun haccept]
  by_cases hc : between.length + 1 ≤ w.length
  · rw [if_pos hc, if_pos hc]
    refine verdict_at_entry m out hlaid _ ih _ ?_ [t] 0 (by simp) _ js rest before hjs h
    rw [List.length_drop]
    omega
  · rw [if_neg hc, if_neg hc]

theorem verdict_block_member (g : DigitSet) (t : Nat) (he : m.Edge s t)
    (hnext : ∀ d, (m.state s).next d = if g.mem d then some t else none)
    (hjs : js.map CodeItem.unsized = jumpsTo [t])
    (h : out = before ++ .plain (.set g.toNat (m.state s).accepting none) :: (js ++ rest)) :
    verdict (bytesOf (.plain (.set g.toNat (m.state s).accepting none) :: (js ++ rest))) w
      = m.verdictFrom s w := by
  have hsuffix : Laid (_ :: (js ++ rest)) := (h ▸ hlaid).of_append
  cases w with
  | nil => exact verdict_plain_nil _ _ (js ++ rest) hsuffix (Or.inr ⟨_, rfl⟩)
  | cons e w =>
    have hmem : g.toNat.testBit e.val = g.mem e := rfl
    rw [verdict_member _ _ (js ++ rest) e w hsuffix, hmem]
    cases hg : g.mem e with
    | true =>
      rw [if_pos rfl, verdictFrom_some m s t e w (by rw [hnext, hg, if_pos rfl])]
      exact verdict_at_entry m out hlaid _ ih w (by simp) [t] 0 (by simp) _ js rest before hjs h
    | false =>
      rw [if_neg (by decide), verdictFrom_none m s t e w (by rw [hnext, hg, if_neg (by decide)]) he]

theorem verdict_block_split (g : DigitSet) (t u : Nat)
    (hnext : ∀ d, (m.state s).next d = some (if g.mem d then t else u))
    (hjs : js.map CodeItem.unsized = jumpsTo [t, u])
    (h : out = before ++ .dispatch (.set g.toNat (m.state s).accepting) 2 :: (js ++ rest)) :
    verdict (bytesOf (.dispatch (.set g.toNat (m.state s).accepting) 2 :: (js ++ rest))) w
      = m.verdictFrom s w := by
  have hsuffix : Laid (_ :: (js ++ rest)) := (h ▸ hlaid).of_append
  cases w with
  | nil => exact verdict_dispatch_nil _ 2 (js ++ rest) _ hsuffix (Or.inl ⟨_, rfl⟩)
  | cons e w =>
    have hmem : g.toNat.testBit e.val = g.mem e := rfl
    have hentry := verdict_at_entry m out hlaid _ ih w (by simp) [t, u]
    rw [verdict_set _ _ (js ++ rest) e w hsuffix, hmem, verdictFrom_some m s _ e w (hnext e)]
    cases hg : g.mem e with
    | true => exact hentry 0 (by simp) _ js rest before hjs h
    | false => exact hentry 1 (by simp) _ js rest before hjs h

theorem verdict_block_table (f t : Nat) (he : m.Edge s t)
    (hindex : ∀ d, indexOf f d = (m.state s).indexFor d)
    (hjs : js.map CodeItem.unsized = jumpsTo (m.state s).targets)
    (h : out = before ++ .dispatch (.map f (m.state s).accepting) (m.state s).targets.length
      :: (js ++ rest)) :
    verdict (bytesOf (.dispatch (.map f (m.state s).accepting) (m.state s).targets.length
      :: (js ++ rest))) w = m.verdictFrom s w := by
  have hsuffix : Laid (_ :: (js ++ rest)) := (h ▸ hlaid).of_append
  cases w with
  | nil => exact verdict_dispatch_nil _ _ (js ++ rest) _ hsuffix (Or.inr ⟨_, rfl⟩)
  | cons e w =>
    have hidx := hindex e
    unfold State.indexFor at hidx
    cases hnext : (m.state s).next e with
    | none =>
      rw [hnext] at hidx
      rw [verdictFrom_none m s t e w hnext he]
      exact verdict_map_invalid f _ _ (js ++ rest) e w hsuffix hidx
    | some u =>
      rw [hnext] at hidx
      have hk := List.idxOf_lt_length_iff.mpr ((State.mem_targets _ u).mpr ⟨e, hnext⟩)
      have hentry := verdict_at_entry m out hlaid _ ih w (by simp) _ _ hk _ js rest before hjs h
      rw [List.getElem_idxOf hk] at hentry
      rw [verdictFrom_some m s u e w hnext, ← hentry]
      exact verdict_map f _ _ _ (js ++ rest) e w hsuffix hidx hk

/-- The block of a state does what the state does. -/
theorem verdict_block (hm : m.Minimal) (b b' : List CodeItem) (cs : List Nat)
    (hshape : BlockShape m s b cs) (hb : b'.map CodeItem.unsized = b)
    (h : out = before ++ (b' ++ rest)) :
    verdict (bytesOf (b' ++ rest)) w = m.verdictFrom s w := by
  cases hshape with
  | stop hnone =>
    obtain ⟨i, js, rfl, hi, hjs⟩ := List.map_eq_cons_iff.mp hb
    obtain rfl := List.map_eq_nil_iff.mp hjs
    obtain rfl := unsized_eq_plain i _ hi
    have hsuffix : Laid (_ :: rest) := (h ▸ hlaid).of_append
    exact (verdict_stop rest w hsuffix).trans (verdictFrom_stop m s w hm hnone).symm
  | single d t hnext =>
    obtain ⟨i, js, rfl, hi, hjs⟩ := List.map_eq_cons_iff.mp hb
    obtain rfl := unsized_eq_plain i _ hi
    exact verdict_block_single m out hlaid w ih s js rest before d t hnext hjs h
  | run between t hrun hlen haccept =>
    obtain ⟨i, js, rfl, hi, hjs⟩ := List.map_eq_cons_iff.mp hb
    obtain rfl := unsized_eq_plain i _ hi
    exact verdict_block_run m out hlaid w ih s js rest before cs t hrun haccept hjs h
  | member g t he hnext =>
    obtain ⟨i, js, rfl, hi, hjs⟩ := List.map_eq_cons_iff.mp hb
    obtain rfl := unsized_eq_plain i _ hi
    exact verdict_block_member m out hlaid w ih s js rest before g t he hnext hjs h
  | split g t u _ _ hnext =>
    obtain ⟨i, js, rfl, hi, hjs⟩ := List.map_eq_cons_iff.mp hb
    obtain rfl := unsized_eq_dispatch i _ _ hi
    exact verdict_block_split m out hlaid w ih s js rest before g t u hnext hjs h
  | table f t he hf htable hindex =>
    obtain ⟨i, js, rfl, hi, hjs⟩ := List.map_eq_cons_iff.mp hb
    obtain rfl := unsized_eq_dispatch i _ _ hi
    exact verdict_block_table m out hlaid w ih s js rest before f t he hindex hjs h

end

/-- The code after a state's label does what the state does, by induction on the digits left. -/
theorem verdict_at_label (m : Automaton) (hm : m.Minimal) (out : List CodeItem) (hlaid : Laid out)
    (hblocks : BlocksAt m out) : ∀ (n : Nat) (w : List Digit), w.length = n →
    ∀ s before after, out = before ++ .label s :: after →
      verdict (bytesOf after) w = m.verdictFrom s w := by
  intro n
  induction n using Nat.strongRecOn with
  | ind n ih =>
    rintro w rfl s before after h
    obtain ⟨b, rest, rfl, hb⟩ := hblocks s before after h
    refine verdict_block m out hlaid w (fun w' hw => ih _ hw w' rfl) s rest (before ++ [.label s])
      hm _ b _ (blockOf_shape m hm s) hb ?_
    rw [h, List.append_assoc]
    rfl

/-! ## Programs -/

/-- Code starts with the start's block. -/
theorem blocks_head (m : Automaton) (hstart : m.start = Automaton.initial) :
    ∃ items, blocks m = .label m.start :: items := by
  have hhead : m.layoutOrder.head? = some m.start := by
    unfold Automaton.layoutOrder
    rw [hstart]
    split <;> rfl
  unfold blocks
  cases horder : m.layoutOrder with
  | nil =>
    rw [horder] at hhead
    cases hhead
  | cons s order =>
    rw [horder] at hhead
    cases hhead
    exact ⟨_, blocksIn_cons m _ order [] List.not_mem_nil⟩

section

variable (m : Automaton) (hm : m.Minimal) (hlayout : m.Topological m.layoutOrder)

include hm hlayout

theorem pending_layout : Pending m m.layoutOrder [] where
  nodup := hlayout.nodup
  forward := hlayout.forward
  closed := fun p _ t ⟨d, hd⟩ => (hlayout.mem_iff t).mpr (hm.next_lt p d t hd)
  sealed := fun _ hu => nomatch hu

/-- The code of an automaton is as growing wants it. -/
theorem growing_blocks : Growing (blocks m) where
  nodup := (labelsOf_blocksIn m hm m.layoutOrder []).nodup hlayout.nodup
  forward := blocksIn_forward m hm m.layoutOrder [] (pending_layout m hm hlayout)
  notOversized := notOversized_of_unsized _ (blocksIn_unsized m hm m.layoutOrder [])

theorem settle_blocks :
    (∀ out, settle (blocks m) = .ok out → out.map CodeItem.unsized = blocks m ∧ Laid out ∧
      (labelsOf out).Nodup) ∧
      ∀ e, settle (blocks m) = .error e → ∃ d, e = .programTooLarge d := by
  have hgrowing := growing_blocks m hm hlayout
  have hunsized : (blocks m).map CodeItem.unsized = blocks m := blocksIn_unsized m hm _ []
  obtain ⟨hok, herror⟩ := (settles_settle _ hgrowing).result hgrowing
  refine ⟨fun out h => ?_, herror⟩
  obtain ⟨hmap, hfit⟩ := hok out h
  rw [hunsized] at hmap
  refine ⟨hmap, ⟨?_, ?_, hfit⟩, ?_⟩
  · rw [← formed_unsized, hmap]
    exact blocksIn_formed m hm m.layoutOrder []
  · rw [← jumpsForward_unsized, hmap]
    exact hgrowing.forward
  · rw [← labelsOf_unsized, hmap]
    exact hgrowing.nodup

/-- The program of an automaton does on every digit string what the automaton does. -/
theorem verdict_of_assemble (hstart : m.start = Automaton.initial) (p : List UInt8)
    (h : assemble m = .ok p) (w : List Digit) : verdict p w = m.verdictFrom m.start w := by
  unfold assemble at h
  cases hs : settle (blocks m) with
  | error e =>
    rw [hs] at h
    cases h
  | ok out =>
    rw [hs] at h
    cases h
    obtain ⟨hmap, hlaid, hnd⟩ := (settle_blocks m hm hlayout).1 out hs
    obtain ⟨items, hitems⟩ := blocks_head m hstart
    rw [hitems] at hmap
    obtain ⟨i, after, rfl, hi, -⟩ := List.map_eq_cons_iff.mp hmap
    obtain rfl := (unsized_eq_label i m.start).mp hi
    rw [emit_eq_bytesOf _ hnd hlaid.forward]
    exact verdict_at_label m hm _ hlaid (blocksAt_of_unsized m hm _ (hmap.trans hitems.symm)) _ w rfl
      m.start [] after rfl

/-- No automaton fails to have a program for another reason than its size. -/
theorem error_of_assemble (e : CompileError) (h : assemble m = .error e) :
    ∃ d, e = .programTooLarge d := by
  unfold assemble at h
  cases hs : settle (blocks m) with
  | ok out =>
    rw [hs] at h
    cases h
  | error e' =>
    rw [hs] at h
    cases h
    exact (settle_blocks m hm hlayout).2 e hs

end

end NumberPlan
