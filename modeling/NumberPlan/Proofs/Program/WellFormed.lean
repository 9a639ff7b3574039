import Mathlib
import NumberPlan.Proofs.Program.Compile
import NumberPlan.Proofs.Program.Listing
import NumberPlan.Proofs.Program.Trace

/-!
# Compiled programs are well formed

Emitted code ends with the branch that goes nowhere, and has no other (`EndsOnce`): a minimal
automaton has one state without edges, which comes last and is never taken in by a run.  A step
from an item of such code leads to another of its items (`EndsOnce.step`), so a run is always at
an instruction of the listing.

    Visits (bytesOf out) w place left → some instruction is listed at the place
                                                                  (EndsOnce.listed_of_visits)
-/

namespace NumberPlan

/-! ## Code with one end -/

/-- The instruction takes digits, and goes on after itself. -/
def Instruction.Straight : Instruction → Prop
  | single .. => True
  | run .. => True
  | set _ _ none => True
  | _ => False

theorem Instruction.Straight.next_eq (i : Instruction) (h : i.Straight) (w : List Digit)
    (hs : (i.step i.size w).status = .running) : (i.step i.size w).next = i.size := by
  cases i with
  | branch offset long => cases h
  | map indices terminal table => cases h
  | single digit terminal => cases w <;> rfl
  | run count terminal =>
    unfold step
    dsimp only
    split <;> rfl
  | set mask terminal table =>
    cases table with
    | some t => cases h
    | none => cases w <;> rfl

/-- A dispatch that goes on leads to one of its jumps. -/
theorem next_of_dispatch (head : Dispatch) (n : Nat) (items : List CodeItem)
    (hl : Laid (.dispatch head n :: items)) (w : List Digit)
    (hs : ((dispatched head n items).step (dispatched head n items).size w).status = .running) :
    ∃ k < n, ((dispatched head n items).step (dispatched head n items).size w).next
      = head.headSize + n + codeSize (items.take k) := by
  cases w with
  | nil =>
    cases head with
    | set mask terminal => cases terminal <;> cases hs
    | map indices terminal => cases terminal <;> cases hs
  | cons d w =>
    cases head with
    | set mask terminal =>
      obtain rfl : n = 2 := hl.formed.1.1.2
      refine ⟨if mask.testBit d.val then 0 else 1, by split <;> omega, ?_⟩
      rw [step_set mask terminal items d w hl]
      rfl
    | map indices terminal =>
      have hle := indexOf_le_tableLength indices d
      rw [hl.formed.1.1.2.1] at hle
      cases hk : indexOf indices d with
      | zero =>
        unfold dispatched Dispatch.withTable Instruction.step at hs
        dsimp only at hs
        rw [hk] at hs
        cases hs
      | succ k =>
        have hkn : k < n := by omega
        refine ⟨k, hkn, ?_⟩
        rw [step_map indices n k terminal items d w hl hk hkn]
        rfl

/-- The code ends with the branch that goes nowhere; its other instructions without a table take
digits. -/
inductive EndsOnce : List CodeItem → Prop
  | stop : EndsOnce [.plain (.branch 0 false)]
  | cons (i : CodeItem) (items : List CodeItem) (hi : ∀ k, i = .plain k → k.Straight)
      (h : EndsOnce items) : EndsOnce (i :: items)

namespace EndsOnce

theorem ne_nil {items : List CodeItem} (h : EndsOnce items) : items ≠ [] := by
  cases h <;> exact List.cons_ne_nil _ _

theorem append (as bs : List CodeItem) (has : ∀ k, .plain k ∈ as → k.Straight)
    (h : EndsOnce bs) : EndsOnce (as ++ bs) := by
  induction as with
  | nil => exact h
  | cons i as ih =>
    refine cons i _ (fun k hk => has k ?_) (ih fun k hk => has k (List.mem_cons_of_mem _ hk))
    rw [hk]
    exact List.mem_cons_self ..

theorem of_append (as bs : List CodeItem) (h : EndsOnce (as ++ bs)) (hne : bs ≠ []) :
    EndsOnce bs := by
  induction as with
  | nil => exact h
  | cons i as ih =>
    rw [List.cons_append] at h
    generalize hitems : as ++ bs = items at h ih
    cases h with
    | stop => exact absurd (List.append_eq_nil_iff.mp hitems).2 hne
    | cons _ _ _ h => exact ih h

/-- Sizing jumps leaves the end as it is. -/
theorem of_unsized (items : List CodeItem) (h : EndsOnce (items.map CodeItem.unsized)) :
    EndsOnce items := by
  generalize hmap : items.map CodeItem.unsized = unsized at h
  induction h generalizing items with
  | stop =>
    obtain ⟨i, rest, rfl, hi, hrest⟩ := List.map_eq_cons_iff.mp hmap
    obtain rfl := List.map_eq_nil_iff.mp hrest
    obtain rfl := unsized_eq_plain i _ hi
    exact stop
  | cons j js hj _ ih =>
    obtain ⟨i, rest, rfl, hi, hrest⟩ := List.map_eq_cons_iff.mp hmap
    refine cons i rest (fun k hk => hj k ?_) (ih rest hrest)
    rw [← hi, hk]
    rfl

/-! ## Listed instructions -/

/-- The first instruction of the code is listed at its place. -/
theorem exists_listed (items : List CodeItem) (h : EndsOnce items) (hl : Laid items)
    (place : Nat) :
    ∃ i, (place, i) ∈ listed place items ∧ Instruction.decode (bytesOf items) = some i := by
  induction h with
  | stop => exact ⟨.branch 0 false, List.mem_cons_self .., decode_plain _ [] hl⟩
  | cons i items hi h ih =>
    rw [listed]
    cases hj : i.instruction? items with
    | some j => exact ⟨j, List.mem_cons_self .., decode_of_some i items hl j hj⟩
    | none =>
      rw [bytesOf, bytes_of_none i items hj]
      exact ih hl.tail

/-- Jumps with bytes lead somewhere. -/
theorem instruction?_ne_stop (i : CodeItem) (items : List CodeItem) (hl : Laid (i :: items))
    (hi : ∀ k, i = .plain k → k.Straight) (long : Bool) :
    i.instruction? items ≠ some (.branch 0 long) := by
  intro hj
  cases i with
  | label s => cases hj
  | plain k =>
    obtain rfl := Option.some.inj hj
    exact hi _ rfl
  | dispatch head n => cases head <;> cases hj
  | jump t n =>
    cases n with
    | zero => cases hj
    | succ n =>
      rw [CodeItem.instruction?.eq_5 _ _ _ (by omega)] at hj
      obtain ⟨hgap, -⟩ := Instruction.branch.inj (Option.some.inj hj)
      exact (branch_valid t n items hl).1 hgap

/-- Of the instructions listed, the last one and no other is a branch that goes nowhere. -/
theorem listed_eq (items : List CodeItem) (h : EndsOnce items) (hl : Laid items) : ∀ place,
    ∃ before last, listed place items = before ++ [(last, .branch 0 false)] ∧
      ∀ e ∈ before, ∀ long, e.2 ≠ .branch 0 long := by
  induction h with
  | stop => exact fun place => ⟨[], place, rfl, fun e he => nomatch he⟩
  | cons i items hi h ih =>
    intro place
    rw [listed]
    cases hj : i.instruction? items with
    | none => exact ih hl.tail place
    | some j =>
      obtain ⟨before, last, heq, hbefore⟩ := ih hl.tail (place + i.size)
      refine ⟨(place, j) :: before, last, ?_, fun e he => ?_⟩
      · dsimp only
        rw [heq, List.cons_append]
      · rcases List.mem_cons.mp he with rfl | he
        · exact fun long hlong => instruction?_ne_stop i items hl hi long (hlong ▸ hj)
        · exact hbefore e he

/-! ## Steps -/

/-- A step from the first instruction of the code leads to an item of the code. -/
theorem step (items : List CodeItem) (h : EndsOnce items) (hl : Laid items) (w : List Digit)
    (i : Instruction) (hd : Instruction.decode (bytesOf items) = some i)
    (hs : (i.step i.size w).status = .running) :
    ∃ as bs, items = as ++ bs ∧ bs ≠ [] ∧ (i.step i.size w).next = codeSize as := by
  induction h with
  | stop =>
    rw [decode_plain _ [] hl] at hd
    obtain rfl := Option.some.inj hd
    cases hs
  | cons j items hj h ih =>
    cases hk : j.instruction? items with
    | none =>
      rw [bytesOf, bytes_of_none j items hk] at hd
      obtain ⟨as, bs, rfl, hne, hnext⟩ := ih hl.tail hd
      refine ⟨j :: as, bs, rfl, hne, ?_⟩
      rw [codeSize_cons, size_of_none j _ hl hk, Nat.zero_add, hnext]
    | some k =>
      rw [decode_of_some j items hl k hk] at hd
      obtain rfl := Option.some.inj hd
      cases j with
      | label s => cases hk
      | plain i =>
        obtain rfl := Option.some.inj hk
        refine ⟨[.plain i], items, rfl, h.ne_nil, ?_⟩
        rw [(hj i rfl).next_eq i w hs]
        rfl
      | dispatch head n =>
        obtain rfl := Option.some.inj hk
        obtain ⟨k, hlt, hnext⟩ := next_of_dispatch head n items hl w hs
        have hlen := hl.formed.1.2.1
        refine ⟨.dispatch head n :: items.take k, items.drop k, ?_, ?_, hnext⟩
        · rw [List.cons_append, List.take_append_drop]
        · exact fun hnil => absurd (List.drop_eq_nil_iff.mp hnil) (by omega)
      | jump t n =>
        cases n with
        | zero => cases hk
        | succ n =>
          rw [CodeItem.instruction?.eq_5 _ _ _ (by omega)] at hk
          obtain rfl := Option.some.inj hk
          obtain ⟨as, has, hgap⟩ := afterLabel_split t items hl.forward.1
          have hsize := size_of_some _ items hl _
            (CodeItem.instruction?.eq_5 items t (n + 1) (by omega))
          refine ⟨.jump t (n + 1) :: as, .label t :: afterLabel t items, ?_,
            List.cons_ne_nil _ _, ?_⟩
          · rw [List.cons_append, ← has]
          · rw [codeSize_cons, hgap, hsize, Instruction.step, if_neg (branch_valid t n items hl).1]

/-- A run is always before an item of the code. -/
theorem split_of_visits (out : List CodeItem) (h : EndsOnce out) (hl : Laid out)
    (w left : List Digit) (place : Nat) (hv : Visits (bytesOf out) w place left) :
    ∃ as bs, out = as ++ bs ∧ bs ≠ [] ∧ place = codeSize as := by
  induction hv with
  | start => exact ⟨[], out, rfl, h.ne_nil, rfl⟩
  | next place left hv i hd hs ih =>
    obtain ⟨as, bs, rfl, hne, rfl⟩ := ih
    rw [drop_bytesOf as bs hl] at hd
    obtain ⟨cs, ds, rfl, hne', hnext⟩ := step bs (h.of_append as bs hne) hl.of_append left i hd hs
    refine ⟨as ++ cs, ds, (List.append_assoc ..).symm, hne', ?_⟩
    rw [codeSize_append, hnext]

/-- A run is always at an instruction of the listing. -/
theorem listed_of_visits (out : List CodeItem) (h : EndsOnce out) (hl : Laid out)
    (w left : List Digit) (place : Nat) (hv : Visits (bytesOf out) w place left) :
    ∃ i, (place, i) ∈ listed 0 out ∧
      Instruction.decode ((bytesOf out).drop place) = some i := by
  obtain ⟨as, bs, rfl, hne, rfl⟩ := h.split_of_visits out hl w left place hv
  obtain ⟨i, hmem, hd⟩ := exists_listed bs (h.of_append as bs hne) hl.of_append (codeSize as)
  refine ⟨i, mem_listed_append as bs hl _ 0 ?_, ?_⟩
  · rwa [Nat.zero_add]
  · rwa [drop_bytesOf as bs hl]

end EndsOnce

/-! ## Blocks of automata -/

section

variable {m : Automaton}

/-- A run leads on from every state it takes in. -/
theorem Automaton.Run.edge {p t : Nat} {cs : List Nat} (h : m.Run p cs t) :
    ∀ c ∈ p :: cs, ∃ u, m.Edge c u := by
  induction cs generalizing p with
  | nil =>
    intro c hc
    obtain rfl := List.mem_singleton.mp hc
    exact ⟨t, 0, h 0⟩
  | cons a cs ih =>
    obtain ⟨hp, -, -, hrun⟩ := h
    intro c hc
    rcases List.mem_cons.mp hc with rfl | hc
    · exact ⟨a, 0, hp 0⟩
    · exact ih hrun c hc

/-- The block of a state with an edge has only instructions that go on. -/
theorem BlockShape.straight {s : Nat} {b : List CodeItem} {cs : List Nat}
    (h : BlockShape m s b cs) (t : Nat) (he : m.Edge s t) : ∀ k, .plain k ∈ b → k.Straight := by
  have hjumps : ∀ ts k, .plain k ∉ jumpsTo ts := by
    intro ts k hk
    obtain ⟨t, -, ht⟩ := List.mem_map.mp hk
    cases ht
  intro k hk
  cases h with
  | stop hnone =>
    obtain ⟨d, hd⟩ := he
    rw [hnone d] at hd
    cases hd
  | single d u hnext =>
    obtain rfl : k = .single d.val (m.state s).accepting := by simpa using hk
    trivial
  | run between u hrun hlen haccept =>
    obtain rfl : k = .run (cs.length + 1) (m.state s).accepting := by simpa using hk
    trivial
  | member g u he' hnext =>
    obtain rfl : k = .set g.toNat (m.state s).accepting none := by simpa using hk
    trivial
  | split g u v hu hv hnext => exact absurd ((List.mem_cons.mp hk).resolve_left nofun) (hjumps _ k)
  | table f u he' hf htable hindex =>
    exact absurd ((List.mem_cons.mp hk).resolve_left nofun) (hjumps _ k)

/-- The block of a state without edges. -/
theorem BlockShape.of_stop {s : Nat} {b : List CodeItem} {cs : List Nat}
    (h : BlockShape m s b cs) (hs : ∀ t, ¬m.Edge s t) : b = [.plain (.branch 0 false)] := by
  cases h with
  | stop hnone => rfl
  | single d t hnext => exact absurd ⟨d, by rw [hnext d, if_pos rfl]⟩ (hs t)
  | run between t hrun hlen haccept =>
    obtain ⟨u, hu⟩ := hrun.edge s (List.mem_cons_self ..)
    exact absurd hu (hs u)
  | member g t he hnext => exact absurd he (hs t)
  | split g t u ht hu hnext => exact absurd ht (hs t)
  | table f t he hf htable hindex => exact absurd he (hs t)

variable (hm : m.Minimal)

include hm

/-- Blocks that end with that of the one state without edges. -/
theorem blocksIn_endsOnce (last : Nat) (hlast : ∀ t, ¬m.Edge last t) (order : List Nat) :
    ∀ absorbed, last ∉ absorbed → (∀ s ∈ order, ∃ t, m.Edge s t) →
      EndsOnce (blocksIn m m.inDegrees (order ++ [last]) absorbed) := by
  induction order with
  | nil =>
    intro absorbed hnot _
    rw [List.nil_append, blocksIn_cons m last [] absorbed hnot,
      (blockOf_shape m hm last).of_stop hlast]
    exact EndsOnce.cons _ _ nofun EndsOnce.stop
  | cons s order ih =>
    intro absorbed hnot hedges
    have hrest : ∀ s ∈ order, ∃ t, m.Edge s t := fun s hs => hedges s (List.mem_cons_of_mem _ hs)
    have hshape := blockOf_shape m hm s
    obtain ⟨t, ht⟩ := hedges s (List.mem_cons_self ..)
    rw [List.cons_append]
    by_cases hs : s ∈ absorbed
    · rw [blocksIn_skip m s _ absorbed hs]
      exact ih absorbed hnot hrest
    · rw [blocksIn_cons m s _ absorbed hs]
      refine EndsOnce.cons _ _ nofun
        (EndsOnce.append _ _ (hshape.straight t ht) (ih _ (fun hmem => ?_) hrest))
      rcases List.mem_append.mp hmem with hmem | hmem
      · -- a run takes in only states with edges
        rcases hshape.absorbed_run with hnil | ⟨u, hrun⟩
        · rw [hnil] at hmem
          cases hmem
        · obtain ⟨v, hv⟩ := hrun.edge last (List.mem_cons_of_mem _ hmem)
          exact hlast v hv
      · exact hnot hmem

/-- In a topological order, the state without edges comes last. -/
theorem Automaton.Topological.exists_last {order : List Nat} (h : m.Topological order) :
    ∃ front last, order = front ++ [last] ∧ (∀ t, ¬m.Edge last t) ∧
      ∀ s ∈ front, ∃ t, m.Edge s t := by
  have hsink : ∀ s, (∀ t, ¬m.Edge s t) → (m.state s).isSink = true := by
    intro s hs
    rw [State.isSink_iff]
    exact fun d => Option.eq_none_iff_forall_ne_some.mpr fun t ht => hs t ⟨d, ht⟩
  have hne : order ≠ [] := List.ne_nil_of_mem ((h.mem_iff m.start).mpr hm.start_lt)
  obtain ⟨front, last, rfl⟩ : ∃ front last, order = front ++ [last] :=
    ⟨_, _, (List.dropLast_append_getLast hne).symm⟩
  obtain ⟨-, -, hdisjoint⟩ := List.nodup_append.mp h.nodup
  have hmem : ∀ s, s ∈ front → s < m.size := fun s hs =>
    (h.mem_iff s).mp (List.mem_append_left _ hs)
  have hmemlast : last ∈ [last] := List.mem_singleton_self last
  have hlastlt : last < m.size := (h.mem_iff last).mp (List.mem_append_right _ hmemlast)
  have hlast := h.not_edge_last m hm front last
  refine ⟨front, last, rfl, hlast, fun s hs => ?_⟩
  by_contra hnone
  have hsame := m.isSink_unique hm s last (hmem s hs) hlastlt
    (hsink s fun t ht => hnone ⟨t, ht⟩) (hsink last hlast)
  exact hdisjoint s hs last hmemlast hsame

/-- The program of an automaton is code that can be emitted and ends once. -/
theorem exists_code (hlayout : m.Topological m.layoutOrder) (program : List UInt8)
    (h : assemble m = .ok program) :
    ∃ out, Laid out ∧ EndsOnce out ∧ program = bytesOf out := by
  unfold assemble at h
  cases hsettle : settle (blocks m) with
  | error e =>
    rw [hsettle] at h
    cases h
  | ok out =>
    rw [hsettle] at h
    obtain rfl := Except.ok.inj h
    obtain ⟨hmap, hlaid, hnd⟩ := (settle_blocks m hm hlayout).1 out hsettle
    obtain ⟨front, last, horder, hlast, hfront⟩ := hlayout.exists_last hm
    refine ⟨out, hlaid, EndsOnce.of_unsized out ?_, emit_eq_bytesOf out hnd hlaid.forward⟩
    rw [hmap, blocks, horder]
    exact blocksIn_endsOnce hm last hlast front [] List.not_mem_nil hfront

end

/-! ## Compiled programs -/

/-- The listing of a compiled program covers it without gap, and has one branch that goes nowhere,
at its end.  Every run reads instructions of the listing only, so it finds its input invalid just
where an instruction has no transition for a digit. -/
theorem compile_wellFormed (s : String) (program : List UInt8) (h : compile s = .ok program) :
    (Spans program 0 (disassemble program).1 program.length ∧
      ((disassemble program).1.map fun e => e.2.size).sum = program.length) ∧
    (∃ before last, (disassemble program).1 = before ++ [(last, .branch 0 false)] ∧
      ∀ e ∈ before, ∀ long, e.2 ≠ .branch 0 long) ∧
    ∀ w, (∀ place left, Visits program w place left →
        ∃ i, (place, i) ∈ (disassemble program).1 ∧
          Instruction.decode (program.drop place) = some i) ∧
      ((run program w).1 = .invalid ↔ ∃ place i d rest, Visits program w place (d :: rest) ∧
        (place, i) ∈ (disassemble program).1 ∧ ¬i.HasTransition d) := by
  obtain ⟨p, -, hproper, hp⟩ := compile_ok s program h
  obtain ⟨out, hlaid, hends, rfl⟩ := exists_code (automatonOf_slots_minimal p hproper)
    (automatonOf_layoutOrder _ (p.slots_ne_nil hproper) (p.slotsProper hproper)) program hp
  have hlist := disassemble_bytesOf out hlaid
  have hspans := spans_disassemble (bytesOf out)
  have hvisits := fun w place left => hends.listed_of_visits out hlaid w left place
  rw [hlist, ← length_bytesOf out hlaid] at hspans
  rw [hlist]
  have hsum := hspans.sum_sizes
  rw [Nat.zero_add] at hsum
  refine ⟨⟨hspans, hsum⟩, hends.listed_eq out hlaid 0, fun w => ⟨hvisits w, ?_⟩⟩
  rw [run_invalid_iff]
  constructor
  · rintro ⟨place, left, hv, hnone | ⟨i, d, rest, hd, rfl, htransition⟩⟩
    · obtain ⟨i, -, hd⟩ := hvisits w place left hv
      rw [hnone] at hd
      cases hd
    · obtain ⟨j, hmem, hj⟩ := hvisits w place _ hv
      obtain rfl := Option.some.inj (hd.symm.trans hj)
      exact ⟨place, i, d, rest, hv, hmem, htransition⟩
  · rintro ⟨place, i, d, rest, hv, hmem, htransition⟩
    exact ⟨place, d :: rest, hv, Or.inr ⟨i, d, rest, hspans.decode_of_mem _ hmem, rfl, htransition⟩⟩

/-- A program with a jump table, run over digits that its set does not take. -/
theorem compile_wellFormed_table :
    compile "1|2[34]" = .ok [128, 0, 0, 18, 1, 1, 2, 96, 24, 0] ∧
      Spans [128, 0, 0, 18, 1, 1, 2, 96, 24, 0] 0
        [(0, .map 18 false [1, 1]), (6, .branch 2 false), (7, .set 24 false none),
          (9, .branch 0 false)] 10 ∧
      ∃ place i d rest,
        Visits [128, 0, 0, 18, 1, 1, 2, 96, 24, 0] [2, 5] place (d :: rest) ∧
        (place, i) ∈ (disassemble [128, 0, 0, 18, 1, 1, 2, 96, 24, 0]).1 ∧ ¬i.HasTransition d := by
  have hcompile : compile "1|2[34]" = .ok [128, 0, 0, 18, 1, 1, 2, 96, 24, 0] := by cbv
  have hlist : (disassemble [128, 0, 0, 18, 1, 1, 2, 96, 24, 0]).1 =
      [(0, .map 18 false [1, 1]), (6, .branch 2 false), (7, .set 24 false none),
        (9, .branch 0 false)] := by decide +kernel
  obtain ⟨⟨hspans, -⟩, -, hruns⟩ := compile_wellFormed "1|2[34]" _ hcompile
  rw [hlist] at hspans
  exact ⟨hcompile, hspans, (hruns [2, 5]).2.mp (by decide +kernel)⟩

end NumberPlan
