import NumberPlan.Proofs.Threads.Guarded
import NumberPlan.Proofs.Regex.SharedCache

/-!
# Racing threads compile a pattern once

In every order of turns, each pattern that was compiled is cached, or is to be pushed, or has given
way, and is so as many times as it was compiled (`Sharing.made`).  Only what is not cached is
pushed, so of each pattern there is one object at a time:

    compilations compile p s.deeds = evictions p s.shared + 1     where p is cached or to be pushed
    compilations compile p s.deeds = evictions p s.shared         where it is not    (compiled_once)

where `s` is the system after the turns.  A thread that is alone does what `get` does (`get_alone`).
-/

namespace NumberPlan.Regex

/-- What the threads do to a cache. -/
abbrev CompileDeed (ρ : Type) := Deed String Unit (CompileStage ρ)

namespace SharedCache

variable {σ ρ : Type}

/-- The pattern that is compiled, if it does compile. -/
def makes? (compile : String → Option ρ) : CompileDeed ρ → Option String
  | .work p .compile _ => if (compile p).isSome then some p else none
  | _ => none

/-- The patterns that were compiled, in order. -/
def madePatterns (compile : String → Option ρ) (ds : List (CompileDeed ρ)) : List String :=
  ds.filterMap (makes? compile)

/-- The patterns that gave way, in order. -/
def gonePatterns (c : SharedCache σ ρ) : List String := c.evicted.map (·.1)

/-- The pattern whose object is to be pushed. -/
def toPush : Option (String × CompileStage ρ) → List String
  | some (p, .push _) => [p]
  | _ => []

def compilations (compile : String → Option ρ) (p : String) (ds : List (CompileDeed ρ)) : Nat :=
  (madePatterns compile ds).count p

def evictions (p : String) (c : SharedCache σ ρ) : Nat := (gonePatterns c).count p

/-- An entry gave way between two moments. -/
def GaveWay (e : String × Compiled ρ) (before after : SharedCache σ ρ) : Prop :=
  ∃ gone, after.evicted = before.evicted ++ gone ∧ e ∈ gone

/-- How the cache stands with what was done, and with the task under way. -/
structure Sharing (L : LruStore σ String (Compiled ρ)) (compile : String → Option ρ) (n : Nat)
    (ds : List (CompileDeed ρ)) (c : SharedCache σ ρ) (task : Option (String × CompileStage ρ)) :
    Prop where
  orderly : (view L c).Orderly
  capacity : (view L c).capacity = max n 1
  faithful : (view L c).Faithful compile
  absent : ∀ p w, task = some (p, w) → (view L c).entries.lookup p = none
  fresh : ∀ p r, task = some (p, .push r) → r.serial < c.compiled ∧ compile p = some r.regex
  made : (madePatterns compile ds).Perm (gonePatterns c ++ (patterns L c ++ toPush task))

section

variable {L : LruStore σ String (Compiled ρ)} {compile : String → Option ρ} {n : Nat}
  {ds : List (CompileDeed ρ)} {c : SharedCache σ ρ} {task : Option (String × CompileStage ρ)}

theorem madePatterns_snoc (d : CompileDeed ρ) :
    madePatterns compile (ds ++ [d]) = madePatterns compile ds ++ (makes? compile d).toList :=
  filterMap_snoc (makes? compile) ds d

theorem madePatterns_snoc_of_none (d : CompileDeed ρ) (hd : makes? compile d = none) :
    madePatterns compile (ds ++ [d]) = madePatterns compile ds := by
  rw [madePatterns_snoc, hd]
  exact List.append_nil _

theorem sharing_new (hL : L.Lawful) : Sharing L compile n [] (new L n) none := by
  have hview : view L (new L n) = Cache.withCapacity n := view_new hL n
  have hnil : patterns L (new L n) = [] := congrArg Cache.patterns hview
  constructor
  · rw [hview]
    exact Cache.orderly_after compile n []
  · rw [hview]
    rfl
  · rw [hview]
    exact (Cache.Reachable.empty n).faithful
  · exact fun p w h => nomatch h
  · exact fun p r h => nomatch h
  · rw [hnil]
    exact .refl []

/-! ## Each step keeps it -/

section

variable (h : Sharing L compile n ds c task)

include h

/-- What changes the order of the entries only makes no difference. -/
theorem Sharing.reorders (d : CompileDeed ρ) (hd : makes? compile d = none) (c' : SharedCache σ ρ)
    (hview : (view L c).Reorders (view L c')) (hevicted : c'.evicted = c.evicted) :
    Sharing L compile n (ds ++ [d]) c' task := by
  have hpatterns : (patterns L c').Perm (patterns L c) := hview.entries.map Prod.fst
  have hcompiled : c'.compiled = c.compiled := hview.compiled
  constructor
  · exact h.orderly.reorders hview
  · exact hview.capacity.trans h.capacity
  · exact fun e he => h.faithful e (hview.entries.mem_iff.mp he)
  · intro p w htask
    rw [hview.lookup h.orderly]
    exact h.absent p w htask
  · rw [hcompiled]
    exact h.fresh
  · rw [madePatterns_snoc_of_none d hd]
    have hgone : gonePatterns c' = gonePatterns c := congrArg (List.map Prod.fst) hevicted
    rw [hgone]
    exact h.made.trans ((hpatterns.symm.append_right _).append_left _)

/-- While there is nothing to push, the task may change or end. -/
theorem Sharing.retask (task' : Option (String × CompileStage ρ)) (hpush : toPush task = [])
    (hpush' : toPush task' = [])
    (habsent : ∀ p w, task' = some (p, w) → (view L c).entries.lookup p = none) :
    Sharing L compile n ds c task' := by
  constructor
  · exact h.orderly
  · exact h.capacity
  · exact h.faithful
  · exact habsent
  · rintro p r rfl
    cases hpush'
  · rw [hpush']
    exact hpush ▸ h.made

end

theorem Sharing.compiled (k : String) (regex : ρ) (supply : Unit) (hk : compile k = some regex)
    (h : Sharing L compile n ds c (some (k, .compile))) :
    Sharing L compile n (ds ++ [.work k .compile supply]) (make regex c).2
      (some (k, .push (make regex c).1)) := by
  have habsent := h.absent k .compile rfl
  have hmade : madePatterns compile (ds ++ [.work k .compile supply]) =
      madePatterns compile ds ++ [k] := by
    rw [madePatterns_snoc, makes?, hk]
    rfl
  constructor
  · exact h.orderly.made
  · exact h.capacity
  · exact h.faithful
  · intro p w htask
    cases htask
    exact habsent
  · intro p r htask
    cases htask
    exact ⟨Nat.lt_succ_self _, hk⟩
  · have hbefore : (madePatterns compile ds).Perm (gonePatterns c ++ (patterns L c ++ [])) := h.made
    rw [List.append_nil] at hbefore
    rw [hmade]
    show (madePatterns compile ds ++ [k]).Perm (gonePatterns c ++ (patterns L c ++ [k]))
    rw [← List.append_assoc]
    exact hbefore.append_right [k]

theorem Sharing.pushed (hL : L.Lawful) (k : String) (r : Compiled ρ) (supply : Unit)
    (h : Sharing L compile n ds c (some (k, .push r))) :
    Sharing L compile n (ds ++ [.work k (.push r) supply]) (keep L k r c) none := by
  have habsent := h.absent k _ rfl
  obtain ⟨hserial, hcompile⟩ := h.fresh k r rfl
  obtain ⟨hview, hgone⟩ := view_keep hL c k r habsent h.orderly
  have hpatterns : patterns L (keep L k r c) =
      (((k, r) :: (view L c).entries).take (view L c).capacity).map (·.1) :=
    congrArg Cache.patterns hview
  constructor
  · rw [hview]
    exact h.orderly.insert r habsent hserial
  · rw [hview]
    exact h.capacity
  · rw [hview]
    intro e he
    rcases List.mem_cons.mp (List.mem_of_mem_take he) with rfl | hold
    · exact hcompile
    · exact h.faithful e hold
  · exact fun p w htask => nomatch htask
  · exact fun p r htask => nomatch htask
  · have hbefore : (madePatterns compile ds).Perm (gonePatterns c ++ (patterns L c ++ [k])) :=
      h.made
    have hnothing : toPush (none : Option (String × CompileStage ρ)) = [] := rfl
    rw [madePatterns_snoc_of_none _ rfl, hpatterns, gonePatterns, hgone, List.map_append,
      List.append_assoc, hnothing, List.append_nil]
    -- of the new object and the others, some show and the rest is gone
    have hall : k :: patterns L c =
        (((k, r) :: (view L c).entries).take (view L c).capacity).map (·.1) ++
          (((k, r) :: (view L c).entries).drop (view L c).capacity).map (·.1) := by
      rw [← List.map_append, List.take_append_drop]
      rfl
    refine hbefore.trans (List.Perm.append_left _ ((List.perm_append_singleton k _).trans ?_))
    rw [hall]
    exact List.perm_append_comm

/-! ## How often a pattern was compiled -/

theorem mem_toPush (p : String) : p ∈ toPush task ↔ ∃ r, task = some (p, .push r) := by
  rcases task with _ | ⟨q, w⟩
  · simp [toPush]
  · cases w with
    | compile => simp [toPush]
    | push r => simp [toPush, eq_comm]

section

variable (h : Sharing L compile n ds c task) (p : String)

include h

theorem Sharing.notMem_patterns (w : CompileStage ρ) (htask : task = some (p, w)) :
    p ∉ patterns L c := (lookup_eq_none_iff_notMem _ p).mp (h.absent p w htask)

theorem Sharing.compilations_eq : compilations compile p ds =
    evictions p c + ((patterns L c).count p + (toPush task).count p) := by
  rw [compilations, h.made.count_eq, List.count_append, List.count_append]
  rfl

/-- There is one object at most for a pattern, wherever it is. -/
theorem Sharing.compilations_of_held (hheld : p ∈ patterns L c ∨ p ∈ toPush task) :
    compilations compile p ds = evictions p c + 1 := by
  have hnodup : (patterns L c).Nodup := List.pairwise_map.mpr h.orderly.distinct
  rw [h.compilations_eq p]
  by_cases hpush : p ∈ toPush task
  · obtain ⟨r, rfl⟩ := (mem_toPush p).mp hpush
    have hnone : (patterns L c).count p = 0 := List.count_eq_zero.mpr (h.notMem_patterns p _ rfl)
    have hone : (toPush (some (p, CompileStage.push r))).count p = 1 := List.count_singleton_self
    omega
  · have hnone : (toPush task).count p = 0 := List.count_eq_zero.mpr hpush
    have hone : (patterns L c).count p = 1 :=
      List.count_eq_one_of_mem hnodup (hheld.resolve_right hpush)
    omega

theorem Sharing.compilations_of_not_held (hheld : ¬(p ∈ patterns L c ∨ p ∈ toPush task)) :
    compilations compile p ds = evictions p c := by
  obtain ⟨hcached, hpush⟩ := not_or.mp hheld
  rw [h.compilations_eq p, List.count_eq_zero.mpr hcached, List.count_eq_zero.mpr hpush]
  rfl

end

/-! ## Steps -/

/-- A look finds the object that is cached, and changes the order of the entries only. -/
theorem looks (hL : L.Lawful) (hc : (view L c).Orderly) (k : String)
    (found : Option (Option (Compiled ρ))) (c' : SharedCache σ ρ)
    (hlook : (service L compile).look k c = (found, c')) :
    found = ((view L c).entries.lookup k).map some ∧ (view L c).Reorders (view L c') ∧
      c'.evicted = c.evicted := by
  obtain ⟨c₁, hlook₁, hview, hevicted⟩ := look_cases hL c k hc
  simp only [service, hlook₁, Prod.mk.injEq] at hlook
  obtain ⟨rfl, rfl⟩ := hlook
  exact ⟨rfl, hview, hevicted⟩

section

variable (L) (compile) (k : String) (c)

/-- The steps of the work on a pattern. -/
inductive Works :
    CompileStage ρ → Progress (CompileStage ρ) (Option (Compiled ρ)) × SharedCache σ ρ → Prop
  | failed (h : compile k = none) : Works .compile (.done none, c)
  | compiled (regex : ρ) (h : compile k = some regex) :
      Works .compile (.more (.push (make regex c).1), (make regex c).2)
  | pushed (r : Compiled ρ) : Works (.push r) (.done (some r), keep L k r c)

theorem works (w : CompileStage ρ) (supply : Unit) :
    Works L compile c k w ((service L compile).work k w supply c) := by
  cases w with
  | compile =>
    simp only [service]
    split
    · next hcompile => exact .failed hcompile
    · next regex hcompile => exact .compiled regex hcompile
  | push r => exact .pushed r

end

theorem sharing_keeps (hL : L.Lawful) (compile : String → Option ρ) (n : Nat) :
    (service L compile).Keeps (Sharing L compile n)
      (fun _ _ p answer => answer.map (·.regex) = compile p) where
  look ds c task k found c' h hlook := by
    obtain ⟨-, hview, hevicted⟩ := looks hL h.orderly k found c' hlook
    exact h.reorders _ rfl c' hview hevicted
  hit ds c task k answer c' h hlook := by
    obtain ⟨hfound, -, -⟩ := looks hL h.orderly k (some answer) c' hlook
    obtain ⟨r, hr, rfl⟩ := Option.map_eq_some_iff.mp hfound.symm
    exact (h.faithful (k, r) ((h.orderly.lookup_iff r).mp hr)).symm
  miss ds c k c' h hlook := by
    obtain ⟨hfound, hview, hevicted⟩ := looks hL h.orderly k none c' hlook
    have hsame := h.reorders (.look k) rfl c' hview hevicted
    refine hsame.retask _ rfl rfl fun p w htask => ?_
    cases htask
    rw [hview.lookup h.orderly]
    exact Option.map_eq_none_iff.mp hfound.symm
  more ds c k w supply w' c' h hwork := by
    have hworks := works L compile c k w supply
    rw [hwork] at hworks
    cases hworks with
    | compiled regex hcompile => exact h.compiled k regex supply hcompile
  done ds c k w supply answer c' h hwork := by
    have hworks := works L compile c k w supply
    rw [hwork] at hworks
    cases hworks with
    | failed hcompile =>
      have hmakes : makes? compile (.work k .compile supply) = none := by
        rw [makes?, hcompile]
        rfl
      have hsame := h.reorders _ hmakes c ⟨rfl, .refl _, rfl⟩ rfl
      exact ⟨hsame.retask none rfl rfl nofun, hcompile.symm⟩
    | pushed r => exact ⟨h.pushed hL k r supply, (h.fresh k r rfl).2.symm⟩
  good_look _ _ _ _ _ _ _ _ _ h _ := h
  good_work _ _ _ _ _ _ _ _ _ _ h _ := h

/-! ## Entries stay or give way -/

/-- Of the entries some stay, and the others have given way in the meantime. -/
def Evolves (L : LruStore σ String (Compiled ρ)) (c c' : SharedCache σ ρ) : Prop :=
  ∃ gone, c'.evicted = c.evicted ++ gone ∧
    ∀ e ∈ (view L c).entries, e ∈ (view L c').entries ∨ e ∈ gone

theorem Evolves.refl (c : SharedCache σ ρ) : Evolves L c c :=
  ⟨[], (List.append_nil _).symm, fun _ he => Or.inl he⟩

theorem Evolves.trans {c₁ c₂ c₃ : SharedCache σ ρ} (h : Evolves L c₁ c₂) (h' : Evolves L c₂ c₃) :
    Evolves L c₁ c₃ := by
  obtain ⟨gone, hgone, hstay⟩ := h
  obtain ⟨gone', hgone', hstay'⟩ := h'
  refine ⟨gone ++ gone', by rw [hgone', hgone, List.append_assoc], fun e he => ?_⟩
  rcases hstay e he with hin | hout
  · exact (hstay' e hin).imp_right (List.mem_append_right gone)
  · exact Or.inr (List.mem_append_left gone' hout)

theorem evolves_of_perm (c' : SharedCache σ ρ)
    (hentries : (view L c').entries.Perm (view L c).entries) (hevicted : c'.evicted = c.evicted) :
    Evolves L c c' :=
  ⟨[], by rw [hevicted, List.append_nil], fun _ he => Or.inl (hentries.mem_iff.mpr he)⟩

theorem evolves_keep (hL : L.Lawful) (p : String) (r : Compiled ρ)
    (h : (view L c).entries.lookup p = none) (hc : (view L c).Orderly) :
    Evolves L c (keep L p r c) := by
  obtain ⟨hview, hgone⟩ := view_keep hL c p r h hc
  refine ⟨_, hgone, fun e he => ?_⟩
  rw [hview]
  show e ∈ ((p, r) :: (view L c).entries).take _ ∨ _
  rw [← List.mem_append, List.take_append_drop]
  exact List.mem_cons_of_mem _ he

theorem sharing_extends (hL : L.Lawful) (compile : String → Option ρ) (n : Nat) :
    (service L compile).Extends (Sharing L compile n) (Evolves L) where
  refl c := .refl c
  trans _ _ _ h₁ h₂ := h₁.trans h₂
  look ds c task k found c' h hlook := by
    obtain ⟨-, hview, hevicted⟩ := looks hL h.orderly k found c' hlook
    exact evolves_of_perm c' hview.entries hevicted
  work ds c k w supply progress c' h hwork := by
    have hworks := works L compile c k w supply
    rw [hwork] at hworks
    cases hworks with
    | failed => exact .refl c
    | compiled regex hcompile => exact evolves_of_perm _ (.refl _) rfl
    | pushed r => exact evolves_keep hL k r (h.absent k _ rfl) h.orderly

section

variable (hL : L.Lawful) {x : Turn String Unit} {holder : Option Nat}
  {phase : Phase String (CompileStage ρ) (Option (Compiled ρ))}
  {m : Moved String (SharedCache σ ρ) Unit (CompileStage ρ) (Option (Compiled ρ))}
  (h : (service L compile).Moves x holder c phase m) (hcore : Sharing L compile n ds c task)
  (htask : phase.holds = true → task = phase.task?)

include hL h hcore htask

/-- The object that a thread comes to have is cached then; if it was not before, its pattern was
not. -/
theorem lookup_move (hphase : phase.result? = none) (p : String) (r : Compiled ρ)
    (hm : m.phase.result? = some (p, some r)) :
    (view L m.shared).entries.lookup p = some r ∧
      ((view L c).entries.lookup p = some r ∨ (view L c).entries.lookup p = none) := by
  cases h with
  | call | miss | acquire | remiss | more | answer => cases hm
  | release => cases hphase
  | hit k a c' hlook | rehit k a c' hlook =>
    obtain ⟨rfl, rfl⟩ := Prod.mk.inj (Option.some.inj hm)
    obtain ⟨hfound, hview, -⟩ := looks hL hcore.orderly k _ c' hlook
    have hr : (view L c).entries.lookup k = some r := by simpa using hfound.symm
    exact ⟨(hview.lookup hcore.orderly).trans hr, Or.inl hr⟩
  | done k w a c' hwork =>
    obtain ⟨rfl, rfl⟩ := Prod.mk.inj (Option.some.inj hm)
    obtain rfl := htask rfl
    have hworks := works L compile c k w x.supply
    rw [hwork] at hworks
    cases hworks with
    | pushed =>
      have habsent := hcore.absent k _ rfl
      refine ⟨?_, Or.inr habsent⟩
      rw [(view_keep hL c k r habsent hcore.orderly).1]
      exact hcore.orderly.lookup_insert r

end

end

/-! ## Turns -/

section

variable {L : LruStore σ String (Compiled ρ)} (hL : L.Lawful) (compile : String → Option ρ)
  (n : Nat)

include hL

theorem upheld_after (turns : List (Turn String Unit)) :
    System.Upheld (Sharing L compile n) (fun _ _ p answer => answer.map (·.regex) = compile p)
      ((service L compile).after (new L n) turns) :=
  (sharing_keeps hL compile n).upheld_after (new L n) (sharing_new hL) turns

/-- Every answer is what compiling the pattern gives. -/
theorem regex_of_answer (turns : List (Turn String Unit)) (t : Nat) (p : String)
    (answer : Option (Compiled ρ))
    (h : .answer t p answer ∈ ((service L compile).after (new L n) turns).log) :
    answer.map (·.regex) = compile p := (upheld_after hL compile n turns).answered t p answer h

theorem evolves_after (turns later : List (Turn String Unit)) :
    Evolves L ((service L compile).after (new L n) turns).shared
      ((service L compile).after (new L n) (turns ++ later)).shared :=
  (sharing_extends hL compile n).after (sharing_keeps hL compile n) (new L n) (sharing_new hL) turns
    later

theorem lookup_of_obtains (turns : List (Turn String Unit)) (x : Turn String Unit) (p : String)
    (r : Compiled ρ) (h : (service L compile).Obtains (new L n) turns x p (some r)) :
    let before := (service L compile).after (new L n) turns
    let after := (service L compile).after (new L n) (turns ++ [x])
    (view L after.shared).entries.lookup p = some r ∧
      ((view L before.shared).entries.lookup p = some r ∨
        (view L before.shared).entries.lookup p = none) := by
  intro before after
  obtain ⟨hnone, hsome⟩ := h
  have hupheld := upheld_after hL compile n turns
  have hafter : after = (service L compile).turn before x := Service.after_snoc _ _ turns x
  rw [Service.after_snoc] at hsome
  rcases (service L compile).turn_cases before x with hsame | ⟨m, hm, hturn⟩
  · rw [hsame, hnone] at hsome
    cases hsome
  · rw [hturn, System.phase_moved_self] at hsome
    rw [hafter, hturn]
    exact lookup_move hL hm hupheld.core (hupheld.locked.task?_of_holds x.thread) hnone p r hsome

end

/-- In every order of turns, a pattern is pushed only while it is not cached, so it was compiled
once more than it gave way where it is cached or to be pushed, and else as often.  There is room for
all that is cached.  An answer was obtained in an earlier turn, and if two threads obtain different
objects for a pattern, the first of them gave way in between. -/
theorem compiled_once {L : LruStore σ String (Compiled ρ)} (hL : L.Lawful)
    (compile : String → Option ρ) (n : Nat) (turns : List (Turn String Unit)) :
    let S := service L compile
    let s := S.after (new L n) turns
    (∀ t p r, s.phase t = .working p (.push r) → p ∉ patterns L s.shared) ∧
      (∀ p, (p ∈ patterns L s.shared ∨ ∃ t r, s.phase t = .working p (.push r)) →
        compilations compile p s.deeds = evictions p s.shared + 1) ∧
      (∀ p, ¬(p ∈ patterns L s.shared ∨ ∃ t r, s.phase t = .working p (.push r)) →
        compilations compile p s.deeds = evictions p s.shared) ∧
      size L s.shared ≤ max n 1 ∧
      (∀ t p answer, .answer t p answer ∈ s.log → S.Obtained (new L n) turns t p answer) ∧
      ∀ x between y p r r', S.Obtains (new L n) turns x p (some r) →
        S.Obtains (new L n) (turns ++ x :: between) y p (some r') → r ≠ r' →
        GaveWay (p, r) (S.after (new L n) (turns ++ [x])).shared
          (S.after (new L n) (turns ++ x :: between)).shared := by
  intro S s
  have hlocked : s.Locked := (upheld_after hL compile n turns).locked
  have hcore : Sharing L compile n s.deeds s.shared s.task? :=
    (upheld_after hL compile n turns).core
  have htask : ∀ p w, s.task? = some (p, w) ↔ ∃ t, s.phase t = .working p w := by
    intro p w
    simp only [hlocked.task?_iff, Phase.task?_eq_some]
  have hpush : ∀ p, p ∈ toPush s.task? ↔ ∃ t r, s.phase t = .working p (.push r) := by
    intro p
    rw [mem_toPush, exists_comm]
    exact exists_congr fun r => htask p _
  refine ⟨fun t p r h => ?_, fun p hheld => ?_, fun p hheld => ?_, ?_, ?_, ?_⟩
  · exact hcore.notMem_patterns p _ ((htask p _).mpr ⟨t, h⟩)
  · rw [← hpush] at hheld
    exact hcore.compilations_of_held p hheld
  · rw [← hpush] at hheld
    exact hcore.compilations_of_not_held p hheld
  · show L.size s.shared.store ≤ max n 1
    rw [hL.size_eq, ← hcore.capacity]
    exact hcore.orderly.length_le
  · exact (S.obtained_after turns).2
  · intro x between y p r r' hx hy hne
    obtain ⟨hr, -⟩ := lookup_of_obtains hL compile n turns x p r hx
    obtain ⟨-, hr'⟩ := lookup_of_obtains hL compile n (turns ++ x :: between) y p r' hy
    obtain ⟨gone, hgone, hstay⟩ := evolves_after hL compile n (turns ++ [x]) between
    rw [List.append_assoc, List.singleton_append] at hgone hstay
    refine ⟨gone, hgone, (hstay (p, r) (mem_of_lookup _ p r hr)).resolve_left fun hin => ?_⟩
    -- an object that stays would be the one that the second thread finds
    have horderly := (upheld_after hL compile n (turns ++ x :: between)).core.orderly
    have hthere := (horderly.lookup_iff r).mpr hin
    rcases hr' with hfound | habsent
    · exact hne (Option.some.inj (hthere.symm.trans hfound))
    · rw [hthere] at habsent
      cases habsent

/-- Two threads miss a pattern, and the first of them has compiled it. -/
def missed : List (Turn String Unit) := [0, 1, 0, 1, 0, 0, 0].map fun t => ⟨t, "1", ()⟩

/-- Another pattern takes its place, and the second thread compiles it again. -/
def displaced : List (Turn String Unit) :=
  ⟨0, "1", ()⟩ :: [2, 2, 2, 2, 2, 2, 2, 1, 1, 1].map fun t => ⟨t, "2", ()⟩

theorem compiled_once_displaced :
    let L : LruStore (Listed String (Compiled String)) String (Compiled String) := Listed.store
    let S := service L some
    let s := S.after (new L 0) missed
    let first : Turn String Unit := ⟨0, "1", ()⟩
    let second : Turn String Unit := ⟨1, "1", ()⟩
    L.Lawful ∧ s.phase 0 = .working "1" (.push ⟨0, "1"⟩) ∧ "1" ∉ patterns L s.shared ∧
      compilations some "1" s.deeds = evictions "1" s.shared + 1 ∧
      compilations some "2" s.deeds = evictions "2" s.shared ∧
      S.Obtains (new L 0) missed first "1" (some ⟨0, "1"⟩) ∧
      S.Obtains (new L 0) (missed ++ first :: displaced) second "1" (some ⟨2, "1"⟩) ∧
      GaveWay ("1", ⟨0, "1"⟩) (S.after (new L 0) (missed ++ [first])).shared
        (S.after (new L 0) (missed ++ first :: displaced)).shared := by
  intro L S s first second
  obtain ⟨habsent, hheld, hnot, -, -, hgone⟩ :=
    compiled_once (Listed.store_lawful : L.Lawful) some 0 missed
  have hphase : s.phase 0 = .working "1" (.push ⟨0, "1"⟩) := by decide +kernel
  have hholder : s.holder = some 0 := by decide +kernel
  have hfirst : S.Obtains (new L 0) missed first "1" (some ⟨0, "1"⟩) :=
    ⟨by decide +kernel, by decide +kernel⟩
  have hsecond : S.Obtains (new L 0) (missed ++ first :: displaced) second "1" (some ⟨2, "1"⟩) :=
    ⟨by decide +kernel, by decide +kernel⟩
  refine ⟨Listed.store_lawful, hphase, habsent 0 "1" _ hphase, hheld "1" (Or.inr ⟨0, _, hphase⟩),
    hnot "2" ?_, hfirst, hsecond, hgone first displaced second "1" _ _ hfirst hsecond (by decide)⟩
  rintro (hcached | ⟨t, r, h⟩)
  · exact absurd hcached (by decide +kernel)
  · -- the thread would have the lock, which the first thread has
    have hlocked : s.Locked := (upheld_after Listed.store_lawful some 0 missed).locked
    have hlock := (hlocked t).mp (Phase.holds_of_task? _ _ ((Phase.task?_eq_some _ _ _).mpr h))
    rw [hholder] at hlock
    rw [← Option.some.inj hlock, hphase] at h
    exact absurd (Phase.working.inj h).1 (by decide)

/-! ## One thread alone -/

theorem serves_get {L : LruStore σ String (Compiled ρ)} (hL : L.Lawful)
    (compile : String → Option ρ) (p : String) (supply : Unit) (c : SharedCache σ ρ) :
    (service L compile).Serves p supply (get L compile p c).1 (get L compile p c).2 c := by
  cases hlook : (view L c).entries.lookup p with
  | some r =>
    obtain ⟨c', hfound, -⟩ := look_of_some hL c p r hlook
    have hget : get L compile p c = (some r, c') := by simp only [get, hfound]
    rw [hget]
    apply Service.Serves.hit
    simp only [service, hfound]
    rfl
  | none =>
    obtain ⟨c₁, hmiss, hview₁, -⟩ := look_of_none hL c p hlook
    obtain ⟨c₂, hmiss₁, -⟩ := look_of_none hL c₁ p (hview₁ ▸ hlook)
    refine .worked c c₁ c₂ (by simp only [service, hmiss]; rfl)
      (by simp only [service, hmiss₁]; rfl) ?_
    cases hcompile : compile p with
    | none =>
      have hget : get L compile p c = (none, c₂) := by simp only [get, hmiss, hmiss₁, hcompile]
      rw [hget]
      apply Service.Completes.done
      simp only [service, hcompile]
    | some regex =>
      have hget : get L compile p c =
          (some (make regex c₂).1, keep L p (make regex c₂).1 (make regex c₂).2) := by
        simp only [get, hmiss, hmiss₁, hcompile]
      rw [hget]
      refine .more _ (.push (make regex c₂).1) c₂ (make regex c₂).2 ?_ (.done _ _ rfl)
      simp only [service, hcompile]

/-- A thread that is alone gets the answer, and leaves the cache, of `get`. -/
theorem get_alone {L : LruStore σ String (Compiled ρ)} (hL : L.Lawful)
    (compile : String → Option ρ) (x : Turn String Unit) (c : SharedCache σ ρ)
    (s : System String (SharedCache σ ρ) Unit (CompileStage ρ) (Option (Compiled ρ)))
    (h : s.At x.thread .idle none c) :
    ∃ k, ((service L compile).alone x k s).At x.thread .idle none (get L compile x.request c).2 ∧
      .answer x.thread x.request (get L compile x.request c).1 ∈
        ((service L compile).alone x k s).log :=
  h.served (serves_get hL compile x.request x.supply c)

end SharedCache

end NumberPlan.Regex
