import Mathlib.Data.List.Induction
import NumberPlan.Threads.Guarded

/-!
# What holds at a guarded service in every order of turns

The lock admits one thread at a time, so there is one task under way at most (`System.task?`).  A
property of the shared state that every look and every step of work keeps, and a property of
answers that is kept as well (`Service.Keeps`), hold after all turns:

    S.Keeps Core Good → Core [] sh none → System.Upheld Core Good (S.after sh turns)
                                                                       (Keeps.upheld_after)

A relation of what is shared at two moments is extended in the same way (`Extends.after`), and what
a thread's own steps keep holds of each of its calls (`calls_after`).

Only here is it looked at how the threads move.  An answer is given after the turn in which it was
obtained (`obtained_after`).  A thread that is alone gets the answer that its request, left to
itself, comes to (`System.At.served`).
-/

namespace NumberPlan

variable {κ σ ι ω α : Type}

/-- The thread has the lock. -/
def Phase.holds : Phase κ ω α → Bool
  | .relooking _ => true
  | .working .. => true
  | .releasing .. => true
  | _ => false

/-- The request that is worked on, and the work that is left. -/
def Phase.task? : Phase κ ω α → Option (κ × ω)
  | .working k w => some (k, w)
  | _ => none

/-- The answer that has been found and is not given yet. -/
def Phase.result? : Phase κ ω α → Option (κ × α)
  | .releasing k a => some (k, a)
  | .answering k a => some (k, a)
  | _ => none

theorem Phase.task?_eq_some (p : Phase κ ω α) (k : κ) (w : ω) :
    p.task? = some (k, w) ↔ p = .working k w := by
  cases p with
  | working k' w' => simp [task?]
  | idle | looking | waiting | relooking | releasing | answering => simp [task?]

theorem Phase.holds_of_task? (p : Phase κ ω α) (task : κ × ω) (h : p.task? = some task) :
    p.holds = true := by
  cases p with
  | working => rfl
  | idle | looking | waiting | relooking | releasing | answering => cases h

/-- The task under way. -/
def System.task? (s : System κ σ ι ω α) : Option (κ × ω) :=
  s.holder.bind fun t => (s.phase t).task?

/-! ## Steps -/

section

variable (S : Service κ σ ι ω α) (x : Turn κ ι) (holder : Option Nat) (sh : σ)

/-- The steps that a thread can take. -/
inductive Service.Moves : Phase κ ω α → Moved κ σ ι ω α → Prop
  | call : Moves .idle ⟨.call x.thread x.request, .looking x.request, holder, sh⟩
  | hit (k : κ) (a : α) (sh' : σ) (h : S.look k sh = (some a, sh')) :
      Moves (.looking k) ⟨.deed x.thread (.look k), .answering k a, holder, sh'⟩
  | miss (k : κ) (sh' : σ) (h : S.look k sh = (none, sh')) :
      Moves (.looking k) ⟨.deed x.thread (.look k), .waiting k, holder, sh'⟩
  | acquire (k : κ) (h : holder = none) :
      Moves (.waiting k) ⟨.acquire x.thread, .relooking k, some x.thread, sh⟩
  | rehit (k : κ) (a : α) (sh' : σ) (h : S.look k sh = (some a, sh')) :
      Moves (.relooking k) ⟨.deed x.thread (.look k), .releasing k a, holder, sh'⟩
  | remiss (k : κ) (sh' : σ) (h : S.look k sh = (none, sh')) :
      Moves (.relooking k) ⟨.deed x.thread (.look k), .working k S.first, holder, sh'⟩
  | more (k : κ) (w w' : ω) (sh' : σ) (h : S.work k w x.supply sh = (.more w', sh')) :
      Moves (.working k w) ⟨.deed x.thread (.work k w x.supply), .working k w', holder, sh'⟩
  | done (k : κ) (w : ω) (a : α) (sh' : σ) (h : S.work k w x.supply sh = (.done a, sh')) :
      Moves (.working k w) ⟨.deed x.thread (.work k w x.supply), .releasing k a, holder, sh'⟩
  | release (k : κ) (a : α) :
      Moves (.releasing k a) ⟨.release x.thread, .answering k a, none, sh⟩
  | answer (k : κ) (a : α) : Moves (.answering k a) ⟨.answer x.thread k a, .idle, holder, sh⟩

theorem Service.moves_of_move (p : Phase κ ω α) (m : Moved κ σ ι ω α)
    (h : S.move x holder sh p = some m) : S.Moves x holder sh p m := by
  cases p with
  | idle =>
    obtain rfl := Option.some.inj h
    exact .call
  | looking k =>
    simp only [move] at h
    split at h
    · next a sh' hlook =>
      obtain rfl := Option.some.inj h
      exact .hit k a sh' hlook
    · next sh' hlook =>
      obtain rfl := Option.some.inj h
      exact .miss k sh' hlook
  | waiting k =>
    cases holder with
    | some t => cases h
    | none =>
      obtain rfl := Option.some.inj h
      exact .acquire k rfl
  | relooking k =>
    simp only [move] at h
    split at h
    · next a sh' hlook =>
      obtain rfl := Option.some.inj h
      exact .rehit k a sh' hlook
    · next sh' hlook =>
      obtain rfl := Option.some.inj h
      exact .remiss k sh' hlook
  | working k w =>
    simp only [move] at h
    split at h
    · next w' sh' hwork =>
      obtain rfl := Option.some.inj h
      exact .more k w w' sh' hwork
    · next a sh' hwork =>
      obtain rfl := Option.some.inj h
      exact .done k w a sh' hwork
  | releasing k a =>
    obtain rfl := Option.some.inj h
    exact .release k a
  | answering k a =>
    obtain rfl := Option.some.inj h
    exact .answer k a

end

/-! ## The lock -/

section

variable {S : Service κ σ ι ω α} {x : Turn κ ι} {holder : Option Nat} {sh : σ} {p : Phase κ ω α}
  {m : Moved κ σ ι ω α} (h : S.Moves x holder sh p m)
  (hlock : p.holds = true ↔ holder = some x.thread)

include h hlock

theorem Service.Moves.holder_self : m.phase.holds = true ↔ m.holder = some x.thread := by
  cases h with
  | acquire => exact ⟨fun _ => rfl, fun _ => rfl⟩
  | release => exact ⟨nofun, nofun⟩
  | call | hit | miss | rehit | remiss | more | done | answer => exact hlock

theorem Service.Moves.holder_other (t : Nat) (ht : t ≠ x.thread) :
    m.holder = some t ↔ holder = some t := by
  cases h with
  | acquire _ hfree =>
    rw [hfree]
    exact ⟨fun heq => absurd (Option.some.inj heq).symm ht, nofun⟩
  | release =>
    rw [hlock.mp rfl]
    exact ⟨nofun, fun heq => absurd (Option.some.inj heq).symm ht⟩
  | call | hit | miss | rehit | remiss | more | done | answer => exact Iff.rfl

end

section

variable {S : Service κ σ ι ω α} {x : Turn κ ι} {holder : Option Nat} {sh : σ} {p : Phase κ ω α}
  {m : Moved κ σ ι ω α} (h : S.Moves x holder sh p m)

include h

/-- No task is taken up without the lock. -/
theorem Service.Moves.task?_of_not_holds (hp : ¬p.holds = true) : m.phase.task? = none := by
  cases h with
  | rehit | remiss | more | done | release => exact absurd rfl hp
  | call | hit | miss | acquire | answer => rfl

/-- A thread that has an answer has found it in this step, or had it. -/
theorem Service.Moves.result?_of_some (k : κ) (a : α) (hm : m.phase.result? = some (k, a)) :
    p.result? = none ∨ p.result? = some (k, a) := by
  cases h with
  | hit | rehit | done => exact Or.inl rfl
  | release => exact Or.inr hm
  | call | miss | acquire | remiss | more | answer => cases hm

theorem Service.Moves.result_of_answer (t : Nat) (k : κ) (a : α)
    (hevent : m.event = .answer t k a) : t = x.thread ∧ p.result? = some (k, a) := by
  cases h with
  | answer => cases hevent; exact ⟨rfl, rfl⟩
  | call | hit | miss | acquire | rehit | remiss | more | done | release => cases hevent

end

/-! ## Turns -/

theorem filterMap_snoc {β γ : Type} (f : β → Option γ) (xs : List β) (x : β) :
    (xs ++ [x]).filterMap f = xs.filterMap f ++ (f x).toList := by
  rw [List.filterMap_append, List.filterMap_cons, List.filterMap_nil]
  cases f x <;> rfl

/-- Who has taken the lock holds it. -/
def System.Locked (s : System κ σ ι ω α) : Prop :=
  ∀ t, (s.phase t).holds = true ↔ s.holder = some t

theorem Service.turn_cases (S : Service κ σ ι ω α) (s : System κ σ ι ω α) (x : Turn κ ι) :
    S.turn s x = s ∨ ∃ m, S.Moves x s.holder s.shared (s.phase x.thread) m ∧
      S.turn s x = s.moved x.thread m := by
  unfold turn
  split
  · exact Or.inl rfl
  · next m hmove => exact Or.inr ⟨m, S.moves_of_move x _ _ _ m hmove, rfl⟩

section

variable (s : System κ σ ι ω α)

theorem System.deeds_moved (t : Nat) (m : Moved κ σ ι ω α) :
    (s.moved t m).deeds = s.deeds ++ m.event.deed?.toList :=
  filterMap_snoc Event.deed? s.log m.event

theorem System.phase_moved_self (t : Nat) (m : Moved κ σ ι ω α) :
    (s.moved t m).phase t = m.phase := if_pos rfl

theorem System.phase_moved_other (t u : Nat) (m : Moved κ σ ι ω α) (hu : u ≠ t) :
    (s.moved t m).phase u = s.phase u := if_neg hu

variable {s} {S : Service κ σ ι ω α} {x : Turn κ ι} {m : Moved κ σ ι ω α}
  (h : S.Moves x s.holder s.shared (s.phase x.thread) m) (hlock : s.Locked)

include hlock

theorem System.Locked.task?_of_holds (t : Nat) (ht : (s.phase t).holds = true) :
    s.task? = (s.phase t).task? := by
  unfold task?
  rw [(hlock t).mp ht]
  rfl

theorem System.Locked.task?_iff (task : κ × ω) :
    s.task? = some task ↔ ∃ t, (s.phase t).task? = some task := by
  constructor
  · intro h
    obtain ⟨t, -, ht⟩ := Option.bind_eq_some_iff.mp h
    exact ⟨t, ht⟩
  · rintro ⟨t, ht⟩
    rw [hlock.task?_of_holds t ((s.phase t).holds_of_task? task ht)]
    exact ht

include h

theorem System.Locked.moved : (s.moved x.thread m).Locked := by
  intro t
  by_cases ht : t = x.thread
  · rw [ht, s.phase_moved_self]
    exact h.holder_self (hlock x.thread)
  · rw [s.phase_moved_other x.thread t m ht, hlock t]
    exact (h.holder_other (hlock x.thread) t ht).symm

/-- The task under way is that of the thread, if it has the lock, and else stays as it was. -/
theorem System.Locked.task?_moved :
    (s.moved x.thread m).task? =
      if (s.phase x.thread).holds then m.phase.task? else s.task? := by
  have hmoved := hlock.moved h
  split
  · next hp =>
    -- no other thread has a task, since none has the lock
    apply Option.ext
    intro task
    rw [hmoved.task?_iff]
    constructor
    · rintro ⟨t, ht⟩
      by_cases hx : t = x.thread
      · rw [hx, s.phase_moved_self] at ht
        exact ht
      · rw [s.phase_moved_other x.thread t m hx] at ht
        have hholder := (hlock t).mp ((s.phase t).holds_of_task? task ht)
        rw [(hlock x.thread).mp hp] at hholder
        exact absurd (Option.some.inj hholder).symm hx
    · intro hm
      exact ⟨x.thread, by rw [s.phase_moved_self]; exact hm⟩
  · next hp =>
    -- the thread itself has no task, before the step and after it
    apply Option.ext
    intro task
    rw [hmoved.task?_iff, hlock.task?_iff]
    constructor
    · rintro ⟨t, ht⟩
      by_cases hx : t = x.thread
      · rw [hx, s.phase_moved_self, h.task?_of_not_holds hp] at ht
        cases ht
      · exact ⟨t, s.phase_moved_other x.thread t m hx ▸ ht⟩
    · rintro ⟨t, ht⟩
      have hx : t ≠ x.thread := by
        rintro rfl
        exact hp (Phase.holds_of_task? _ task ht)
      exact ⟨t, (s.phase_moved_other x.thread t m hx).symm ▸ ht⟩

end

/-! ## Answers -/

section

variable (S : Service κ σ ι ω α) (sh : σ)

theorem Service.after_append (before later : List (Turn κ ι)) :
    S.after sh (before ++ later) = later.foldl S.turn (S.after sh before) := List.foldl_append ..

theorem Service.after_snoc (turns : List (Turn κ ι)) (x : Turn κ ι) :
    S.after sh (turns ++ [x]) = S.turn (S.after sh turns) x := S.after_append sh turns [x]

/-- In this turn the thread comes to have the answer. -/
def Service.Obtains (before : List (Turn κ ι)) (x : Turn κ ι) (k : κ) (a : α) : Prop :=
  ((S.after sh before).phase x.thread).result? = none ∧
    ((S.after sh (before ++ [x])).phase x.thread).result? = some (k, a)

/-- In one of the turns the thread comes to have the answer. -/
def Service.Obtained (turns : List (Turn κ ι)) (t : Nat) (k : κ) (a : α) : Prop :=
  ∃ before x later, turns = before ++ x :: later ∧ x.thread = t ∧ S.Obtains sh before x k a

variable {S} {sh}

theorem Service.Obtained.snoc {turns : List (Turn κ ι)} {t : Nat} {k : κ} {a : α}
    (h : S.Obtained sh turns t k a) (x : Turn κ ι) : S.Obtained sh (turns ++ [x]) t k a := by
  obtain ⟨before, y, later, rfl, ht, hy⟩ := h
  exact ⟨before, y, later ++ [x], by simp, ht, hy⟩

/-- What a thread has to answer, and what was answered, has been obtained. -/
theorem Service.obtained_after (turns : List (Turn κ ι)) :
    (∀ t k a, ((S.after sh turns).phase t).result? = some (k, a) → S.Obtained sh turns t k a) ∧
      ∀ t k a, .answer t k a ∈ (S.after sh turns).log → S.Obtained sh turns t k a := by
  induction turns using List.reverseRecOn with
  | nil => exact ⟨fun t k a h => (nomatch h), fun t k a h => (nomatch h)⟩
  | append_singleton turns x ih =>
    obtain ⟨hresult, hanswer⟩ := ih
    have hnew := S.after_snoc sh turns x
    rcases S.turn_cases (S.after sh turns) x with hsame | ⟨m, hm, hturn⟩
    · rw [hnew, hsame]
      exact ⟨fun t k a h => (hresult t k a h).snoc x, fun t k a h => (hanswer t k a h).snoc x⟩
    · rw [hnew, hturn]
      constructor
      · intro t k a h
        by_cases ht : t = x.thread
        · subst ht
          rw [System.phase_moved_self] at h
          rcases hm.result?_of_some k a h with hfresh | hold
          · refine ⟨turns, x, [], rfl, rfl, hfresh, ?_⟩
            rw [hnew, hturn, System.phase_moved_self]
            exact h
          · exact (hresult x.thread k a hold).snoc x
        · rw [System.phase_moved_other _ _ _ _ ht] at h
          exact (hresult t k a h).snoc x
      · intro t k a h
        rcases List.mem_append.mp h with hold | hevent
        · exact (hanswer t k a hold).snoc x
        · obtain ⟨rfl, hold⟩ := hm.result_of_answer t k a (List.mem_singleton.mp hevent).symm
          exact (hresult x.thread k a hold).snoc x

end

/-! ## One thread alone -/

/-- The thread, the lock and what is shared stand like this. -/
structure System.At (s : System κ σ ι ω α) (t : Nat) (p : Phase κ ω α) (holder : Option Nat)
    (sh : σ) : Prop where
  phase : s.phase t = p
  holder : s.holder = holder
  shared : s.shared = sh

section

variable {S : Service κ σ ι ω α} {s : System κ σ ι ω α} {x : Turn κ ι} {p : Phase κ ω α}
  {holder : Option Nat} {sh : σ} {m : Moved κ σ ι ω α} (h : s.At x.thread p holder sh)
  (hmove : S.move x holder sh p = some m)

include h hmove

theorem System.At.turn_eq : S.turn s x = s.moved x.thread m := by
  obtain ⟨rfl, rfl, rfl⟩ := h
  unfold Service.turn
  rw [hmove]

theorem System.At.turn : (S.turn s x).At x.thread m.phase m.holder m.shared := by
  rw [h.turn_eq hmove]
  exact ⟨s.phase_moved_self x.thread m, rfl, rfl⟩

theorem System.At.event : m.event ∈ (S.turn s x).log := by
  rw [h.turn_eq hmove]
  exact List.mem_append_right _ (List.mem_singleton_self m.event)

end

/-- The system after some turns of one thread. -/
def Service.alone (S : Service κ σ ι ω α) (x : Turn κ ι) (n : Nat) (s : System κ σ ι ω α) :
    System κ σ ι ω α :=
  (List.replicate n x).foldl S.turn s

theorem Service.alone_add (S : Service κ σ ι ω α) (x : Turn κ ι) (m n : Nat)
    (s : System κ σ ι ω α) : S.alone x (m + n) s = S.alone x n (S.alone x m s) := by
  unfold alone
  rw [← List.replicate_append_replicate, List.foldl_append]

section

variable (S : Service κ σ ι ω α) (k : κ) (i : ι) (a : α) (sh' : σ)

/-- The work, taken up here and left to itself, comes to this answer. -/
inductive Service.Completes : ω → σ → Prop
  | done (w : ω) (sh : σ) (h : S.work k w i sh = (.done a, sh')) : Completes w sh
  | more (w w' : ω) (sh sh₁ : σ) (h : S.work k w i sh = (.more w', sh₁))
      (hrest : Completes w' sh₁) : Completes w sh

/-- The request, left to itself, comes to this answer. -/
inductive Service.Serves : σ → Prop
  | hit (sh : σ) (h : S.look k sh = (some a, sh')) : Serves sh
  | worked (sh sh₁ sh₂ : σ) (h : S.look k sh = (none, sh₁)) (h' : S.look k sh₁ = (none, sh₂))
      (hwork : S.Completes k i a sh' S.first sh₂) : Serves sh

end

section

variable {S : Service κ σ ι ω α} {x : Turn κ ι} {a : α} {sh sh' : σ}

theorem System.At.completed {w : ω} {holder : Option Nat}
    (hwork : S.Completes x.request x.supply a sh' w sh) :
    ∀ s : System κ σ ι ω α, s.At x.thread (.working x.request w) holder sh →
      ∃ n, (S.alone x n s).At x.thread (.releasing x.request a) holder sh' := by
  induction hwork with
  | done w sh hdone =>
    intro s h
    have hmove : S.move x holder sh (.working x.request w) =
        some ⟨.deed x.thread (.work x.request w x.supply), .releasing x.request a, holder,
          sh'⟩ := by
      simp only [Service.move, hdone]
    exact ⟨1, h.turn hmove⟩
  | more w w' sh sh₁ hmore hrest ih =>
    intro s h
    have hmove : S.move x holder sh (.working x.request w) =
        some ⟨.deed x.thread (.work x.request w x.supply), .working x.request w', holder, sh₁⟩ := by
      simp only [Service.move, hmore]
    obtain ⟨n, hn⟩ := ih _ (h.turn hmove)
    exact ⟨n + 1, hn⟩

/-- A thread that is alone gets the answer. -/
theorem System.At.served {s : System κ σ ι ω α} (h : s.At x.thread .idle none sh)
    (hserves : S.Serves x.request x.supply a sh' sh) :
    ∃ n, (S.alone x n s).At x.thread .idle none sh' ∧
      .answer x.thread x.request a ∈ (S.alone x n s).log := by
  have hcalled := h.turn (S := S) rfl
  cases hserves with
  | hit hlook =>
    have hmove : S.move x none sh (.looking x.request) =
        some ⟨.deed x.thread (.look x.request), .answering x.request a, none, sh'⟩ := by
      simp only [Service.move, hlook]
    have hlooked := hcalled.turn hmove
    exact ⟨3, hlooked.turn rfl, hlooked.event rfl⟩
  | worked sh₁ sh₂ hlook hrelook hwork =>
    have hmiss : S.move x none sh (.looking x.request) =
        some ⟨.deed x.thread (.look x.request), .waiting x.request, none, sh₁⟩ := by
      simp only [Service.move, hlook]
    have hremiss : S.move x (some x.thread) sh₁ (.relooking x.request) =
        some ⟨.deed x.thread (.look x.request), .working x.request S.first, some x.thread,
          sh₂⟩ := by
      simp only [Service.move, hrelook]
    have hlooked := hcalled.turn hmiss
    have hacquired := hlooked.turn (S := S) rfl
    obtain ⟨n, hdone⟩ := System.At.completed hwork _ (hacquired.turn hremiss)
    have hreleased := hdone.turn (S := S) rfl
    refine ⟨4 + (n + 2), ?_⟩
    rw [S.alone_add, S.alone_add]
    exact ⟨hreleased.turn rfl, hreleased.event rfl⟩

end

/-! ## Properties that are kept -/

/-- Every look and every step of work keep a property of what was done, of what is shared and of
the task under way, and one of answers. -/
structure Service.Keeps (S : Service κ σ ι ω α)
    (Core : List (Deed κ ι ω) → σ → Option (κ × ω) → Prop)
    (Good : List (Deed κ ι ω) → σ → κ → α → Prop) : Prop where
  look : ∀ ds sh task k found sh', Core ds sh task → S.look k sh = (found, sh') →
    Core (ds ++ [.look k]) sh' task
  hit : ∀ ds sh task k a sh', Core ds sh task → S.look k sh = (some a, sh') →
    Good (ds ++ [.look k]) sh' k a
  miss : ∀ ds sh k sh', Core ds sh none → S.look k sh = (none, sh') →
    Core (ds ++ [.look k]) sh' (some (k, S.first))
  more : ∀ ds sh k w i w' sh', Core ds sh (some (k, w)) → S.work k w i sh = (.more w', sh') →
    Core (ds ++ [.work k w i]) sh' (some (k, w'))
  done : ∀ ds sh k w i a sh', Core ds sh (some (k, w)) → S.work k w i sh = (.done a, sh') →
    Core (ds ++ [.work k w i]) sh' none ∧ Good (ds ++ [.work k w i]) sh' k a
  good_look : ∀ ds sh task k a k' found sh', Core ds sh task → Good ds sh k a →
    S.look k' sh = (found, sh') → Good (ds ++ [.look k']) sh' k a
  good_work : ∀ ds sh k a k' w i progress sh', Core ds sh (some (k', w)) → Good ds sh k a →
    S.work k' w i sh = (progress, sh') → Good (ds ++ [.work k' w i]) sh' k a

/-- The properties hold, and the lock is held by the thread that has taken it. -/
structure System.Upheld (Core : List (Deed κ ι ω) → σ → Option (κ × ω) → Prop)
    (Good : List (Deed κ ι ω) → σ → κ → α → Prop) (s : System κ σ ι ω α) : Prop where
  locked : s.Locked
  core : Core s.deeds s.shared s.task?
  found : ∀ t k a, (s.phase t).result? = some (k, a) → Good s.deeds s.shared k a
  answered : ∀ t k a, .answer t k a ∈ s.log → Good s.deeds s.shared k a

section

variable {Core : List (Deed κ ι ω) → σ → Option (κ × ω) → Prop}
  {Good : List (Deed κ ι ω) → σ → κ → α → Prop} {S : Service κ σ ι ω α} (hS : S.Keeps Core Good)

include hS

section

variable {x : Turn κ ι} {holder : Option Nat} {sh : σ} {p : Phase κ ω α} {m : Moved κ σ ι ω α}
  {ds : List (Deed κ ι ω)} {task : Option (κ × ω)} (h : S.Moves x holder sh p m)
  (hcore : Core ds sh task) (htask : p.holds = true → task = p.task?)

include h hcore htask

theorem Service.Keeps.core_move :
    Core (ds ++ m.event.deed?.toList) m.shared (if p.holds then m.phase.task? else task) := by
  cases h with
  | call | acquire | answer => simpa [Event.deed?, Phase.holds] using hcore
  | release =>
    obtain rfl := htask rfl
    simpa [Event.deed?, Phase.holds, Phase.task?] using hcore
  | hit k a sh' hlook => exact hS.look ds sh task k (some a) sh' hcore hlook
  | miss k sh' hlook => exact hS.look ds sh task k none sh' hcore hlook
  | rehit k a sh' hlook =>
    obtain rfl := htask rfl
    exact hS.look ds sh none k (some a) sh' hcore hlook
  | remiss k sh' hlook =>
    obtain rfl := htask rfl
    exact hS.miss ds sh k sh' hcore hlook
  | more k w w' sh' hwork =>
    obtain rfl := htask rfl
    exact hS.more ds sh k w x.supply w' sh' hcore hwork
  | done k w a sh' hwork =>
    obtain rfl := htask rfl
    exact (hS.done ds sh k w x.supply a sh' hcore hwork).1

theorem Service.Keeps.good_move (k : κ) (a : α) (hgood : Good ds sh k a) :
    Good (ds ++ m.event.deed?.toList) m.shared k a := by
  cases h with
  | call | acquire | release | answer => simpa [Event.deed?] using hgood
  | hit k' a' sh' hlook | rehit k' a' sh' hlook =>
    exact hS.good_look ds sh task k a k' (some a') sh' hcore hgood hlook
  | miss k' sh' hlook | remiss k' sh' hlook =>
    exact hS.good_look ds sh task k a k' none sh' hcore hgood hlook
  | more k' w w' sh' hwork =>
    obtain rfl := htask rfl
    exact hS.good_work ds sh k a k' w x.supply (.more w') sh' hcore hgood hwork
  | done k' w a' sh' hwork =>
    obtain rfl := htask rfl
    exact hS.good_work ds sh k a k' w x.supply (.done a') sh' hcore hgood hwork

/-- An answer that a thread comes to have is good. -/
theorem Service.Keeps.found_move (k : κ) (a : α)
    (hfound : p.result? = some (k, a) → Good ds sh k a) (hm : m.phase.result? = some (k, a)) :
    Good (ds ++ m.event.deed?.toList) m.shared k a := by
  cases h with
  | call | miss | acquire | remiss | more | answer => cases hm
  | release k' a' => simpa [Event.deed?] using hfound hm
  | hit k' a' sh' hlook =>
    obtain ⟨rfl, rfl⟩ := Prod.mk.inj (Option.some.inj hm)
    exact hS.hit ds sh task k' a' sh' hcore hlook
  | rehit k' a' sh' hlook =>
    obtain ⟨rfl, rfl⟩ := Prod.mk.inj (Option.some.inj hm)
    exact hS.hit ds sh task k' a' sh' hcore hlook
  | done k' w a' sh' hwork =>
    obtain ⟨rfl, rfl⟩ := Prod.mk.inj (Option.some.inj hm)
    obtain rfl := htask rfl
    exact (hS.done ds sh k' w x.supply a' sh' hcore hwork).2

end

theorem Service.Keeps.upheld_turn (s : System κ σ ι ω α) (x : Turn κ ι)
    (h : System.Upheld Core Good s) : System.Upheld Core Good (S.turn s x) := by
  rcases S.turn_cases s x with hsame | ⟨m, hm, hturn⟩
  · rw [hsame]
    exact h
  rw [hturn]
  have htask := h.locked.task?_of_holds x.thread
  have hgood : ∀ k a, Good s.deeds s.shared k a →
      Good (s.moved x.thread m).deeds m.shared k a := by
    intro k a hold
    rw [s.deeds_moved]
    exact hS.good_move hm h.core htask k a hold
  constructor
  · exact h.locked.moved hm
  · rw [s.deeds_moved, h.locked.task?_moved hm]
    exact hS.core_move hm h.core htask
  · intro t k a hfound
    by_cases ht : t = x.thread
    · rw [ht, s.phase_moved_self] at hfound
      rw [s.deeds_moved]
      exact hS.found_move hm h.core htask k a (h.found x.thread k a) hfound
    · rw [s.phase_moved_other x.thread t m ht] at hfound
      exact hgood k a (h.found t k a hfound)
  · intro t k a hanswer
    rcases List.mem_append.mp hanswer with hold | hnew
    · exact hgood k a (h.answered t k a hold)
    · obtain ⟨-, hresult⟩ := hm.result_of_answer t k a (List.mem_singleton.mp hnew).symm
      exact hgood k a (h.found x.thread k a hresult)

/-- The properties hold after all turns, in every order. -/
theorem Service.Keeps.upheld_after (sh : σ) (hsh : Core [] sh none) (turns : List (Turn κ ι)) :
    System.Upheld Core Good (S.after sh turns) := by
  induction turns using List.reverseRecOn with
  | nil =>
    constructor
    · exact fun t => ⟨nofun, nofun⟩
    · exact hsh
    · exact fun t k a hfound => nomatch hfound
    · exact fun t k a hanswer => nomatch hanswer
  | append_singleton turns x ih =>
    rw [S.after_snoc]
    exact hS.upheld_turn _ x ih

end

/-! ## What one moment is to a later one -/

/-- Every look and every step of work extends the relation. -/
structure Service.Extends (S : Service κ σ ι ω α)
    (Core : List (Deed κ ι ω) → σ → Option (κ × ω) → Prop) (R : σ → σ → Prop) : Prop where
  refl : ∀ sh, R sh sh
  trans : ∀ sh₁ sh₂ sh₃, R sh₁ sh₂ → R sh₂ sh₃ → R sh₁ sh₃
  look : ∀ ds sh task k found sh', Core ds sh task → S.look k sh = (found, sh') → R sh sh'
  work : ∀ ds sh k w i progress sh', Core ds sh (some (k, w)) → S.work k w i sh = (progress, sh') →
    R sh sh'

section

variable {Core : List (Deed κ ι ω) → σ → Option (κ × ω) → Prop}
  {Good : List (Deed κ ι ω) → σ → κ → α → Prop} {R : σ → σ → Prop} {S : Service κ σ ι ω α}

theorem Service.Extends.move (hR : S.Extends Core R) {x : Turn κ ι} {holder : Option Nat} {sh : σ}
    {p : Phase κ ω α} {m : Moved κ σ ι ω α} (h : S.Moves x holder sh p m) (ds : List (Deed κ ι ω))
    (task : Option (κ × ω)) (hcore : Core ds sh task) (htask : p.holds = true → task = p.task?) :
    R sh m.shared := by
  cases h with
  | call | acquire | release | answer => exact hR.refl sh
  | hit k _ sh' hlook | miss k sh' hlook | rehit k _ sh' hlook | remiss k sh' hlook =>
    exact hR.look ds sh task k _ sh' hcore hlook
  | more k w _ sh' hwork | done k w _ sh' hwork =>
    obtain rfl := htask rfl
    exact hR.work ds sh k w x.supply _ sh' hcore hwork

/-- The relation holds between what is shared after some turns and after more of them. -/
theorem Service.Extends.after (hR : S.Extends Core R) (hS : S.Keeps Core Good) (sh : σ)
    (hsh : Core [] sh none) (before later : List (Turn κ ι)) :
    R (S.after sh before).shared (S.after sh (before ++ later)).shared := by
  induction later using List.reverseRecOn with
  | nil =>
    rw [List.append_nil]
    exact hR.refl _
  | append_singleton later x ih =>
    rw [← List.append_assoc, S.after_snoc]
    have hupheld := hS.upheld_after sh hsh (before ++ later)
    apply hR.trans _ _ _ ih
    rcases S.turn_cases (S.after sh (before ++ later)) x with hsame | ⟨m, hm, hturn⟩
    · rw [hsame]
      exact hR.refl _
    · rw [hturn]
      exact hR.move hm _ _ hupheld.core (hupheld.locked.task?_of_holds x.thread)

end

/-! ## One call of a thread -/

/-- Who takes the step. -/
def Event.thread : Event κ ι ω α → Nat
  | .call t _ | .deed t _ | .acquire t | .release t | .answer t .. => t

/-- What a thread has done in the course of its call, after one more event of it. -/
def Event.ofCall (ds : List (Deed κ ι ω)) : Event κ ι ω α → List (Deed κ ι ω)
  | .call .. => []
  | .deed _ d => ds ++ [d]
  | .acquire _ | .release _ | .answer .. => ds

/-- What a thread has done to what is shared since it called last. -/
def System.deedsOfCall (s : System κ σ ι ω α) (t : Nat) : List (Deed κ ι ω) :=
  (s.log.filter fun e => e.thread == t).foldl Event.ofCall []

theorem Service.Moves.thread_event {S : Service κ σ ι ω α} {x : Turn κ ι} {holder : Option Nat}
    {sh : σ} {p : Phase κ ω α} {m : Moved κ σ ι ω α} (h : S.Moves x holder sh p m) :
    m.event.thread = x.thread := by
  cases h <;> rfl

theorem System.deedsOfCall_moved (s : System κ σ ι ω α) (t u : Nat) (m : Moved κ σ ι ω α) :
    (s.moved t m).deedsOfCall u =
      if m.event.thread = u then m.event.ofCall (s.deedsOfCall u) else s.deedsOfCall u := by
  unfold deedsOfCall
  show ((s.log ++ [m.event]).filter _).foldl _ _ = _
  by_cases h : m.event.thread = u
  · simp [h, List.filter_append]
  · simp [h, List.filter_append]

/-- What a thread's own steps keep of its call, holds of every call. -/
theorem Service.calls_after (S : Service κ σ ι ω α)
    (P : List (Deed κ ι ω) → Phase κ ω α → Prop) (hidle : P [] .idle)
    (hmoves : ∀ x holder sh p m ds, S.Moves x holder sh p m → P ds p →
      P (m.event.ofCall ds) m.phase) (sh : σ) (turns : List (Turn κ ι)) (t : Nat) :
    P ((S.after sh turns).deedsOfCall t) ((S.after sh turns).phase t) := by
  induction turns using List.reverseRecOn with
  | nil => exact hidle
  | append_singleton turns x ih =>
    rw [S.after_snoc]
    rcases S.turn_cases (S.after sh turns) x with hsame | ⟨m, hm, hturn⟩
    · rw [hsame]
      exact ih
    · rw [hturn]
      rw [System.deedsOfCall_moved, hm.thread_event]
      by_cases ht : t = x.thread
      · subst ht
        rw [if_pos rfl, System.phase_moved_self]
        exact hmoves x _ _ _ m _ hm ih
      · rw [if_neg (Ne.symm ht), System.phase_moved_other _ _ _ _ ht]
        exact ih

end NumberPlan
