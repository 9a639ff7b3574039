/-!
# Threads at a guarded service

A service looks a request up in what the threads share; what is not there is worked out
under a lock, after a second look.  Each turn of a thread is one atomic step:

    call, look, acquire, look again, work, ..., work, release, answer

    S.after sh turns     the threads, what they share, and the log, after these turns

Turns come in any order.  A thread that wants the lock while it is held does nothing.
-/

namespace NumberPlan

/-- What a step of work comes to: more work, or an answer. -/
inductive Progress (ω α : Type) where
  | more (w : ω)
  | done (a : α)
  deriving DecidableEq, Repr

/-- Requests `κ` to what is shared `σ`, the work `ω` on them, supplied with `ι`, and the
answers `α`. -/
structure Service (κ σ ι ω α : Type) where
  /-- the answer that is there, and what is shared after the look -/
  look : κ → σ → Option α × σ
  first : ω
  work : κ → ω → ι → σ → Progress ω α × σ

/-- Where a thread stands. -/
inductive Phase (κ ω α : Type) where
  | idle
  | looking (k : κ)
  | waiting (k : κ)
  | relooking (k : κ)
  | working (k : κ) (w : ω)
  | releasing (k : κ) (a : α)
  | answering (k : κ) (a : α)
  deriving DecidableEq, Repr

/-- What is done to what is shared. -/
inductive Deed (κ ι ω : Type) where
  | look (k : κ)
  | work (k : κ) (w : ω) (supply : ι)
  deriving DecidableEq, Repr

/-- What a thread does in a turn. -/
inductive Event (κ ι ω α : Type) where
  | call (thread : Nat) (k : κ)
  | deed (thread : Nat) (d : Deed κ ι ω)
  | acquire (thread : Nat)
  | release (thread : Nat)
  | answer (thread : Nat) (k : κ) (a : α)
  deriving DecidableEq, Repr

/-- What is done to what is shared, if anything. -/
def Event.deed? {κ ι ω α : Type} : Event κ ι ω α → Option (Deed κ ι ω)
  | .deed _ d => some d
  | _ => none

/-- The threads by number, who holds the lock, and what was done so far. -/
structure System (κ σ ι ω α : Type) where
  shared : σ
  holder : Option Nat
  phase : Nat → Phase κ ω α
  log : List (Event κ ι ω α)

/-- What was done to what is shared, in order. -/
def System.deeds {κ σ ι ω α : Type} (s : System κ σ ι ω α) : List (Deed κ ι ω) :=
  s.log.filterMap Event.deed?

/-- A thread's turn: what it calls for if it is idle, and what its work is supplied with. -/
structure Turn (κ ι : Type) where
  thread : Nat
  request : κ
  supply : ι
  deriving DecidableEq, Repr

/-- What a turn makes of a thread's phase, of the lock and of what is shared. -/
structure Moved (κ σ ι ω α : Type) where
  event : Event κ ι ω α
  phase : Phase κ ω α
  holder : Option Nat
  shared : σ

/-- The system after a step of a thread. -/
def System.moved {κ σ ι ω α : Type} (s : System κ σ ι ω α) (thread : Nat)
    (m : Moved κ σ ι ω α) : System κ σ ι ω α :=
  ⟨m.shared, m.holder, fun t => if t = thread then m.phase else s.phase t, s.log ++ [m.event]⟩

namespace Service

variable {κ σ ι ω α : Type}

/-- A thread's next step; none if it has to wait. -/
def move (S : Service κ σ ι ω α) (x : Turn κ ι) (holder : Option Nat) (sh : σ) :
    Phase κ ω α → Option (Moved κ σ ι ω α)
  | .idle => some ⟨.call x.thread x.request, .looking x.request, holder, sh⟩
  | .looking k =>
    match S.look k sh with
    | (some a, sh') => some ⟨.deed x.thread (.look k), .answering k a, holder, sh'⟩
    | (none, sh') => some ⟨.deed x.thread (.look k), .waiting k, holder, sh'⟩
  | .waiting k =>
    match holder with
    | some _ => none
    | none => some ⟨.acquire x.thread, .relooking k, some x.thread, sh⟩
  | .relooking k =>
    match S.look k sh with
    | (some a, sh') => some ⟨.deed x.thread (.look k), .releasing k a, holder, sh'⟩
    | (none, sh') => some ⟨.deed x.thread (.look k), .working k S.first, holder, sh'⟩
  | .working k w =>
    match S.work k w x.supply sh with
    | (.more w', sh') => some ⟨.deed x.thread (.work k w x.supply), .working k w', holder, sh'⟩
    | (.done a, sh') => some ⟨.deed x.thread (.work k w x.supply), .releasing k a, holder, sh'⟩
  | .releasing k a => some ⟨.release x.thread, .answering k a, none, sh⟩
  | .answering k a => some ⟨.answer x.thread k a, .idle, holder, sh⟩

/-- The system after a turn. -/
def turn (S : Service κ σ ι ω α) (s : System κ σ ι ω α) (x : Turn κ ι) : System κ σ ι ω α :=
  match S.move x s.holder s.shared (s.phase x.thread) with
  | none => s
  | some m => s.moved x.thread m

/-- The system after turns, when all threads were idle. -/
def after (S : Service κ σ ι ω α) (sh : σ) (turns : List (Turn κ ι)) : System κ σ ι ω α :=
  turns.foldl S.turn ⟨sh, none, fun _ => .idle, []⟩

end Service

end NumberPlan
