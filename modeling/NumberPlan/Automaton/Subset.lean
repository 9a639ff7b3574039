import NumberPlan.Pattern.Basic
import NumberPlan.Automaton.Basic

/-!
# Determinising slot lists

The slots of all alternatives are laid end to end on a tape, each alternative
followed by a stop.  A place on the tape stands for the words that can be read
from it up to the next stop; a state of the automaton is an ascending list of
places, and stands for the words of any of them.

    TapeSpells (tape.drop i) w          w can be read from place i
    reachable tape                      all states, a state before those it leads to

A digit moves every place forward, so the first place of a state is below the
first place of each state after it.  `reachable` follows that order.
-/

namespace NumberPlan

/-! ## The tape -/

/-- A slot, or the end of an alternative. -/
inductive Cell where
  | slot (s : Slot)
  | stop
  deriving DecidableEq, Repr

abbrev Tape := List Cell

/-- Every alternative's slots, each followed by a stop. -/
def tapeOf (alternatives : List (List Slot)) : Tape :=
  alternatives.flatMap fun a => a.map Cell.slot ++ [Cell.stop]

/-- Where each alternative begins, the first of them at `place`. -/
def beginnings (place : Nat) : List (List Slot) → List Nat
  | [] => []
  | a :: as => place :: beginnings (place + a.length + 1) as

/-- `w` can be read from the head of the tape up to a stop. -/
def TapeSpells : Tape → List Digit → Prop
  | [], _ => False
  | .stop :: _, w => w = []
  | .slot s :: r, w =>
    (s.optional = true ∧ TapeSpells r w) ∨ ∃ d v, w = d :: v ∧ s.digits.mem d = true ∧ TapeSpells r v

/-! ## States -/

/-- Only optional slots stand before the next stop. -/
def canStop : Tape → Bool
  | [] => false
  | .stop :: _ => true
  | .slot s :: r => s.optional && canStop r

/-- The places that digit `d` leads to, by one sweep over the tape, whose head is at `place`.
`places` are the places of the state from here on, ascending; `carried` says that the head is
also reached by skipping. -/
def sweep (d : Digit) (place : Nat) (places : List Nat) (carried : Bool) : Tape → List Nat
  | [] => []
  | c :: r =>
    let begins := places.head? == some place
    let rest := if begins then places.tail else places
    let here := carried || begins
    if !here && rest.isEmpty then []
    else
      match c with
      | .stop => sweep d (place + 1) rest false r
      | .slot s =>
        let later := sweep d (place + 1) rest (here && s.optional) r
        if here && s.digits.mem d then (place + 1) :: later else later

/-- Whether some place may stop. -/
def placesAccept (tape : Tape) (places : List Nat) : Bool :=
  places.any fun i => canStop (tape.drop i)

/-- The state after each digit, ascending by digit; no place is left where there is no edge. -/
def successors (tape : Tape) (places : List Nat) : List (List Nat) :=
  let first := places.headD 0
  let tail := tape.drop first
  Digit.all.map fun d => sweep d first places false tail

/-! ## Exploration -/

/-- The states whose first place is `first` or one of the `rounds` places after it, found from
the `pending` states. -/
def explore (tape : Tape) : (rounds first : Nat) → (pending : List (List Nat)) → List (List Nat)
  | 0, _, _ => []
  | rounds + 1, first, pending =>
    let here := (pending.filter fun s => s.head? == some first).eraseDups
    let later := pending.filter fun s => s.head? != some first
    let found := (here.flatMap (successors tape)).filter fun s => !s.isEmpty
    here ++ explore tape rounds (first + 1) (found.eraseDups ++ later)

/-- All states that can be reached from the beginnings of the alternatives. -/
def reachable (alternatives : List (List Slot)) : List (List Nat) :=
  let tape := tapeOf alternatives
  explore tape tape.length 0 [beginnings 0 alternatives]

end NumberPlan
