import NumberPlan.DigitSet

/-!
# Digit automata

An automaton is a list of states addressed by number; a state says whether it
accepts and where each digit leads.

    m.accepts s w   reading w from state s ends in an accepting state

Edges of a state are grouped by target, in the order of the lowest digit that
leads there.
-/

namespace NumberPlan

/-- A state: whether it accepts, and the number of the next state for each digit. -/
structure State where
  accepting : Bool
  edges : Vector (Option Nat) 10
  deriving DecidableEq, Repr

namespace State

/-- Where digit `d` leads. -/
def next (s : State) (d : Digit) : Option Nat := s.edges[d.val]

/-- Where the edges lead, each target once, by ascending lowest digit. -/
def targets (s : State) : List Nat := (Digit.all.filterMap s.next).eraseDups

/-- The digits that lead to `t`. -/
def digitsTo (s : State) (t : Nat) : DigitSet := DigitSet.ofPred fun d => s.next d == some t

/-- The edges by target. -/
def groups (s : State) : List (DigitSet × Nat) := s.targets.map fun t => (s.digitsTo t, t)

/-- No digit leads anywhere. -/
def isSink (s : State) : Bool := s.targets.isEmpty

/-- An accepting state without edges. -/
def sink : State := ⟨true, Vector.replicate 10 none⟩

end State

/-- States by number, and the number of the first. -/
structure Automaton where
  states : Array State
  start : Nat
  deriving DecidableEq, Repr

namespace Automaton

/-- The state with a number; numbers out of range have the sink. -/
def state (m : Automaton) (s : Nat) : State := m.states.getD s State.sink

def size (m : Automaton) : Nat := m.states.size

/-- Reading `w` from state `s` ends in an accepting state. -/
def accepts (m : Automaton) (s : Nat) : List Digit → Bool
  | [] => (m.state s).accepting
  | d :: w =>
    match (m.state s).next d with
    | none => false
    | some t => m.accepts t w

/-- Where the edges of each state lead. -/
def targetTable (m : Automaton) : Array (List Nat) := m.states.map State.targets

/-- The states with an edge to `t`. -/
def sourcesIn (table : Array (List Nat)) (t : Nat) : List Nat :=
  (List.range table.size).filter fun s => (table.getD s []).contains t

/-- How many states have an edge to each state. -/
def inDegrees (m : Automaton) : Array Nat :=
  let table := m.targetTable
  (Array.range m.size).map fun t => (sourcesIn table t).length

end Automaton

end NumberPlan
