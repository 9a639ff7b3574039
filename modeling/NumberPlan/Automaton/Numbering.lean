import NumberPlan.Automaton.Merge

/-!
# Canonical numbering

States are numbered in the order of a topological traversal: a state is listed
once all states that lead to it are, first come first served, and edges are
followed by ascending digit.  The start has number 0, the accepting state without
edges has number 1, and the others follow from 2 in the order of the traversal.

    automatonOf alternatives   the minimal automaton, canonically numbered
    m.layoutOrder              its states with every edge leading to a later one
-/

namespace NumberPlan

namespace Automaton

/-- The number of the start. -/
def initial : Nat := 0

/-- The number of the accepting state without edges. -/
def terminal : Nat := 1

/-! ## Traversal -/

/-- Lists the states of `queue` and those that become ready after them; `visited` are the states
listed before, latest first.  `fuel` bounds the number of states. -/
def traverse (targets sources : Array (List Nat)) :
    (fuel : Nat) → (queue visited : List Nat) → List Nat
  | fuel + 1, s :: queue, visited =>
    let visited := s :: visited
    let ready := (targets.getD s []).filter fun t => (sources.getD t []).all visited.contains
    traverse targets sources fuel (queue ++ ready) visited
  | _, _, visited => visited.reverse

/-- The states in topological order from the start. -/
def topologicalOrder (m : Automaton) : List Nat :=
  let targets := m.targetTable
  let sources := (Array.range m.size).map (sourcesIn targets)
  traverse targets sources m.size [m.start] []

/-! ## Numbering -/

/-- The states in the order of their new numbers. -/
def canonicalOrder (m : Automaton) : List Nat :=
  let rest := m.topologicalOrder.filter (· != m.start)
  m.start :: (rest.filter fun s => (m.state s).isSink) ++ rest.filter fun s => !(m.state s).isSink

/-- The states in the given order, with their edges renumbered. -/
def renumber (m : Automaton) (order : List Nat) : Automaton :=
  ⟨(order.map fun s =>
      let st := m.state s
      ⟨st.accepting, st.edges.map fun t => t.map order.idxOf⟩).toArray, initial⟩

/-- The same automaton with canonical numbers. -/
def canonical (m : Automaton) : Automaton := m.renumber m.canonicalOrder

/-- The states with the terminal one moved last, which puts every state before those it leads
to. -/
def layoutOrder (m : Automaton) : List Nat :=
  if m.size = 1 then [initial]
  else initial :: ((List.range m.size).drop 2) ++ [terminal]

end Automaton

/-- The automaton of a list of alternatives. -/
def automatonOf (alternatives : List (List Slot)) : Automaton :=
  (merge (tapeOf alternatives) (reachable alternatives)).canonical

end NumberPlan
