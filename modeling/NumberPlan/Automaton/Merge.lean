import NumberPlan.Automaton.Subset

/-!
# Merging states with the same future

States are visited after all states they lead to.  Each gets a class: that of an
earlier state with the same acceptance and the same classes after every digit, or
a new one.

    merge tape sets   the classes of sets, as an automaton

Two states share a class exactly if the same words lead from them to acceptance,
so the automaton has no two states with one future.
-/

namespace NumberPlan

/-- What merging has found: the class of each state visited, and the state each class stands
for, both latest first. -/
structure Merging where
  classOf : List (List Nat × Nat)
  classes : List (State × Nat)
  deriving Repr

namespace Merging

def empty : Merging := ⟨[], []⟩

/-- The state for a list of places, its edges leading to classes. -/
def view (g : Merging) (tape : Tape) (places : List Nat) : State :=
  let next := (successors tape places).map fun s => if s.isEmpty then none else g.classOf.lookup s
  ⟨placesAccept tape places, Vector.ofFn fun d => (next[d.val]?).join⟩

/-- Gives a list of places its class. -/
def visit (tape : Tape) (places : List Nat) (g : Merging) : Merging :=
  let s := g.view tape places
  match g.classes.lookup s with
  | some c => ⟨(places, c) :: g.classOf, g.classes⟩
  | none =>
    let c := g.classes.length
    ⟨(places, c) :: g.classOf, (s, c) :: g.classes⟩

end Merging

/-- The automaton of the classes of `sets`, which are ordered as `reachable` orders them; the
class of the first set is the start. -/
def merge (tape : Tape) (sets : List (List Nat)) : Automaton :=
  let g := sets.foldr (Merging.visit tape) Merging.empty
  ⟨(g.classes.map (·.1)).reverse.toArray, ((g.classOf.head?).map (·.2)).getD 0⟩

end NumberPlan
