import NumberPlan.Program.Layout

/-!
# Compiling patterns

    compile s = .ok p  →  verdict p w = .matched ↔ w is a word of the pattern s
-/

namespace NumberPlan

/-- The program of an automaton. -/
def assemble (m : Automaton) : Except CompileError (List UInt8) := (settle (blocks m)).map emit

/-- The program of a pattern. -/
def compilePattern (p : Pattern) : Except CompileError (List UInt8) := assemble (automatonOf p.slots)

/-- The program of a pattern's text. -/
def compile (s : String) : Except CompileError (List UInt8) :=
  match readPattern s with
  | .error e => .error (.invalidPattern e)
  | .ok p => compilePattern p

end NumberPlan
