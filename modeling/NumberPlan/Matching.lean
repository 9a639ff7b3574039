import NumberPlan.Program.Execution
import NumberPlan.Regex.Cache
import NumberPlan.Regex.Reading
import NumberPlan.Regex.Search
import NumberPlan.Record.Basic

/-!
# Matching national numbers

A description gives its numbers as a matching program and as a regular expression;
either decides whether a number is one of them.

    matchesProgram d number false     the whole number matches
    matchesProgram d number true      some leading part of it matches

An expression is anchored by writing around it, and compiled through a cache.  The
cache changes how often expressions are compiled and nothing else.
-/

namespace NumberPlan

/-! ## By program -/

/-- Some leading part of `w`, itself excepted, matches. -/
def hasMatchingLead (program : List UInt8) (w : List Digit) : Bool :=
  (List.range w.length).any fun n => verdict program (w.take n) == .matched

/-- Whether a number, or with `lead` some leading part of it, is one of the described ones. -/
def matchesProgram (d : NumberDesc) (number : String) (lead : Bool) : Bool :=
  match d.program.getD [] with
  | [] => false
  | program =>
    match readDigits number with
    | .error _ => false
    | .ok w =>
      match verdict program w with
      | .matched => true
      | .tooLong => lead
      | _ => lead && hasMatchingLead program w

/-! ## By regular expression -/

namespace Regex

/-- What compiles regular expressions and runs them. -/
structure Engine (ρ : Type) where
  compile : String → Option ρ
  isMatch : ρ → String → Bool

/-- The engine of this library, for expressions whose matcher is at most of the size `limit`. -/
def engineWithin (limit : Nat) : Engine Expr := ⟨read? limit, isMatch⟩

/-- The engine with the usual limit. -/
def engine : Engine Expr := engineWithin Term.maxSize

/-- The pattern tied to the start of the text and, without `lead`, to its end. -/
def anchored (pattern : String) (lead : Bool) : String :=
  if lead then "^(?:" ++ pattern ++ ")" else "^(?:" ++ pattern ++ ")$"

/-- The number of expressions kept by default. -/
def defaultCapacity : Nat := 128

end Regex

/-- Whether a number, or with `lead` some leading part of it, is one of the described ones; and
the cache afterwards. -/
def matchesRegex {ρ : Type} (engine : Regex.Engine ρ) (d : NumberDesc) (number : String)
    (lead : Bool) (cache : Regex.Cache ρ) : Bool × Regex.Cache ρ :=
  match d.pattern.getD "" with
  | "" => (false, cache)
  | pattern =>
    match cache.get engine.compile (Regex.anchored pattern lead) with
    | (none, cache) => (false, cache)
    | (some r, cache) => (engine.isMatch r.regex number, cache)

/-- The same answer without a cache. -/
def matchesRegexAfresh {ρ : Type} (engine : Regex.Engine ρ) (d : NumberDesc) (number : String)
    (lead : Bool) : Bool :=
  match d.pattern.getD "" with
  | "" => false
  | pattern =>
    match engine.compile (Regex.anchored pattern lead) with
    | none => false
    | some r => engine.isMatch r number

end NumberPlan
