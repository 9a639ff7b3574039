import NumberPlan.Classify
import NumberPlan.Matching

/-!
# Classifiers

A classifier owns what it matches numbers with: the programs of the descriptions, or their regular
expressions and a cache for them.

    (c.numberType r number).1       the type of a number
    (c.matchesDesc number d).1      whether it is one of those described

Either question may lead to others, each put to the matcher as the one before it left it.
-/

namespace NumberPlan

/-- What numbers are matched with. -/
inductive Classifier (ρ : Type) where
  | byProgram
  | byRegex (engine : Regex.Engine ρ) (cache : Regex.Cache ρ)

namespace Classifier

variable {ρ : Type}

/-- The classifier by programs, which is the one used where none is chosen. -/
def default : Classifier ρ := byProgram

/-- Whether the whole number matches, and the classifier afterwards. -/
def matchNumber (d : NumberDesc) (number : String) : Classifier ρ → Bool × Classifier ρ
  | byProgram => (matchesProgram d number false, byProgram)
  | byRegex engine cache =>
    let (answer, cache) := matchesRegex engine d number false cache
    (answer, byRegex engine cache)

/-- Whether a number has a possible length and matches. -/
def matchesDesc (number : String) (desc : Option NumberDesc) (c : Classifier ρ) :
    Bool × Classifier ρ :=
  match desc with
  | none => (false, c)
  | some d =>
    if !d.possibleLengths.isEmpty && !d.possibleLengths.contains (numberLength number) then
      (false, c)
    else c.matchNumber d number

/-- The first of some types whose description the number matches. -/
def firstType (r : Record) (number : String) :
    List NumberType → Classifier ρ → Option NumberType × Classifier ρ
  | [], c => (none, c)
  | t :: ts, c =>
    match c.matchesDesc number (r.descOf t) with
    | (true, c) => (some t, c)
    | (false, c) => firstType r number ts c

/-- The type of a national number. -/
def numberType (r : Record) (number : String) (c : Classifier ρ) : NumberType × Classifier ρ :=
  match c.matchesDesc number r.general with
  | (false, c) => (.unknown, c)
  | (true, c) =>
    match c.firstType r number NumberType.exclusive with
    | (some t, c) => (t, c)
    | (none, c) =>
      match c.matchesDesc number r.fixedLine with
      | (true, c) =>
        if r.sharesPattern then (.fixedLineOrMobile, c)
        else
          match c.matchesDesc number r.mobile with
          | (true, c) => (.fixedLineOrMobile, c)
          | (false, c) => (.fixedLine, c)
      | (false, c) =>
        if r.sharesPattern then (.unknown, c)
        else
          match c.matchesDesc number r.mobile with
          | (true, c) => (.mobile, c)
          | (false, c) => (.unknown, c)

/-- The number has a type. -/
def isValidNumber (r : Record) (number : String) (c : Classifier ρ) : Bool × Classifier ρ :=
  let (t, c) := c.numberType r number
  (t != .unknown, c)

end Classifier

end NumberPlan
