import NumberPlan.DigitSet

/-!
# Digit patterns

A pattern is a list of alternatives, an alternative a list of items, and an item
a set of digits with the least and the most number of digits taken from it:
`[2-9]\d{6,7}|800\d{4}` has two alternatives.

    p.Denotes w            w is a word of the pattern
    Spells (slots a) w     the same word, read through required and skippable positions

An alternative unfolds into slots, one per digit position: `least` required ones
and `most - least` that may be skipped.
-/

namespace NumberPlan

/-! ## Patterns and what they denote -/

/-- Between `least` and `most` digits, each from `digits`. -/
structure Item where
  digits : DigitSet
  least : Nat
  most : Nat
  deriving DecidableEq, Repr

/-- Alternatives, each a sequence of items. -/
abbrev Pattern := List (List Item)

/-- `w` is a run of digits that the item allows. -/
def Item.Denotes (i : Item) (w : List Digit) : Prop :=
  i.least ≤ w.length ∧ w.length ≤ i.most ∧ ∀ d ∈ w, i.digits.mem d = true

/-- `w` splits into one run for each item. -/
def SequenceDenotes : List Item → List Digit → Prop
  | [], w => w = []
  | i :: is, w => ∃ u v, w = u ++ v ∧ i.Denotes u ∧ SequenceDenotes is v

/-- `w` is a word of one of the alternatives. -/
def Pattern.Denotes (p : Pattern) (w : List Digit) : Prop := ∃ a ∈ p, SequenceDenotes a w

/-! ## Slots -/

/-- One digit position; an optional one may be skipped. -/
structure Slot where
  digits : DigitSet
  optional : Bool
  deriving DecidableEq, Repr

/-- The positions of an item: the required ones, then those that may be skipped. -/
def Item.slots (i : Item) : List Slot :=
  List.replicate i.least ⟨i.digits, false⟩ ++ List.replicate (i.most - i.least) ⟨i.digits, true⟩

/-- The positions of an alternative. -/
def slots (a : List Item) : List Slot := a.flatMap Item.slots

/-- The positions of every alternative. -/
def Pattern.slots (p : Pattern) : List (List Slot) := p.map NumberPlan.slots

/-- `w` is read by passing the positions in order, skipping none but optional ones. -/
def Spells : List Slot → List Digit → Prop
  | [], w => w = []
  | s :: r, w =>
    (s.optional = true ∧ Spells r w) ∨ ∃ d v, w = d :: v ∧ s.digits.mem d = true ∧ Spells r v

end NumberPlan
