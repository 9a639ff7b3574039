import NumberPlan.Pattern.Basic

/-!
# Reading patterns

    pattern     = alternative ('|' alternative)*
    alternative = item item*
    item        = (digit | '\d' | '[' (digit | digit '-' digit)+ ']') ('?' | '{' n (',' n)? '}')?

A range ascends.  A repetition count has any number of digits, the least count
is at most the greatest, and the greatest is between 1 and 32.  Errors carry the
place of the offending character, counted in UTF-8 bytes.
-/

namespace NumberPlan

/-! ## Errors -/

/-- A part of a pattern that has a beginning and an end. -/
inductive PatternPart where
  | escape
  | digitClass
  | repetition
  deriving DecidableEq, Repr

/-- Why a text is no pattern. -/
inductive PatternError where
  | emptyAlternative (position : Nat)
  | unexpectedChar (found : Char) (position : Nat)
  | unterminated (part : PatternPart) (start : Nat)
  | invalidRepetition (least most : Nat) (position : Nat)
  | emptyClass (position : Nat)
  deriving DecidableEq, Repr

def PatternPart.name : PatternPart → String
  | .escape => "escape"
  | .digitClass => "class"
  | .repetition => "repetition"

def PatternError.message : PatternError → String
  | .emptyAlternative p => "Empty alternative at position " ++ toString p
  | .unexpectedChar c p =>
    "Unexpected character '" ++ c.toString ++ "' at position " ++ toString p
  | .unterminated part p => "Unterminated " ++ part.name ++ " starting at position " ++ toString p
  | .invalidRepetition least most p =>
    "Invalid repetition \x7b" ++ toString least ++ "," ++ toString most ++ "\x7d at position "
      ++ toString p
  | .emptyClass p => "Empty digit class at position " ++ toString p

/-! ## Algorithm -/

/-- A text still to be read and the place of its first character. -/
structure Unread where
  position : Nat
  chars : List Char
  deriving DecidableEq, Repr

/-- The text after its first character `c`. -/
def Unread.after (t : Unread) (c : Char) (cs : List Char) : Unread := ⟨t.position + c.utf8Size, cs⟩

/-- The greatest repetition count. -/
def maxRepetition : Nat := 32

/-- Counts stop growing here. -/
def countLimit : Nat := 0xFFFFFFFFFFFFFFFF

/-- The decimal number at the start of the text, `none` where there is no digit. -/
def readCount (sofar : Option Nat) (position : Nat) : List Char → Option Nat × Unread
  | [] => (sofar, ⟨position, []⟩)
  | c :: cs =>
    match Digit.ofAscii? c with
    | none => (sofar, ⟨position, c :: cs⟩)
    | some d => readCount (some (min (10 * sofar.getD 0 + d.val) countLimit)) (position + 1) cs

/-- A count inside the repetition that opened at `start`. -/
def requireCount (start : Nat) (t : Unread) : Except PatternError (Nat × Unread) :=
  match readCount none t.position t.chars with
  | (some n, rest) => .ok (n, rest)
  | (none, rest) =>
    match rest.chars with
    | [] => .error (.unterminated .repetition start)
    | c :: _ => .error (.unexpectedChar c rest.position)

/-- The brace that closes the repetition opened at `start`, whose counts were read. -/
def closeRepetition (start least most : Nat) (t : Unread) :
    Except PatternError (Nat × Nat × Unread) :=
  match t.chars with
  | [] => .error (.unterminated .repetition start)
  | c :: cs =>
    if c = '}' then
      if least ≤ most ∧ 1 ≤ most ∧ most ≤ maxRepetition then .ok (least, most, t.after c cs)
      else .error (.invalidRepetition least most start)
    else .error (.unexpectedChar c t.position)

/-- The counts of a repetition, after its opening brace at `start`. -/
def readRepetition (start : Nat) (t : Unread) : Except PatternError (Nat × Nat × Unread) :=
  match requireCount start t with
  | .error e => .error e
  | .ok (least, rest) =>
    match rest.chars with
    | ',' :: cs =>
      match requireCount start (rest.after ',' cs) with
      | .error e => .error e
      | .ok (most, rest) => closeRepetition start least most rest
    | _ => closeRepetition start least least rest

/-- How often the item before `t` may occur: once, unless a quantifier follows. -/
def readQuantifier (t : Unread) : Except PatternError (Nat × Nat × Unread) :=
  match t.chars with
  | '?' :: cs => .ok (0, 1, t.after '?' cs)
  | '{' :: cs => readRepetition t.position (t.after '{' cs)
  | _ => .ok (1, 1, t)

/-- The members of the class that opened at `start`; `sofar` are those already read. -/
def readClass (start : Nat) (sofar : DigitSet) (position : Nat) :
    List Char → Except PatternError (DigitSet × Unread)
  | [] => .error (.unterminated .digitClass start)
  | c :: cs =>
    if c = ']' then
      if sofar = DigitSet.empty then .error (.emptyClass start) else .ok (sofar, ⟨position + 1, cs⟩)
    else
      match Digit.ofAscii? c with
      | none => .error (.unexpectedChar c position)
      | some lo =>
        match cs with
        | '-' :: [] => .error (.unterminated .digitClass start)
        | '-' :: e :: ds =>
          match Digit.ofAscii? e with
          | none => .error (.unexpectedChar e (position + 2))
          | some hi =>
            if lo ≤ hi then readClass start (sofar ||| DigitSet.span lo hi) (position + 3) ds
            else .error (.unexpectedChar e (position + 2))
        | cs => readClass start (sofar ||| DigitSet.single lo) (position + 1) cs

/-- The digits that an item starting with `c` takes, `rest` being what follows `c`. -/
def readAtom (position : Nat) (c : Char) (rest : List Char) :
    Except PatternError (DigitSet × Unread) :=
  match Digit.ofAscii? c with
  | some d => .ok (DigitSet.single d, ⟨position + 1, rest⟩)
  | none =>
    if c = '\\' then
      match rest with
      | [] => .error (.unterminated .escape position)
      | e :: cs =>
        if e = 'd' then .ok (DigitSet.full, ⟨position + 2, cs⟩)
        else .error (.unexpectedChar e (position + 1))
    else if c = '[' then readClass position DigitSet.empty (position + 1) rest
    else .error (.unexpectedChar c position)

/-- The item that starts with `c`. -/
def readItem (position : Nat) (c : Char) (rest : List Char) :
    Except PatternError (Item × Unread) :=
  match readAtom position c rest with
  | .error e => .error e
  | .ok (digits, t) =>
    match readQuantifier t with
    | .error e => .error e
    | .ok (least, most, t) => .ok (⟨digits, least, most⟩, t)

/-- Reads on inside the alternative that opened at `start` and holds `items` so far, latest
first.  `fuel` bounds the number of steps; the length of the text is enough. -/
def readAlternatives : (fuel : Nat) → (start : Nat) → (items : List Item) → Unread →
    Except PatternError Pattern
  | fuel, start, items, t =>
    match fuel, t.chars with
    | fuel + 1, c :: cs =>
      if c = '|' then
        if items.isEmpty then .error (.emptyAlternative start)
        else (readAlternatives fuel (t.position + 1) [] (t.after c cs)).map (items.reverse :: ·)
      else
        match readItem t.position c cs with
        | .error e => .error e
        | .ok (i, rest) => readAlternatives fuel start (i :: items) rest
    | _, _ => if items.isEmpty then .error (.emptyAlternative start) else .ok [items.reverse]

/-- Reads a pattern. -/
def readPattern (s : String) : Except PatternError Pattern :=
  let cs := s.toList
  readAlternatives cs.length 0 [] ⟨0, cs⟩

end NumberPlan
