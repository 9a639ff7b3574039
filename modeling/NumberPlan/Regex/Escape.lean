import NumberPlan.Regex.Expr

/-!
# Escapes

What a backslash and the characters after it stand for: a set, a look, or one
character, which may be named by its code point in hexadecimal digits.

    \d \s \w        digits, white space, word characters; as capitals, all others
    \A \z \b \B     start, end, edge of a word, no edge of a word
    \x41 \u{41}     the character with this code point
    \.              any ASCII character that is no letter and no digit

The classes of characters by a property, `\p` and `\P`, are not read.
-/

namespace NumberPlan.Regex

/-- What an escape stands for. -/
inductive Escape where
  | char (c : Char)
  | set (s : CharSet)
  | look (l : Look)
  deriving DecidableEq, Repr

/-! ## Code points -/

/-- The value of a hexadecimal digit. -/
def hexDigit? (c : Char) : Option Nat :=
  if c.isDigit then some (c.toNat - 48)
  else if 'a' ≤ c ∧ c ≤ 'f' then some (c.toNat - 87)
  else if 'A' ≤ c ∧ c ≤ 'F' then some (c.toNat - 55)
  else none

/-- The character whose code point some hexadecimal digits spell. -/
def charOfHex? (ds : List Char) : Option Char :=
  match ds.mapM hexDigit? with
  | none => none
  | some vs =>
    let n : Nat := vs.foldl (fun n v => 16 * n + v) 0
    if vs.length ≠ 0 ∧ (Char.ofNat n).toNat = n then some (Char.ofNat n) else none

/-- A character by its code point, in `count` digits or between braces. -/
def readCodePoint (count : Nat) : List Char → Option (Char × List Char)
  | '{' :: cs =>
    match cs.span (· != '}') with
    | (ds, _ :: rest) => (charOfHex? ds).map fun c => (c, rest)
    | (_, []) => none
  | cs =>
    if count ≤ cs.length then (charOfHex? (cs.take count)).map fun c => (c, cs.drop count)
    else none

/-! ## Words -/

/-- The edge of a word that a name in braces stands for. -/
def wordEdgeNamed? (name : String) : Option Look :=
  if name = "start" then some .wordStart
  else if name = "end" then some .wordEnd
  else if name = "start-half" then some .wordStartHalf
  else if name = "end-half" then some .wordEndHalf
  else none

/-- An edge of a word, of which a name in braces may tell more.  Braces that do not begin with a
letter or a hyphen are a repetition. -/
def readWordEdge (cs : List Char) : Option (Look × List Char) :=
  match cs with
  | '{' :: c :: rest =>
    if c.isAlpha || c == '-' then
      match (c :: rest).span (· != '}') with
      | (name, _ :: rest) => (wordEdgeNamed? (String.ofList name)).map fun l => (l, rest)
      | (_, []) => none
    else some (.wordEdge, cs)
  | cs => some (.wordEdge, cs)

/-! ## Reading -/

/-- What a single character stands for after a backslash; `p` and `P` stand for nothing. -/
def escaped? : Char → Option Escape
  | 'd' => some (.set .digit)
  | 'D' => some (.set (.compl .digit))
  | 's' => some (.set .space)
  | 'S' => some (.set (.compl .space))
  | 'w' => some (.set .word)
  | 'W' => some (.set (.compl .word))
  | 'n' => some (.char '\n')
  | 't' => some (.char '\t')
  | 'r' => some (.char '\r')
  | 'a' => some (.char '\x07')
  | 'f' => some (.char '\x0c')
  | 'v' => some (.char '\x0b')
  | 'A' => some (.look .start)
  | 'z' => some (.look .finish)
  | 'B' => some (.look .noWordEdge)
  | '<' => some (.look .wordStart)
  | '>' => some (.look .wordEnd)
  | c => if c.toNat < 128 ∧ !c.isAlphanum then some (.char c) else none

/-- Reads an escape after its backslash. -/
def readEscape : List Char → Option (Escape × List Char)
  | [] => none
  | 'x' :: cs => (readCodePoint 2 cs).map fun r => (.char r.1, r.2)
  | 'u' :: cs => (readCodePoint 4 cs).map fun r => (.char r.1, r.2)
  | 'U' :: cs => (readCodePoint 8 cs).map fun r => (.char r.1, r.2)
  | 'b' :: cs => (readWordEdge cs).map fun r => (.look r.1, r.2)
  | c :: cs => (escaped? c).map fun e => (e, cs)

end NumberPlan.Regex
