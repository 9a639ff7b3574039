import NumberPlan.Regex.CharSet

/-!
# Regular expressions

    Matches text e i j     e matches the characters of text from place i up to place j

Places lie between characters, 0 before the first.  Some expressions match no
characters but look at those on either side of a place.
-/

namespace NumberPlan.Regex

/-! ## Looking around -/

/-- What a place may be. -/
inductive Look where
  | start
  | finish
  /-- between a word character and one that is none -/
  | wordEdge
  | noWordEdge
  | wordStart
  | wordEnd
  /-- not after a word character -/
  | wordStartHalf
  /-- not before a word character -/
  | wordEndHalf
  deriving DecidableEq, Repr

/-- Whether a place is as told, from the characters before and after it. -/
def Look.holds (before after : Option Char) : Look → Bool
  | start => before.isNone
  | finish => after.isNone
  | wordEdge => before.any isWord != after.any isWord
  | noWordEdge => before.any isWord == after.any isWord
  | wordStart => !before.any isWord && after.any isWord
  | wordEnd => before.any isWord && !after.any isWord
  | wordStartHalf => !before.any isWord
  | wordEndHalf => !after.any isWord

/-- The character before a place. -/
def charBefore (text : List Char) : Nat → Option Char
  | 0 => none
  | i + 1 => text[i]?

/-! ## Expressions -/

/-- A regular expression. -/
inductive Expr where
  | empty
  | one (s : CharSet)
  | look (l : Look)
  | seq (a b : Expr)
  | alt (a b : Expr)
  /-- between `lo` and `hi` times, or `lo` times and more -/
  | times (e : Expr) (lo : Nat) (hi : Option Nat)
  deriving DecidableEq, Repr

/-- `e` matches `text` from one place to another. -/
inductive Matches (text : List Char) : Expr → Nat → Nat → Prop where
  | empty {i} : i ≤ text.length → Matches text .empty i i
  | one {s c i} : text[i]? = some c → s.mem c = true → Matches text (.one s) i (i + 1)
  | look {l i} : i ≤ text.length → l.holds (charBefore text i) text[i]? = true →
      Matches text (.look l) i i
  | seq {a b i j k} : Matches text a i j → Matches text b j k → Matches text (.seq a b) i k
  | left {a b i j} : Matches text a i j → Matches text (.alt a b) i j
  | right {a b i j} : Matches text b i j → Matches text (.alt a b) i j
  | none {e hi i} : i ≤ text.length → Matches text (.times e 0 hi) i i
  | more {e lo i j k} : Matches text e i j → Matches text (.times e (lo - 1) none) j k →
      Matches text (.times e lo none) i k
  | again {e lo hi i j k} : Matches text e i j → Matches text (.times e (lo - 1) (some hi)) j k →
      Matches text (.times e lo (some (hi + 1))) i k

end NumberPlan.Regex
