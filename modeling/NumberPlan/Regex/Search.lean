import NumberPlan.Regex.Expr

/-!
# Searching

A set of places is a number, place `i` at bit `i`.  An expression takes the set of
places where a match may start to the set of places where it may end.

    isMatch e text = true   ↔ ∃ i j, Matches text e i j
-/

namespace NumberPlan.Regex

/-- The number whose lowest bit is `b`, below those of `n`. -/
def bit (b : Bool) (n : Nat) : Nat := 2 * n + (if b then 1 else 0)

/-- The places before a character of the set. -/
def placesBefore (s : CharSet) : List Char → Nat
  | [] => 0
  | c :: cs => bit (s.mem c) (placesBefore s cs)

/-- The places that are as told; `before` is the character before the first of them. -/
def lookPlaces (l : Look) (before : Option Char) : List Char → Nat
  | [] => bit (l.holds before none) 0
  | c :: cs => bit (l.holds before (some c)) (lookPlaces l (some c) cs)

/-- What `f` leads to from `s` in at most `n` steps.  Once a step adds nothing, none will. -/
def upTo (f : Nat → Nat) : (n s : Nat) → Nat
  | 0, s => s
  | n + 1, s =>
    let t := s ||| f s
    if t = s then s else upTo f n t

/-- The places where a match that starts at one of the given places may end.  No match leads back,
so repetitions beyond the number of places add nothing. -/
def reach (text : List Char) : Expr → Nat → Nat
  | .empty, s => s
  | .one k, s => 2 * (s &&& placesBefore k text)
  | .look l, s => s &&& lookPlaces l none text
  | .seq a b, s => reach text b (reach text a s)
  | .alt a b, s => reach text a s ||| reach text b s
  | .times e lo none, s => upTo (fun s => reach text e s) text.length
      (Nat.repeat (fun s => reach text e s) (min lo (text.length + 1)) s)
  | .times e lo (some hi), s => upTo (fun s => reach text e s) (min (hi - lo) text.length)
      (Nat.repeat (fun s => reach text e s) (min lo (text.length + 1)) s)

/-- Whether the expression matches somewhere in the text. -/
def isMatch (e : Expr) (text : String) : Bool :=
  let cs := text.toList
  reach cs e ((1 <<< (cs.length + 1)) - 1) != 0

end NumberPlan.Regex
