import NumberPlan.Regex.Bracket

/-!
# Terms

A term is an expression with two measures that are limited: how deep its text nests,
and how many bytes a matcher for it takes (`Term.fits`).  The second is an estimate:
it is close for sets of few characters, and rough for others (`CharSet.size`).  An
expression whose estimate is on one side of the limit and whose matcher is on the
other is decided wrongly.  Only expressions with hundreds of copies of a set as large
as `\w`, or thousands of a smaller one, come near the usual limit, `Term.maxSize`.

Repetition is simplified as far as this keeps the matches: what matches no characters
need not be repeated, and unbounded repetitions of each other are one.
-/

namespace NumberPlan.Regex

/-- About how many bytes the runs of a set take.  A run beyond ASCII counts the same however many
UTF-8 sequences it spans, runs that meet or overlap count apart, and what a complement or an
intersection leaves is not looked at. -/
def CharSet.size : CharSet → Nat
  | empty => 0
  | range lo hi => if hi.toNat < 128 then 8 else if lo = hi then 32 * hi.utf8Size else 128
  | digit => 5052
  | space => 616
  | word => 49736
  | compl s => s.size + 900
  | union s t => s.size + t.size
  | inter s t => s.size + t.size

/-- Whether an expression matches no characters. -/
def Expr.isBare : Expr → Bool
  | empty => true
  | one _ => false
  | look _ => true
  | seq a b => a.isBare && b.isBare
  | alt a b => a.isBare && b.isBare
  | times e _ hi => e.isBare || hi == some 0

/-- `e` between `lo` and `hi` times.  Where `e` is already repeated without a bound, more of it is
the same repetition. -/
def Expr.repeated (lo : Nat) (hi : Option Nat) (e : Expr) : Expr :=
  if hi = some 0 then .times e lo hi
  else
    match e with
    | .times e 0 none => .times e 0 none
    | .times e 1 none => .times e lo none
    | e => .times e lo hi

/-- An expression, how deep its text nests, and the size of its matcher. -/
structure Term where
  expr : Expr
  depth : Nat
  size : Nat
  deriving DecidableEq, Repr

namespace Term

/-- The greatest depth. -/
def maxDepth : Nat := 250

/-- The greatest size unless another is given, 10 MiB. -/
def maxSize : Nat := 0xA00000

/-- Whether a term does not nest too deep, and its matcher is at most of the size `limit`. -/
def fits (limit : Nat) (t : Term) : Bool := decide (t.depth ≤ maxDepth) && decide (t.size ≤ limit)

/-! ## Items -/

def ofChar (c : Char) : Term := ⟨.one (.only c), 0, 32 * c.utf8Size⟩

def ofSet (s : CharSet) (depth : Nat) : Term := ⟨.one s, depth, s.size + 64⟩

def ofLook (l : Look) : Term := ⟨.look l, 0, 32⟩

def ofEscape : Escape → Term
  | .char c => ofChar c
  | .set s => ofSet s 0
  | .look l => ofLook l

/-! ## Combinations -/

/-- Terms one after the other, the latest first. -/
def seq : List Term → Term
  | [] => ⟨.empty, 0, 32⟩
  | [t] => t
  | ts => ⟨ts.foldl (fun e t => .seq t.expr e) .empty, ts.foldl (fun n t => max n t.depth) 0 + 1,
      ts.foldl (fun n t => n + t.size) 0⟩

/-- One of some terms, the latest first, or else `t`, which comes after them. -/
def alt (t : Term) : List Term → Term
  | [] => t
  | ts => ⟨ts.foldl (fun e t => .alt t.expr e) t.expr,
      ts.foldl (fun n t => max n t.depth) t.depth + 1,
      ts.foldl (fun n t => n + t.size + 4) (t.size + 68)⟩

/-- A term in parentheses. -/
def group (captures : Bool) (t : Term) : Term :=
  ⟨t.expr, t.depth + 1, if captures then t.size + 64 else t.size⟩

/-- The size of a matcher repeated between `lo` and `hi` times. -/
def sizeOfTimes (size lo : Nat) : Option Nat → Nat
  | none => size * max lo 1 + 40
  | some hi => size * hi + (if lo < hi then 40 * (hi - lo) + 32 else 0)

/-- A term between `lo` and `hi` times. -/
def times (lo : Nat) (hi : Option Nat) (t : Term) : Term :=
  if t.expr.isBare then
    ⟨.times t.expr (min lo 1) (hi.map (min · 1)), t.depth + 1, t.size + 72⟩
  else ⟨t.expr.repeated lo hi, t.depth + 1, sizeOfTimes t.size lo hi⟩

end Term

end NumberPlan.Regex
