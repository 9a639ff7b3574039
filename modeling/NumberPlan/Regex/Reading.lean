import NumberPlan.Regex.Term

/-!
# Reading regular expressions

A text is cut into tokens, and tokens are read on a stack of open groups.  A
group holds the branches before the last `|` and the items after it; a quantifier
applies to the last item.

    read? limit s = some e     s is a regular expression, e, with a matcher of at most `limit` bytes

Groups are `( )`, `(?: )` and `(?<name> )`, where no two names are the same.  An
expression must not nest too deep nor be too large.

The grammar has no flags, neither for the rest of a group, as in `(?i)` and `(?x)`, nor for
a group of their own, as in `(?i: )`, and no Unicode classes `\p{ }` and `\P{ }`.  A text
that uses them is no regular expression here, whatever other engines make of it.
-/

namespace NumberPlan.Regex

/-! ## Tokens -/

/-- What opens a group. -/
inductive Opening where
  | plain
  | capture
  | named (name : String)
  deriving DecidableEq, Repr

inductive Token where
  | opening (o : Opening)
  | closing
  | bar
  | quantifier (lo : Nat) (hi : Option Nat)
  | item (t : Term)
  deriving DecidableEq, Repr

/-! ### Quantifiers -/

/-- The quantifier at the start of `cs`, an added `?` being passed over. -/
def lazily (lo : Nat) (hi : Option Nat) (cs : List Char) : Option (Token × List Char) :=
  match cs with
  | '?' :: cs => some (.quantifier lo hi, cs)
  | cs => some (.quantifier lo hi, cs)

/-- The decimal number at the start of the text, if there is one of 32 bits.  White space may
stand around it. -/
def readNumber (cs : List Char) : Option (Nat × List Char) :=
  let cs := cs.dropWhile isSpace
  let ds := cs.takeWhile Char.isDigit
  let n : Nat := ds.foldl (fun n c => 10 * n + (c.toNat - 48)) 0
  if ds.isEmpty || decide (0x100000000 ≤ n) then none
  else some (n, (cs.dropWhile Char.isDigit).dropWhile isSpace)

/-- A repetition, after its opening brace. -/
def readBraces (cs : List Char) : Option (Token × List Char) :=
  match readNumber cs with
  | none => none
  | some (lo, '}' :: cs) => lazily lo (some lo) cs
  | some (lo, ',' :: '}' :: cs) => lazily lo none cs
  | some (lo, ',' :: cs) =>
    match readNumber cs with
    | some (hi, '}' :: cs) => if lo ≤ hi then lazily lo (some hi) cs else none
    | _ => none
  | _ => none

/-! ### Groups -/

/-- Names are made of word characters, dots and brackets; a letter or `_` comes first. -/
def isName : List Char → Bool
  | [] => false
  | c :: cs =>
    isWord c && !isDigit c && cs.all fun c => isWord c || c == '.' || c == '[' || c == ']'

/-- A named group, after `<`. -/
def readName (cs : List Char) : Option (Token × List Char) :=
  match cs.span (· != '>') with
  | (name, _ :: rest) =>
    if isName name then some (.opening (.named (String.ofList name)), rest) else none
  | (_, []) => none

/-- The start of a group, after its parenthesis.  Flags are not read. -/
def readOpening : List Char → Option (Token × List Char)
  | '?' :: ':' :: cs => some (.opening .plain, cs)
  | '?' :: '<' :: cs => readName cs
  | '?' :: 'P' :: '<' :: cs => readName cs
  | '?' :: _ => none
  | cs => some (.opening .capture, cs)

/-! ### Lexing -/

/-- The token at the start of a text and the text after it. -/
def readToken : Char → List Char → Option (Token × List Char)
  | '(', cs => readOpening cs
  | ')', cs => some (.closing, cs)
  | '|', cs => some (.bar, cs)
  | '*', cs => lazily 0 none cs
  | '+', cs => lazily 1 none cs
  | '?', cs => lazily 0 (some 1) cs
  | '{', cs => readBraces cs
  | '^', cs => some (.item (.ofLook .start), cs)
  | '$', cs => some (.item (.ofLook .finish), cs)
  | '.', cs => some (.item (.ofSet .dot 0), cs)
  | '[', cs => (readBracket cs).map fun r => (.item (.ofSet r.1.1 r.1.2), r.2)
  | '\\', cs => (readEscape cs).map fun r => (.item (.ofEscape r.1), r.2)
  | c, cs => some (.item (.ofChar c), cs)

/-- The tokens of a text; its length is enough `fuel`. -/
def readTokens : (fuel : Nat) → List Char → Option (List Token)
  | fuel + 1, c :: cs =>
    match readToken c cs with
    | none => none
    | some (t, rest) => (readTokens fuel rest).map (t :: ·)
  | _, _ => some []

/-- The name that a token gives to a group. -/
def Token.name? : Token → Option String
  | opening (.named name) => some name
  | _ => none

/-- Whether no value occurs twice. -/
def allDistinct : List String → Bool
  | [] => true
  | x :: xs => xs.all (· != x) && allDistinct xs

/-! ## Groups -/

/-- An open group: its finished branches and the items of the branch being read, latest first. -/
structure Group where
  captures : Bool
  branches : List Term
  items : List Term
  deriving DecidableEq, Repr

namespace Group

def empty (captures : Bool) : Group := ⟨captures, [], []⟩

/-- The whole group, without its parentheses. -/
def close (g : Group) : Term := .alt (.seq g.items) g.branches

def push (t : Term) (g : Group) : Group := ⟨g.captures, g.branches, t :: g.items⟩

/-- Begins another branch. -/
def split (g : Group) : Group := ⟨g.captures, .seq g.items :: g.branches, []⟩

end Group

/-- The innermost group and those around it, from the inside out. -/
structure Stack where
  inner : Group
  outer : List Group
  deriving DecidableEq, Repr

namespace Stack

/-- The text itself counts as a group that captures. -/
def empty : Stack := ⟨.empty true, []⟩

/-- Reads one token. -/
def push : Token → Stack → Option Stack
  | .item t, s => some ⟨s.inner.push t, s.outer⟩
  | .bar, s => some ⟨s.inner.split, s.outer⟩
  | .quantifier lo hi, ⟨⟨captures, branches, t :: items⟩, outer⟩ =>
    some ⟨⟨captures, branches, t.times lo hi :: items⟩, outer⟩
  | .quantifier _ _, _ => none
  | .opening o, s => some ⟨.empty (o != .plain), s.inner :: s.outer⟩
  | .closing, ⟨inner, g :: outer⟩ => some ⟨g.push (inner.close.group inner.captures), outer⟩
  | .closing, _ => none

/-- Reads tokens in order. -/
def pushAll : List Token → Stack → Option Stack
  | [], s => some s
  | t :: ts, s =>
    match push t s with
    | none => none
    | some s => pushAll ts s

/-- The term, if no group is left open. -/
def close? : Stack → Option Term
  | ⟨inner, []⟩ => some inner.close
  | _ => none

end Stack

/-- The term that tokens make up. -/
def Term.ofTokens? (ts : List Token) : Option Term :=
  if allDistinct (ts.filterMap Token.name?) then (Stack.pushAll ts .empty).bind Stack.close?
  else none

/-- Reads a regular expression whose matcher may be of the size `limit`. -/
def read? (limit : Nat) (s : String) : Option Expr :=
  let cs := s.toList
  let t? := (readTokens cs.length cs).bind Term.ofTokens?
  (t?.filter (Term.fits limit)).map Term.expr

end NumberPlan.Regex
