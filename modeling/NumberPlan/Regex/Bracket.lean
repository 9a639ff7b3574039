import NumberPlan.Regex.Escape

/-!
# Bracketed sets

    [a-z]  [^0-9]  [\da-f]  [a-z[0-9]]  [\d--[5-9]]  [[:alpha:]_]

Members are characters, ranges, escapes, sets in brackets of their own and, as
`[:alpha:]`, the sets that have a name.  `&&`, `--` and `~~` join what stands before
them and after them, from the left, to the common characters, those of the left side
only, and those of one side only.  Either side may be empty.  A bracket that comes
first stands for itself, and so do hyphens that come first or last.
-/

namespace NumberPlan.Regex

/-- A set and how deep its text nests. -/
abbrev DeepSet := CharSet × Nat

/-! ## Operators -/

inductive SetOp where
  | inter
  | diff
  | symmDiff
  deriving DecidableEq, Repr

def SetOp.apply : SetOp → CharSet → CharSet → CharSet
  | inter, s, t => .inter s t
  | diff, s, t => .inter s (.compl t)
  | symmDiff, s, t => s.symmDiff t

/-- A bracket being read: what its last operator joins, and the members after it, latest first. -/
structure Bracket where
  left : Option (DeepSet × SetOp)
  members : List DeepSet
  deriving DecidableEq, Repr

namespace Bracket

/-- All members after the last operator. -/
def right (b : Bracket) : DeepSet :=
  match b.members with
  | [] => (.empty, 0)
  | [m] => m
  | ms => (ms.foldl (fun s m => .union m.1 s) .empty, ms.foldl (fun n m => max n m.2) 0 + 1)

/-- The set read so far. -/
def value (b : Bracket) : DeepSet :=
  match b.left with
  | none => b.right
  | some (l, op) => (op.apply l.1 b.right.1, max l.2 b.right.2 + 1)

def push (m : DeepSet) (b : Bracket) : Bracket := ⟨b.left, m :: b.members⟩

def join (op : SetOp) (b : Bracket) : Bracket := ⟨some (b.value, op), []⟩

/-- The set of a bracket at its end. -/
def close (negated : Bool) (s : DeepSet) : DeepSet :=
  (if negated then .compl s.1 else s.1, s.2 + 1)

end Bracket

/-! ## Members -/

/-- One character or escape. -/
def readMember : List Char → Option (Escape × List Char)
  | [] => none
  | '\\' :: cs => readEscape cs
  | c :: cs => some (.char c, cs)

/-- The set that an escape stands for, if it is not a look. -/
def Escape.toSet? : Escape → Option CharSet
  | char c => some (.only c)
  | set s => some s
  | look _ => none

/-- The range from one member to another, which have to be characters. -/
def rangeOf? : Escape → Escape → Option CharSet
  | .char a, .char b => if a ≤ b then some (.range a b) else none
  | _, _ => none

/-- A member or a range of two. -/
def readRange (cs : List Char) : Option (CharSet × List Char) :=
  match readMember cs with
  | none => none
  | some (a, '-' :: ']' :: cs) => a.toSet?.map fun s => (s, '-' :: ']' :: cs)
  | some (a, '-' :: '-' :: cs) => a.toSet?.map fun s => (s, '-' :: '-' :: cs)
  | some (a, '-' :: cs) =>
    match readMember cs with
    | none => none
    | some (b, cs) => (rangeOf? a b).map fun s => (s, cs)
  | some (a, cs) => a.toSet?.map fun s => (s, cs)

/-- The name of a set, and `:]` after it. -/
def readSetName (cs : List Char) : Option (CharSet × List Char) :=
  match cs.span (· != ':') with
  | (name, ':' :: ']' :: rest) =>
    (CharSet.named.lookup (String.ofList name)).map fun s => (s, rest)
  | _ => none

/-- A set by its name, after the bracket: `:alpha:]`, or `:^alpha:]` for all others. -/
def readNamed : List Char → Option (CharSet × List Char)
  | ':' :: '^' :: cs => (readSetName cs).map fun r => (.compl r.1, r.2)
  | ':' :: cs => readSetName cs
  | _ => none

/-! ## Brackets -/

/-- The members at the start of a bracket that stand for themselves. -/
def readFirst (cs : List Char) : Bracket × List Char :=
  match (cs.takeWhile (· == '-')).map fun c => (CharSet.only c, 0), cs.dropWhile (· == '-') with
  | [], ']' :: cs => (⟨none, [(.only ']', 0)]⟩, cs)
  | hyphens, cs => (⟨none, hyphens⟩, cs)

/-- The start of a bracket: whether it is negated, its first members, and the rest. -/
def openBracket : List Char → Bool × Bracket × List Char
  | '^' :: cs => (true, readFirst cs)
  | cs => (false, readFirst cs)

/-- The rest of a bracket.  The length of the text is enough `fuel`. -/
def readBracketFrom : (fuel : Nat) → Bracket → List Char → Option (DeepSet × List Char)
  | 0, _, _ => none
  | _ + 1, _, [] => none
  | _ + 1, b, ']' :: cs => some (b.value, cs)
  | fuel + 1, b, '&' :: '&' :: cs => readBracketFrom fuel (b.join .inter) cs
  | fuel + 1, b, '-' :: '-' :: cs => readBracketFrom fuel (b.join .diff) cs
  | fuel + 1, b, '~' :: '~' :: cs => readBracketFrom fuel (b.join .symmDiff) cs
  | fuel + 1, b, '[' :: cs =>
    match readNamed cs with
    | some (s, cs) => readBracketFrom fuel (b.push (s, 0)) cs
    | none =>
      match openBracket cs with
      | (negated, inner, cs) =>
        match readBracketFrom fuel inner cs with
        | none => none
        | some (s, cs) => readBracketFrom fuel (b.push (Bracket.close negated s)) cs
  | fuel + 1, b, cs =>
    match readRange cs with
    | none => none
    | some (s, cs) => readBracketFrom fuel (b.push (s, 0)) cs

/-- A bracketed set after its opening bracket. -/
def readBracket (cs : List Char) : Option (DeepSet × List Char) :=
  match openBracket cs with
  | (negated, b, rest) =>
    (readBracketFrom (rest.length + 1) b rest).map fun r => (Bracket.close negated r.1, r.2)

end NumberPlan.Regex
