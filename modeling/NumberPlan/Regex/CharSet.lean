import NumberPlan.Digit
import NumberPlan.Text.Space
import NumberPlan.Text.Word

/-!
# Sets of characters

    s.mem c = true     the character c is in the set s

Sets are built from ranges and from the digits, white space and word characters of
all scripts.
-/

namespace NumberPlan.Regex

/-- A decimal digit of any script. -/
def isDigit (c : Char) : Bool := (Digit.ofChar? c).isSome

/-- A set of characters. -/
inductive CharSet where
  | empty
  | range (lo hi : Char)
  | digit
  | space
  | word
  | compl (s : CharSet)
  | union (s t : CharSet)
  | inter (s t : CharSet)
  deriving DecidableEq, Repr

namespace CharSet

def mem (c : Char) : CharSet → Bool
  | empty => false
  | range lo hi => decide (lo ≤ c) && decide (c ≤ hi)
  | digit => isDigit c
  | space => isSpace c
  | word => isWord c
  | compl s => !s.mem c
  | union s t => s.mem c || t.mem c
  | inter s t => s.mem c && t.mem c

/-- Just one character. -/
def only (c : Char) : CharSet := .range c c

/-- Any character but a newline. -/
def dot : CharSet := .compl (.only '\n')

/-- The characters of either set that the other one does not have. -/
def symmDiff (s t : CharSet) : CharSet := .union (.inter s (.compl t)) (.inter t (.compl s))

def ofRanges (rs : List (Char × Char)) : CharSet :=
  rs.foldr (fun r s => .union (.range r.1 r.2) s) .empty

/-- The ASCII sets that have a name. -/
def named : List (String × CharSet) :=
  [("alnum", ofRanges [('0', '9'), ('A', 'Z'), ('a', 'z')]),
   ("alpha", ofRanges [('A', 'Z'), ('a', 'z')]),
   ("ascii", ofRanges [('\x00', '\x7f')]),
   ("blank", ofRanges [('\t', '\t'), (' ', ' ')]),
   ("cntrl", ofRanges [('\x00', '\x1f'), ('\x7f', '\x7f')]),
   ("digit", ofRanges [('0', '9')]),
   ("graph", ofRanges [('!', '~')]),
   ("lower", ofRanges [('a', 'z')]),
   ("print", ofRanges [(' ', '~')]),
   ("punct", ofRanges [('!', '/'), (':', '@'), ('[', '\x60'), ('{', '~')]),
   ("space", ofRanges [('\t', '\r'), (' ', ' ')]),
   ("upper", ofRanges [('A', 'Z')]),
   ("word", ofRanges [('0', '9'), ('A', 'Z'), ('_', '_'), ('a', 'z')]),
   ("xdigit", ofRanges [('0', '9'), ('A', 'F'), ('a', 'f')])]

end CharSet

end NumberPlan.Regex
