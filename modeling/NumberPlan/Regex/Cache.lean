/-!
# A cache of compiled expressions

A cache keeps the expressions compiled last, up to its capacity, most recently
used first.  Each compilation makes a new object, told apart by its serial number.

    c.get compile p   the object for p, compiled only where it is not in the cache

A request that finds its expression makes it the most recently used; looking with
`contains` does not, and an expression that does not compile leaves no trace.
-/

namespace NumberPlan.Regex

/-- What is asked of a cache. -/
inductive Request where
  | get (pattern : String)
  | contains (pattern : String)
  deriving DecidableEq, Repr

/-- What one compilation made. -/
structure Compiled (ρ : Type) where
  serial : Nat
  regex : ρ
  deriving DecidableEq, Repr

/-- Compiled expressions by pattern, most recently used first, and the number compiled so far. -/
structure Cache (ρ : Type) where
  capacity : Nat
  entries : List (String × Compiled ρ)
  compiled : Nat
  deriving Repr

namespace Cache

variable {ρ : Type}

/-- An empty cache; the least capacity is 1. -/
def withCapacity (n : Nat) : Cache ρ := ⟨max n 1, [], 0⟩

def size (c : Cache ρ) : Nat := c.entries.length

/-- The patterns that are cached, the one used last first. -/
def patterns (c : Cache ρ) : List String := c.entries.map (·.1)

def isEmpty (c : Cache ρ) : Bool := c.entries.isEmpty

def contains (c : Cache ρ) (pattern : String) : Bool := (c.entries.lookup pattern).isSome

/-- The cache with a pattern's object moved to the front. -/
def refresh (c : Cache ρ) (pattern : String) (r : Compiled ρ) : Cache ρ :=
  { c with entries := (pattern, r) :: c.entries.filter fun e => e.1 != pattern }

/-- The cache with a new object at the front; the least recently used one gives way. -/
def push (c : Cache ρ) (pattern : String) (r : Compiled ρ) : Cache ρ :=
  { c with entries := ((pattern, r) :: c.entries).take c.capacity, compiled := c.compiled + 1 }

/-- The object of a pattern, compiled where the cache does not hold it. -/
def get (compile : String → Option ρ) (pattern : String) (c : Cache ρ) :
    Option (Compiled ρ) × Cache ρ :=
  match c.entries.lookup pattern with
  | some r => (some r, c.refresh pattern r)
  | none =>
    match compile pattern with
    | none => (none, c)
    | some regex =>
      let r : Compiled ρ := ⟨c.compiled, regex⟩
      (some r, c.push pattern r)

/-- The cache after a request. -/
def next (compile : String → Option ρ) (c : Cache ρ) : Request → Cache ρ
  | .get pattern => (c.get compile pattern).2
  | .contains _ => c

/-- The cache after requests to an empty one. -/
def after (compile : String → Option ρ) (n : Nat) (requests : List Request) : Cache ρ :=
  requests.foldl (next compile) (withCapacity n)

end Cache

end NumberPlan.Regex
