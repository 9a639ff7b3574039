import NumberPlan.Regex.Cache
import NumberPlan.Regex.Lru
import NumberPlan.Threads.Guarded

/-!
# A cache that threads share

A cache on a store of compiled expressions.  A request looks into the store, and again once it has
the lock; what is not there by then is compiled and pushed.

    get L compile p c                                       all steps of a request at once
    (service L compile).after (new L n) turns               steps of many requests, in any order

Each compilation makes a new object, told apart by its serial number.  What gives way to a new
entry is noted.
-/

namespace NumberPlan.Regex

/-- The store, the number of objects made so far, and the entries that gave way, in order. -/
structure SharedCache (σ ρ : Type) where
  store : σ
  compiled : Nat
  evicted : List (String × Compiled ρ)

/-- Where the work on a missing pattern stands. -/
inductive CompileStage (ρ : Type) where
  | compile
  | push (r : Compiled ρ)
  deriving DecidableEq, Repr

namespace SharedCache

variable {σ ρ : Type} (L : LruStore σ String (Compiled ρ)) (compile : String → Option ρ)

/-- An empty cache; the least capacity is 1. -/
def new (n : Nat) : SharedCache σ ρ := ⟨L.withCapacity (max n 1), 0, []⟩

/-- The patterns that are cached, the one used last first. -/
def patterns (c : SharedCache σ ρ) : List String := (L.entries c.store).map (·.1)

def size (c : SharedCache σ ρ) : Nat := L.size c.store

def contains (pattern : String) (c : SharedCache σ ρ) : Bool × SharedCache σ ρ :=
  let (found, store) := L.contains pattern c.store
  (found, { c with store })

/-! ## Steps of a request -/

/-- The object of a pattern, if it is there. -/
def look (pattern : String) (c : SharedCache σ ρ) : Option (Compiled ρ) × SharedCache σ ρ :=
  let (found, store) := L.get pattern c.store
  (found, { c with store })

/-- A new object. -/
def make (regex : ρ) (c : SharedCache σ ρ) : Compiled ρ × SharedCache σ ρ :=
  (⟨c.compiled, regex⟩, { c with compiled := c.compiled + 1 })

/-- The cache with an object that was made for a pattern. -/
def keep (pattern : String) (r : Compiled ρ) (c : SharedCache σ ρ) : SharedCache σ ρ :=
  let (gone, store) := L.push pattern r c.store
  { c with store, evicted := c.evicted ++ gone.toList }

/-- The object of a pattern, compiled where the cache does not hold it. -/
def get (pattern : String) (c : SharedCache σ ρ) : Option (Compiled ρ) × SharedCache σ ρ :=
  match look L pattern c with
  | (some r, c) => (some r, c)
  | (none, c) =>
    match look L pattern c with
    | (some r, c) => (some r, c)
    | (none, c) =>
      match compile pattern with
      | none => (none, c)
      | some regex =>
        let (r, c) := c.make regex
        (some r, keep L pattern r c)

/-! ## One request after another -/

/-- The cache after a request. -/
def next (c : SharedCache σ ρ) : Request → SharedCache σ ρ
  | .get pattern => (get L compile pattern c).2
  | .contains pattern => (contains L pattern c).2

/-- The cache after requests to a new one. -/
def after (n : Nat) (requests : List Request) : SharedCache σ ρ :=
  requests.foldl (next L compile) (new L n)

/-! ## Many requests at once -/

/-- The steps of a request; those after the second look are done under the lock. -/
def service : Service String (SharedCache σ ρ) Unit (CompileStage ρ) (Option (Compiled ρ)) where
  look pattern c :=
    let (found, c) := SharedCache.look L pattern c
    (found.map some, c)
  first := .compile
  work pattern stage _ c :=
    match stage with
    | .compile =>
      match compile pattern with
      | none => (.done none, c)
      | some regex =>
        let (r, c) := c.make regex
        (.more (.push r), c)
    | .push r => (.done (some r), keep L pattern r c)

end SharedCache

end NumberPlan.Regex
