import NumberPlan.Metadata.Collection
import NumberPlan.Metadata.Store

/-!
# Loading record files once

An archive fills its store from files.  A file is loaded when it is first needed;
once that has succeeded it is not asked for again.  A file that fails leaves no
trace, and the next request tries again.

    a.require parse files f    loads f unless it has been loaded

Any function may parse the files.
-/

namespace NumberPlan

/-- What there is to load, by name; `none` for names without a file. -/
abbrev Files := String → Option (List UInt8)

namespace Files

def empty : Files := fun _ => none

/-- The same files, and this one in place of any of its name. -/
def put (file : String) (bytes : List UInt8) (files : Files) : Files :=
  fun name => if name = file then some bytes else files name

/-- The same files without this one. -/
def delete (file : String) (files : Files) : Files :=
  fun name => if name = file then none else files name

end Files

/-- A request's answer, the state after it, and the files it asked for, in order. -/
structure Reply (σ α : Type) where
  answer : α
  state : σ
  asked : List String
  deriving Repr

/-- The files loaded, latest first, and their records. -/
structure Archive where
  loaded : List String
  store : Store
  deriving DecidableEq, Repr

namespace Archive

def empty : Archive := ⟨[], .empty⟩

def isLoaded (a : Archive) (file : String) : Bool := a.loaded.contains file

/-- The records of a file. -/
def readFile (parse : FileParser) (files : Files) (file : String) :
    Except MetadataError (List Record) :=
  match files file with
  | none => .error (.missing file)
  | some bytes =>
    match parse bytes with
    | .error e => .error (.malformed file e)
    | .ok rs => .ok rs

/-- Makes sure that a file is loaded, and answers with the store. -/
def require (parse : FileParser) (files : Files) (file : String) (a : Archive) :
    Reply Archive (Except MetadataError Store) :=
  if a.isLoaded file then ⟨.ok a.store, a, []⟩
  else
    match readFile parse files file with
    | .error e => ⟨.error e, a, [file]⟩
    | .ok rs =>
      let store := a.store.acceptAll rs
      ⟨.ok store, ⟨file :: a.loaded, store⟩, [file]⟩

end Archive

/-- The same request `n` times, one after the other. -/
def repeatRequest {σ α : Type} (request : σ → Reply σ α) : (n : Nat) → σ → Reply σ (List α)
  | 0, s => ⟨[], s, []⟩
  | n + 1, s =>
    let r := request s
    let rest := repeatRequest request n r.state
    ⟨r.answer :: rest.answer, rest.state, r.asked ++ rest.asked⟩

end NumberPlan
