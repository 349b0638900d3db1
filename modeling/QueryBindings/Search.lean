/-!
Breadth-first search through a finite table of named entries.

A search starts from requests, each for one name. Expanding an entry gives what is found there and
the requests that follow from it, which belong to the next level. Every name is expanded once, so
the search ends when a level finds nothing new, and its results are in the order of discovery.
-/
namespace QueryBindings

/-- How requests are answered: the name that a request asks for, the error for a name that the table
does not hold, and the expansion of an entry. -/
structure Search (ρ β γ ε : Type) where
  table : List (String × β)
  name : ρ → String
  missing : ρ → ε
  expand : ρ → β → Except ε (γ × List ρ)

namespace Search

variable {ρ β γ ε : Type}

def isFound (found : List (String × γ)) (name : String) : Bool := found.any (·.1 == name)

/-- Expands the requests of one level, and gives the requests of the next. -/
def level (s : Search ρ β γ ε) (found : List (String × γ)) :
    List ρ → Except ε (List (String × γ) × List ρ)
  | [] => .ok (found, [])
  | r :: rest =>
    if isFound found (s.name r) then level s found rest
    else match s.table.lookup (s.name r) with
      | none => .error (s.missing r)
      | some entry => do
        let (result, next) ← s.expand r entry
        let (found, later) ← level s (found ++ [(s.name r, result)]) rest
        return (found, next ++ later)

/-- The number of entries whose names have not been found. -/
def remaining (s : Search ρ β γ ε) (found : List (String × γ)) : Nat :=
  s.table.countP fun entry => !isFound found entry.1

/-- Expands level after level. A level that finds nothing new asks for nothing either, so to stop
there leaves no request open. -/
def close (s : Search ρ β γ ε) (found : List (String × γ)) (requests : List ρ) :
    Except ε (List (String × γ)) :=
  match s.level found requests with
  | .error e => .error e
  | .ok (found', next) =>
    if s.remaining found' < s.remaining found then close s found' next else .ok found'
termination_by s.remaining found

/-- Everything that is reached from the requests, each name with its result. -/
def run (s : Search ρ β γ ε) (requests : List ρ) : Except ε (List (String × γ)) :=
  s.close [] requests

end Search

end QueryBindings
