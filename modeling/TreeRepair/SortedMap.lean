/-!
Maps and sets of texts in the order of their characters' code points, as lists of pairs. Putting a
value under a key that is there replaces the old one.
-/
namespace TreeRepair

/-- Keys with values, in the order of keys. -/
abbrev SortedMap (α : Type) := List (String × α)

namespace SortedMap

variable {α : Type}

/-- A map with a value under a key. -/
def put (key : String) (value : α) : SortedMap α → SortedMap α
  | [] => [(key, value)]
  | (k, v) :: rest =>
    if key = k then (key, value) :: rest
    else if key < k then (key, value) :: (k, v) :: rest
    else (k, v) :: put key value rest

/-- The map of pairs; of several with one key the last one counts. -/
def ofList (pairs : List (String × α)) : SortedMap α :=
  pairs.foldl (fun m (key, value) => put key value m) []

/-- The value under a key. -/
def get? (m : SortedMap α) (key : String) : Option α := m.lookup key

/-- Whether there is a value under a key. -/
def contains (m : SortedMap α) (key : String) : Bool := (m.get? key).isSome

/-- The keys in order. -/
def keys (m : SortedMap α) : List String := m.map (·.1)

end SortedMap

/-- Texts in order, each once. -/
def sortedSet (texts : List String) : List String := (SortedMap.ofList (texts.map (·, ()))).keys

end TreeRepair
