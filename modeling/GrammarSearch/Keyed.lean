/-!
# Keyed entries

Members of JSON objects and parameters of productions are entries under keys.
What counts is the map from keys to values, in which a later entry takes the
place of an earlier one of the same key; its normal form lists the entries in
ascending order of key.
-/

namespace GrammarSearch

namespace Keyed

variable {α : Type}

/-- Adds an entry to entries in ascending order; an entry of the same key is replaced. -/
def insert (key : String) (value : α) : List (String × α) → List (String × α)
  | [] => [(key, value)]
  | entry :: rest =>
    if key < entry.1 then (key, value) :: entry :: rest
    else if key = entry.1 then (key, value) :: rest
    else entry :: insert key value rest

/-- The entries in ascending order, the last one of each key. -/
def sort (entries : List (String × α)) : List (String × α) :=
  entries.foldl (fun sorted entry => insert entry.1 entry.2 sorted) []

end Keyed

end GrammarSearch
