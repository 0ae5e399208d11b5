/-!
Grouping pairs by their keys. The keys come out in the order of their first occurrence, each with
its values in their order.
-/
namespace SchemaLineage

variable {κ β : Type} [DecidableEq κ]

/-- Adds a value to the group of its key, which is made at the end if there is none. -/
def addToGroup (key : κ) (value : β) : List (κ × List β) → List (κ × List β)
  | [] => [(key, [value])]
  | (k, values) :: rest =>
    if k = key then (k, values ++ [value]) :: rest
    else (k, values) :: addToGroup key value rest

def groupByKey (pairs : List (κ × β)) : List (κ × List β) :=
  pairs.foldl (fun groups pair => addToGroup pair.1 pair.2 groups) []

end SchemaLineage
