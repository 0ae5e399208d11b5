import SchemaLineage.Version.Set

/-!
Conditions on versions, and the classification of a set of versions against the set of all observed
ones. A contiguous run of the observed versions has a condition that singles it out among them: the
run that holds all of them is unconditional, one that reaches an end needs a single bound, and any
other needs two.
-/
namespace SchemaLineage

/-- A range of versions with up to two bounds, which belong to it. -/
inductive Condition where
  | always
  | atLeast (low : Version)
  | atMost (high : Version)
  | between (low high : Version)
  deriving DecidableEq

namespace Condition

def holds (c : Condition) (v : Version) : Bool :=
  match c with
  | always => true
  | atLeast low => low ≤ v
  | atMost high => v ≤ high
  | between low high => low ≤ v && v ≤ high

def text : Condition → String
  | always => "always"
  | atLeast low => "version >= " ++ low.dotted
  | atMost high => "version <= " ++ high.dotted
  | between low high => low.dotted ++ " <= version <= " ++ high.dotted

/-- The narrowest condition that singles out `subset` among the observed versions. There is none if
the subset is empty, has members that were not observed, or skips an observed version. -/
def classify (subset observed : VersionSet) : Option Condition := do
  let ranks ← subset.toList.mapM observed.rank?
  let first ← ranks.head?
  let last ← ranks.getLast?
  let low ← subset.min?
  let high ← subset.max?
  if last - first + 1 ≠ ranks.length then none
  else if first = 0 then
    if last + 1 = observed.size then some always else some (atMost high)
  else
    if last + 1 = observed.size then some (atLeast low) else some (between low high)

end Condition

end SchemaLineage
