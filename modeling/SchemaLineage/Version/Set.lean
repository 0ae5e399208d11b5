import SchemaLineage.Version.Basic

/-!
Finite sets of versions, kept as strictly increasing lists. Two sets with the same members are
equal, and the rank of a member is its place in ascending order.
-/
namespace SchemaLineage

structure VersionSet where
  toList : List Version
  sorted : toList.Pairwise (· < ·)
  deriving DecidableEq

namespace VersionSet

instance : Membership Version VersionSet := ⟨fun s v => v ∈ s.toList⟩

instance (v : Version) (s : VersionSet) : Decidable (v ∈ s) :=
  inferInstanceAs (Decidable (v ∈ s.toList))

def insertSorted (v : Version) : List Version → List Version
  | [] => [v]
  | w :: ws =>
    if v < w then v :: w :: ws
    else if w < v then w :: insertSorted v ws
    else w :: ws

theorem mem_insertSorted {u v : Version} {ws : List Version} :
    u ∈ insertSorted v ws ↔ u = v ∨ u ∈ ws := by
  induction ws with
  | nil => simp [insertSorted]
  | cons w ws ih =>
    simp only [insertSorted]
    split
    · simp
    · rename_i hvw
      split
      · simp only [List.mem_cons, ih]
        exact or_left_comm
      · rename_i hwv
        have : v = w := Version.eq_of_not_lt hvw hwv
        simp [this]

theorem pairwise_insertSorted (v : Version) {ws : List Version} (h : ws.Pairwise (· < ·)) :
    (insertSorted v ws).Pairwise (· < ·) := by
  induction ws with
  | nil => simp [insertSorted]
  | cons w ws ih =>
    obtain ⟨hw, hws⟩ := List.pairwise_cons.1 h
    simp only [insertSorted]
    split
    · rename_i hvw
      refine List.pairwise_cons.2 ⟨fun u hu => ?_, h⟩
      rcases List.mem_cons.1 hu with rfl | hu
      · exact hvw
      · exact Version.lt_trans hvw (hw u hu)
    · split
      · rename_i hwv
        refine List.pairwise_cons.2 ⟨fun u hu => ?_, ih hws⟩
        rcases mem_insertSorted.1 hu with rfl | hu
        · exact hwv
        · exact hw u hu
      · exact h

def empty : VersionSet := ⟨[], List.Pairwise.nil⟩

def insert (s : VersionSet) (v : Version) : VersionSet :=
  ⟨insertSorted v s.toList, pairwise_insertSorted v s.sorted⟩

theorem mem_insert {s : VersionSet} {u v : Version} : u ∈ s.insert v ↔ u = v ∨ u ∈ s :=
  mem_insertSorted

def ofList (vs : List Version) : VersionSet :=
  vs.foldl insert empty

def union (s t : VersionSet) : VersionSet :=
  t.toList.foldl insert s

def size (s : VersionSet) : Nat := s.toList.length

def isEmpty (s : VersionSet) : Bool := s.toList.isEmpty

def min? (s : VersionSet) : Option Version := s.toList.head?

def max? (s : VersionSet) : Option Version := s.toList.getLast?

/-- The number of members below `v`, if `v` is a member. -/
def rank? (s : VersionSet) (v : Version) : Option Nat := s.toList.idxOf? v

def text (s : VersionSet) : String :=
  "\x7b" ++ ", ".intercalate (s.toList.map Version.dotted) ++ "\x7d"

end VersionSet

end SchemaLineage
