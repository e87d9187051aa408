/-!
# Distances

For a reference to a local variable, scoping finds how many frames lie between the one in which the
reference is evaluated and the one that holds the variable. `Distances` keeps that number under the
number of the reference. A reference without a distance is looked up among the globals.
-/

namespace Lox.Scoping

/-- The distances of references to local variables. -/
structure Distances where
  /-- Pairs of a reference and its distance, the latest first. -/
  entries : List (Nat × Nat) := []
deriving DecidableEq, Repr

namespace Distances

/-- The distance of a reference, if it has one. -/
def find? (d : Distances) (id : Nat) : Option Nat :=
  d.entries.lookup id

/-- Keeps the distance of a reference. -/
def note (d : Distances) (id distance : Nat) : Distances :=
  ⟨(id, distance) :: d.entries⟩

/-- Drops the distances of all references from a number on. -/
def forgetFrom (d : Distances) (id : Nat) : Distances :=
  ⟨d.entries.filter (·.1 < id)⟩

/-- The number of references that have a distance. -/
def size (d : Distances) : Nat :=
  d.entries.length

/-- A distance that is noted is found, and the others stay as they are. -/
theorem find?_note (d : Distances) (id distance id' : Nat) :
    (d.note id distance).find? id' = if id' = id then some distance else d.find? id' := by
  unfold find? note
  by_cases h : id' = id
  · simp [h]
  · simp [h, List.lookup_cons, beq_false_of_ne h]

end Distances

end Lox.Scoping
