/-!
# Sorted names

Names in the order of their code points, each once.
-/

namespace TemporalPlanning

/-- Puts a name into a sorted list, unless it is there already. -/
def insertName (s : String) : List String → List String
  | [] => [s]
  | t :: rest =>
    if s < t then s :: t :: rest
    else if s = t then t :: rest
    else t :: insertName s rest

/-- The names of a list, sorted and without repetition. -/
def sortedNames (names : List String) : List String := names.foldr insertName []

theorem mem_insertName {s n : String} {names : List String} :
    n ∈ insertName s names ↔ n = s ∨ n ∈ names := by
  induction names with
  | nil => simp [insertName]
  | cons t rest ih =>
    unfold insertName
    split
    · simp
    · split
      · rename_i h; simp [h]
      · simp [ih, or_left_comm]

@[simp] theorem mem_sortedNames {n : String} {names : List String} :
    n ∈ sortedNames names ↔ n ∈ names := by
  induction names with
  | nil => simp [sortedNames]
  | cons t rest ih =>
    have : sortedNames (t :: rest) = insertName t (sortedNames rest) := rfl
    simp [this, mem_insertName, ih]

end TemporalPlanning
