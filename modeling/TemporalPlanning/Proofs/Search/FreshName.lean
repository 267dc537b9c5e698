import TemporalPlanning.Proofs.Model.Load
import TemporalPlanning.Proofs.Undo
import Mathlib.Data.List.Nodup
import Mathlib.Data.List.Perm.Subperm

/-!
# New names

Among the numbers that a search tries for the name of a new object there is one that makes the name
new, because there are more numbers than objects (`Task.isTaken_freshName`). It takes the least one
(`Task.exists_freshName_eq`).
-/

namespace TemporalPlanning

namespace Task

variable {task : Task} {s : PartialPlan} {name : String}

/-- All names that are in use. -/
def takenNames (task : Task) (s : PartialPlan) : List String :=
  task.model.names.map (·.1) ++ s.chronicle.timelines.toList.map (·.name) ++
    s.reservations.resources.toList.map (·.name)

/-- A name is taken if it is among the names that are in use. Names are in use by objects of the
model, by timelines and by resources, and created objects count like declared ones. -/
theorem isTaken_eq_true_iff : task.isTaken s name ↔ name ∈ task.takenNames s := by
  have lookup : (task.model.names.lookup name).isSome ↔ name ∈ task.model.names.map (·.1) := by
    induction task.model.names with
    | nil => simp
    | cons a names ih =>
      rw [Load.lookup_cons_eq, List.map_cons, List.mem_cons]
      by_cases h : name = a.1
      · simp [h]
      · rw [if_neg h, ih]
        exact (or_iff_right h).symm
  -- timelines and resources are looked up by their names
  simp only [isTaken, Model.hasObject, Chronicle.find?, ReservationBook.find?, takenNames,
    Bool.or_eq_true, List.mem_append, lookup, Option.isSome_map, List.findIdx?_isSome,
    List.any_eq_true, List.mem_map, beq_iff_eq]

/-- A fresh name is new. There are more numbers to try than names in use, so that one of the numbers
is free. -/
theorem isTaken_freshName (className : String) :
    task.isTaken s (task.freshName s className) = false := by
  let name (n : Nat) : String := s!"{className}_{n}"
  let objects := (task.takenNames s).length
  have hobjects : objects =
      task.model.names.length + s.chronicle.timelines.size + s.reservations.resources.size := by
    simp only [objects, takenNames, List.length_append, List.length_map, Array.length_toList]
  have hname : task.freshName s className =
      name (((List.range objects).find? fun n => !task.isTaken s (name n)).getD objects) := by
    rw [hobjects]
    rfl
  rw [hname]
  cases hfind : (List.range objects).find? fun n => !task.isTaken s (name n) with
  | some n => simpa using List.find?_some hfind
  | none =>
    -- all numbers below the number of objects are in use
    rw [List.find?_eq_none] at hfind
    rw [Option.getD_none]
    by_contra htaken
    rw [Bool.not_eq_false] at htaken
    -- otherwise there are more names in use than there are objects
    have hall : (List.range (objects + 1)).map name ⊆ task.takenNames s := by
      intro x hx
      obtain ⟨n, hn, rfl⟩ := List.mem_map.mp hx
      rw [← isTaken_eq_true_iff]
      rcases Nat.lt_succ_iff_lt_or_eq.mp (List.mem_range.mp hn) with hlt | rfl
      · simpa using hfind n (List.mem_range.mpr hlt)
      · exact htaken
    -- different numbers make different names
    have hnodup : ((List.range (objects + 1)).map name).Nodup :=
      List.Nodup.map (fun n k hnk => Model.created_name_inj hnk) List.nodup_range
    have := (List.subperm_of_subset hnodup hall).length_le
    rw [List.length_map, List.length_range] at this
    exact absurd this (by simp only [objects]; omega)

/-- A fresh name has the least number that makes it new. All smaller numbers have been tried and
found in use. -/
theorem exists_freshName_eq (className : String) :
    ∃ n : Nat, task.freshName s className = s!"{className}_{n}" ∧
      ∀ k < n, task.isTaken s s!"{className}_{k}" = true := by
  refine ⟨_, rfl, fun k hk => ?_⟩
  cases hfind : (List.range (task.model.names.length + s.chronicle.timelines.size +
      s.reservations.resources.size)).find? fun n => !task.isTaken s s!"{className}_{n}" with
  -- every number of the range is taken, and the default is the one behind them
  | none =>
    rw [hfind, Option.getD_none] at hk
    simpa using List.find?_eq_none.mp hfind k (List.mem_range.mpr hk)
  | some n =>
    rw [hfind, Option.getD_some] at hk
    simpa using (List.find?_range_eq_some.mp hfind).2.2 k hk

/-- Nothing bears a name that is not taken: no object of the model and none that was created. -/
theorem ne_of_not_isTaken (h : task.isTaken s name = false) :
    task.model.hasObject name = false ∧
      (∀ id t, s.chronicle.timeline id = .ok t → t.name ≠ name) ∧
      ∀ id r, s.reservations.resource? id = some r → r.name ≠ name := by
  have hnot : ¬ name ∈ task.takenNames s := by
    rw [← isTaken_eq_true_iff, h]
    exact Bool.false_ne_true
  -- the names of timelines and resources are among those that are taken
  refine ⟨?_, fun id t ht heq => hnot ?_, fun id r hr heq => hnot ?_⟩
  · unfold isTaken at h
    rw [Bool.or_eq_false_iff, Bool.or_eq_false_iff] at h
    exact h.1.1
  · refine List.mem_append_left _ (List.mem_append_right _ (List.mem_map.mpr ⟨t, ?_, heq⟩))
    exact Chronicle.mem_timelines.mpr ⟨id, ht⟩
  · refine List.mem_append_right _ (List.mem_map.mpr ⟨r, ?_, heq⟩)
    exact ReservationBook.mem_resources.mpr ⟨id, hr⟩

end Task

end TemporalPlanning
