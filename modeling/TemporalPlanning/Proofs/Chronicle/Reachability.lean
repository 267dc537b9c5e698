import Mathlib.Data.List.Nodup
import Mathlib.Tactic.Common
import TemporalPlanning.Chronicle.Reachability

/-!
# Which chains of states close

The ancestors of some states include these states and are closed under going back to a source
(`Reachability.closed_ancestors`). Therefore a state can follow another one, or open its timeline,
whenever some row of states leads there in which each state comes right after its sources
(`canFollow_of_row`).
-/

namespace TemporalPlanning

namespace Reachability

variable {states : List StateTemplate} {frontier : List String}

/-- Some states include a frontier and the sources of their templates. -/
structure Closed (unvisited : List StateTemplate) (frontier found : List String) : Prop where
  frontier_subset : frontier ⊆ found
  sources_subset : ∀ state ∈ found, ∀ t, unvisited.find? (fun t => t.name == state) = some t →
    t.sources ⊆ found

/-- Without the template of one state, those of the others are still found. Taking templates away,
one for each state visited, is how the program makes sure that its search ends. -/
theorem find?_filter_ne {unvisited : List StateTemplate} {state other : String}
    (h : other ≠ state) :
    (unvisited.filter fun t => t.name != state).find? (fun t => t.name == other) =
      unvisited.find? fun t => t.name == other := by
  rw [List.find?_filter]
  congr 1
  funext t
  by_cases ht : t.name = other
  · simp [ht, h]
  · simp [ht]

/-- One round of expansion is closed under sources, if the round after it is for fewer templates.
Each state that is expanded takes its template away, which is why the templates that are left bound
the number of rounds. -/
theorem closed_expand {n : Nat} {unvisited : List StateTemplate}
    (hn : unvisited.length ≤ n + 1)
    (ih : ∀ (unvisited : List StateTemplate) (frontier : List String), unvisited.length ≤ n →
      Closed unvisited frontier (ancestorsWithin n unvisited frontier)) :
    Closed unvisited frontier (expand (ancestorsWithin n) unvisited frontier) := by
  -- state after state of those that are to be expanded in this round
  induction frontier with
  | nil => exact ⟨List.nil_subset _, fun state h => absurd h List.not_mem_nil⟩
  | cons state frontier ihf =>
    unfold expand
    cases hfind : unvisited.find? fun t => t.name == state with
    | none =>
      refine ⟨List.cons_subset_cons _ ihf.frontier_subset, fun x hx t ht => ?_⟩
      -- a state without a template has no sources
      rcases List.mem_cons.mp hx with rfl | hx
      · exact absurd (hfind.symm.trans ht) (by simp)
      · exact List.subset_cons_of_subset _ (ihf.sources_subset x hx t ht)
    | some t =>
      have hname : t.name = state := by simpa using List.find?_some hfind
      -- the state is not visited again, which leaves fewer states
      have hlt : (unvisited.filter fun t => t.name != state).length < unvisited.length :=
        List.length_filter_lt_length_iff_exists.mpr
          ⟨t, List.mem_of_find?_eq_some hfind, by simp [hname]⟩
      obtain ⟨hfrontier, hsources⟩ :=
        ih (unvisited.filter fun t => t.name != state) (t.sources ++ frontier) (by omega)
      obtain ⟨ht, hrest⟩ := List.append_subset.mp hfrontier
      refine ⟨List.cons_subset_cons _ hrest, fun x hx u hu => ?_⟩
      refine List.subset_cons_of_subset _ ?_
      -- the sources of the state itself are in; the other templates are still there when its own is
      -- taken away
      by_cases hx' : x = state
      · subst hx'
        obtain rfl := Option.some.inj (hfind.symm.trans hu)
        exact ht
      · rw [← find?_filter_ne hx'] at hu
        exact hsources x ((List.mem_cons.mp hx).resolve_left hx') u hu

theorem closed_ancestorsWithin {n : Nat} :
    ∀ (unvisited : List StateTemplate) (frontier : List String), unvisited.length ≤ n →
      Closed unvisited frontier (ancestorsWithin n unvisited frontier) := by
  induction n with
  | zero =>
    intro unvisited frontier hn
    obtain rfl := List.length_eq_zero_iff.mp (Nat.le_zero.mp hn)
    exact ⟨List.Subset.refl _, fun state _ t ht => absurd ht (by simp)⟩
  | succ n ih => exact fun unvisited frontier hn => closed_expand hn ih

/-- **The ancestors of a frontier are closed** under going back to a source. -/
theorem closed_ancestors : Closed states frontier (ancestors states frontier) :=
  closed_ancestorsWithin states frontier (Nat.le_refl _)

end Reachability

open Reachability

variable {states : List StateTemplate}

/-- A template stands where it is found by its name, from either end. Names are distinct, so that
there is no second template for a search from the other end to run into. -/
theorem find?_reverse_eq (hnames : (states.map (·.name)).Nodup) {state : String}
    {t : StateTemplate} (h : states.find? (fun t => t.name == state) = some t) :
    states.reverse.find? (fun t => t.name == state) = some t := by
  have hmem := List.mem_of_find?_eq_some h
  have hname : t.name = state := by simpa using List.find?_some h
  have hsome : (states.reverse.find? fun t => t.name == state).isSome :=
    List.find?_isSome.mpr ⟨t, List.mem_reverse.mpr hmem, by simp [hname]⟩
  obtain ⟨u, hu⟩ := Option.isSome_iff_exists.mp hsome
  have humem := List.mem_reverse.mp (List.mem_of_find?_eq_some hu)
  have huname : u.name = state := by simpa using List.find?_some hu
  rw [hu, List.inj_on_of_nodup_map hnames humem hmem (huname.trans hname.symm)]

/-- Going down a row of states, either a state comes that opens its timeline, or the row ends. -/
theorem exists_opening_or_of_row {row : Nat → String} (previous? : Option Nat)
    {found : List String} {target : List String} (hclosed : Closed states target found) {i : Nat}
    (hrow : ∀ k ≤ i, (∀ j, previous? = some j → j < k) →
      ∃ t, states.find? (fun t => t.name == row k) = some t ∧
        ∀ v ∈ t.sources, ∃ j, k = j + 1 ∧ row j = v)
    (hprevious : ∀ j, previous? = some j → j ≤ i) (hi : row i ∈ found) :
    (∃ state ∈ found, isOpening states state) ∨ ∃ j, previous? = some j ∧ row j ∈ found := by
  -- back along the row, until it comes to its beginning or to the place it starts behind
  induction i with
  | zero =>
    by_cases hlast : previous? = some 0
    · exact .inr ⟨0, hlast, hi⟩
    · obtain ⟨t, ht, hsources⟩ := hrow 0 (Nat.le_refl _) fun j hj => by
        have := hprevious j hj
        obtain rfl : j = 0 := by omega
        exact absurd hj hlast
      -- at the beginning of the row there is no place for a source
      refine .inl ⟨_, hi, ?_⟩
      rw [isOpening, ht, List.isEmpty_iff]
      refine List.eq_nil_iff_forall_not_mem.mpr fun v hv => ?_
      obtain ⟨j, hj, -⟩ := hsources v hv
      omega
  | succ i ih =>
    by_cases hlast : previous? = some (i + 1)
    · exact .inr ⟨i + 1, hlast, hi⟩
    · have hle : ∀ j, previous? = some j → j ≤ i := fun j hj => by
        have := hprevious j hj
        have : j ≠ i + 1 := fun heq => hlast (heq ▸ hj)
        omega
      obtain ⟨t, ht, hsources⟩ := hrow (i + 1) (Nat.le_refl _) fun j hj => by
        have := hle j hj
        omega
      -- a state without sources opens its timeline, any other has one right before it
      cases hempty : t.sources with
      | nil =>
        refine .inl ⟨_, hi, ?_⟩
        rw [isOpening, ht, List.isEmpty_iff, hempty]
      | cons v rest =>
        have hv : v ∈ t.sources := hempty ▸ List.mem_cons_self
        obtain ⟨j, hj, hstate⟩ := hsources v hv
        obtain rfl : j = i := by omega
        refine ih (fun k hk => hrow k (by omega)) hle ?_
        rw [hstate]
        exact hclosed.sources_subset _ hi t ht hv

/-- **A state can follow where a row of states leads to it.** The row comes from the place
`previous?`, or from the front of the timeline, and each state after that comes right after its
sources. -/
theorem canFollow_of_row (hnames : (states.map (·.name)).Nodup) {row : Nat → String}
    {previous? : Option Nat} {k : Nat}
    (hrow : ∀ i ≤ k, (∀ j, previous? = some j → j < i) →
      ∃ t, states.find? (fun t => t.name == row i) = some t ∧
        ∀ v ∈ t.sources, ∃ j, i = j + 1 ∧ row j = v)
    (hprevious : ∀ j, previous? = some j → j < k) :
    canFollow states (row k) (previous?.map row) := by
  obtain ⟨t, ht, hsources⟩ := hrow k (Nat.le_refl _) hprevious
  have hmem := List.mem_of_find?_eq_some ht
  have hname : t.name = row k := by simpa using List.find?_some ht
  have rooted : isRooted states t → canFollow states (row k) (previous?.map row) := by
    intro h
    refine Bool.or_eq_true_iff.mpr (.inl (List.any_eq_true.mpr ⟨t, hmem, ?_⟩))
    rw [hname, beq_self_eq_true, Bool.true_and]
    exact h
  -- without sources the state opens its timeline itself
  cases hempty : t.sources with
  | nil => exact rooted (by simp [isRooted, hempty])
  | cons v rest =>
    have hv : v ∈ t.sources := hempty ▸ List.mem_cons_self
    obtain ⟨i, rfl, hstate⟩ := hsources v hv
    -- else it comes right after one of its sources, and from there the row leads back
    have hclosed : Closed states t.sources (ancestors states t.sources) := closed_ancestors
    rcases exists_opening_or_of_row previous? hclosed (i := i)
      (fun j hj => hrow j (by omega)) (fun j hj => by have := hprevious j hj; omega)
      (hstate ▸ hclosed.frontier_subset hv) with ⟨state, hstate, hopening⟩ | ⟨j, hj, hrow⟩
    · exact rooted (Bool.or_eq_true_iff.mpr (.inr (List.any_eq_true.mpr ⟨state, hstate, hopening⟩)))
    · refine Bool.or_eq_true_iff.mpr (.inr ?_)
      rw [hj, Option.map_some, find?_reverse_eq hnames ht]
      exact List.contains_iff_mem.mpr hrow

end TemporalPlanning
