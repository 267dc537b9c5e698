import Mathlib.Algebra.Order.BigOperators.Group.List
import Mathlib.Algebra.Order.Ring.Nat
import Mathlib.Data.List.MinMax
import Mathlib.Data.List.Perm.Subperm
import Mathlib.Order.Nat
import TemporalPlanning.Usage

/-!
# Units in use

The units in use at an instant are a sum over the usages that go on then. So they are no fewer if
more usages are listed (`Usage.total_le_of_subperm`), nor at an instant at which whatever went on
still does (`Usage.total_le_total`).

A peak looks at the starts of the usages alone, and yet it is the greatest number of units in use at
any instant (`Usage.isGreatest_peak`). Whatever goes on at an instant has started by then, and it
all goes on when the last of it starts (`Usage.total_le_peak`). Usages that stop where they start or
before never go on; they are sampled, but they add to no sum.
-/

namespace TemporalPlanning

section

variable {α : Type} {as as' : List α}

/-- Images of fewer elements are fewer images. -/
theorem subperm_map {β : Type} (f : α → β) (h : as.Subperm as') :
    (as.map f).Subperm (as'.map f) := by
  obtain ⟨bs, hbs, hsub⟩ := h
  exact ⟨bs.map f, hbs.map f, hsub.map f⟩

/-- A list that is not empty has a greatest element in every respect. -/
theorem exists_greatest (f : α → Int) (h : as ≠ []) : ∃ a ∈ as, ∀ b ∈ as, f b ≤ f a := by
  obtain ⟨a, ha⟩ := Option.ne_none_iff_exists'.mp fun hnone : as.argmax f = none =>
    h (List.argmax_eq_none.mp hnone)
  exact ⟨a, List.argmax_mem ha, fun b hb => List.le_of_mem_argmax hb ha⟩

/-- Among more elements no less is counted. -/
theorem sum_filter_le_of_subperm {f : α → Nat} {p : α → Bool} (h : as.Subperm as') :
    ((as.filter p).map f).sum ≤ ((as'.filter p).map f).sum := by
  obtain ⟨amounts, hperm, hsub⟩ := subperm_map f (h.filter p)
  rw [← hperm.sum_eq]
  exact hsub.sum_le_sum fun _ _ => Nat.zero_le _

/-- A test that more elements pass counts no less. -/
theorem sum_filter_le {f : α → Nat} {p q : α → Bool} (h : ∀ a ∈ as, p a = true → q a = true) :
    ((as.filter p).map f).sum ≤ ((as.filter q).map f).sum := by
  have hfilter : as.filter p = (as.filter q).filter p := by
    rw [List.filter_filter]
    refine List.filter_congr fun a ha => ?_
    rw [Bool.eq_iff_iff, Bool.and_eq_true, iff_self_and]
    exact h a ha
  rw [hfilter]
  exact (List.filter_sublist.map _).sum_le_sum fun _ _ => Nat.zero_le _

end

namespace Usage

variable {usages usages' : List Usage} {t t' : Int}

/-- A usage is active from its start until before its stop, and never if it stops where it starts.
-/
theorem activeAt_iff {u : Usage} : activeAt t u = true ↔ u.start ≤ t ∧ t < u.stop := by
  simp [activeAt]

/-! ### The units at an instant -/

/-- The units in use at an instant are those of the usages that are active then. -/
theorem total_eq_sum : total usages t = ((usages.filter (activeAt t)).map (·.amount)).sum := by
  rw [total, List.sum_eq_foldr, List.foldr_map]

/-- The test of being active, as a decision of the two inequalities. -/
theorem activeAt_eq_decide : activeAt t = fun u => decide (u.start ≤ t ∧ t < u.stop) :=
  funext fun _ => (Bool.decide_and _ _).symm

/-- The units in use at an instant, usage by usage. -/
theorem total_eq_sum_ite (usages : List Usage) (t : Int) : total usages t =
    (usages.map fun u => if u.start ≤ t ∧ t < u.stop then u.amount else 0).sum := by
  rw [List.sum_map_ite, total_eq_sum, activeAt_eq_decide]
  simp

/-- A usage adds its units at the instants where it is active. -/
theorem total_cons (u : Usage) (usages : List Usage) (t : Int) :
    total (u :: usages) t = (if activeAt t u then u.amount else 0) + total usages t := by
  rw [total_eq_sum, total_eq_sum, List.filter_cons]
  split
  · rw [List.map_cons, List.sum_cons]
  · rw [Nat.zero_add]

/-- Units in use add up over lists of usages. -/
theorem total_append (usages usages' : List Usage) (t : Int) :
    total (usages ++ usages') t = total usages t + total usages' t := by
  rw [total_eq_sum, List.filter_append, List.map_append, List.sum_append, ← total_eq_sum,
    ← total_eq_sum]

/-- Fewer usages take fewer units. -/
theorem total_le_of_subperm (h : usages.Subperm usages') : total usages t ≤ total usages' t := by
  rw [total_eq_sum, total_eq_sum]
  exact sum_filter_le_of_subperm h

/-- At an instant at which everything goes on that goes on at another, no fewer units are in use. -/
theorem total_le_total (h : ∀ u ∈ usages, activeAt t u = true → activeAt t' u = true) :
    total usages t ≤ total usages t' := by
  rw [total_eq_sum, total_eq_sum]
  exact sum_filter_le h

/-- Usages of which every two overlap are all in use when the last of them starts. -/
theorem exists_total_eq_sum (hlasts : ∀ u ∈ usages, u.start < u.stop)
    (h : usages.Pairwise fun u v => u.start < v.stop ∧ v.start < u.stop) :
    ∃ t, total usages t = (usages.map (·.amount)).sum := by
  by_cases hnone : usages = []
  · exact ⟨0, by simp [hnone, total]⟩
  · obtain ⟨last, hlast, hmax⟩ := exists_greatest (·.start) hnone
    -- all go on at the latest start: each has begun by then, and none has ended
    refine ⟨last.start, ?_⟩
    have hall : ∀ u ∈ usages, ∀ v ∈ usages, u.start < v.stop ∧ v.start < u.stop := fun u hu v hv =>
      List.Pairwise.forall_of_forall_of_flip (fun u hu => ⟨hlasts u hu, hlasts u hu⟩) h
        (h.imp And.symm) hu hv
    rw [total_eq_sum, List.filter_eq_self.mpr fun u hu =>
      activeAt_iff.mpr ⟨hmax u hu, (hall last hlast u hu).1⟩]

/-! ### The units across an instant -/

/-- The units that are in use both before and after an instant. -/
def across (usages : List Usage) (t : Int) : Nat :=
  ((usages.filter fun u => u.start < t && t < u.stop).map (·.amount)).sum

theorem across_le_of_subperm (h : usages.Subperm usages') : across usages t ≤ across usages' t :=
  sum_filter_le_of_subperm h

/-- A usage of an instant that overlaps all other ones lies inside them. It starts and stops at one
instant, and a usage that overlaps it has begun before and ends after. -/
theorem sum_le_across {u : Usage} (hu : u ∈ usages) (hstop : u.stop ≤ u.start)
    (h : usages.Pairwise fun u v => u.start < v.stop ∧ v.start < u.stop) :
    (usages.map (·.amount)).sum ≤ u.amount + across usages u.start := by
  obtain ⟨before, after, rfl⟩ := List.append_of_mem hu
  obtain ⟨-, hafter, hbefore⟩ := List.pairwise_append.mp h
  -- a usage that overlaps an instant begins before it and ends after it
  have hinside : ∀ v ∈ before ++ after, v.start < u.start ∧ u.start < v.stop := by
    intro v hv
    rcases List.mem_append.mp hv with hv | hv
    · have := hbefore v hv u List.mem_cons_self
      omega
    · have := (List.pairwise_cons.mp hafter).1 v hv
      omega
  -- so that all of the other ones count as going on across it
  have hself : (before ++ after).filter (fun v => v.start < u.start && u.start < v.stop) =
      before ++ after :=
    List.filter_eq_self.mpr fun v hv => by simpa using hinside v hv
  calc ((before ++ u :: after).map (·.amount)).sum
      = u.amount + ((before ++ after).map (·.amount)).sum := by
        rw [(List.perm_middle.map _).sum_eq, List.map_cons, List.sum_cons]
    _ = u.amount + across (before ++ after) u.start := by rw [across, hself]
    _ ≤ u.amount + across (before ++ u :: after) u.start :=
        Nat.add_le_add_left (across_le_of_subperm
          ((List.Sublist.refl before).append (List.sublist_cons_self u after)).subperm) _

/-! ### The peak -/

/-- A peak is the greatest number of units at a start. -/
theorem peak_le_iff {n : Nat} : peak usages ≤ n ↔ ∀ u ∈ usages, total usages u.start ≤ n := by
  rw [peak, ← List.forall_mem_map (P := (· ≤ n))]
  exact ⟨fun h k hk => (List.le_max_of_le hk le_rfl).trans h, List.max_le_of_forall_le _ n⟩

/-- A peak that is not 0 is reached at a start. -/
theorem exists_eq_peak (h : 0 < peak usages) :
    ∃ u ∈ usages, peak usages = total usages u.start := by
  have hreached : ¬ peak usages ≤ peak usages - 1 := by omega
  rw [peak_le_iff] at hreached
  push Not at hreached
  obtain ⟨u, hu, hlt⟩ := hreached
  have hle := peak_le_iff.mp le_rfl u hu
  exact ⟨u, hu, by omega⟩

/-- No instant needs more than the peak: what is in use then was in use when the last of it
started. -/
theorem total_le_peak (usages : List Usage) (t : Int) : total usages t ≤ peak usages := by
  by_cases hnone : usages.filter (activeAt t) = []
  · -- nothing is in use at `t`
    rw [total_eq_sum, hnone]
    exact Nat.zero_le _
  · obtain ⟨last, hlast, hmax⟩ := exists_greatest (·.start) hnone
    obtain ⟨hmem, hactive⟩ := List.mem_filter.mp hlast
    -- the others have started with the last one or before, and they stop after `t`
    have hgoes : ∀ u ∈ usages, activeAt t u = true → activeAt last.start u = true := by
      intro u hu hut
      have hstarted := (activeAt_iff.mp hactive).1
      have hstop := (activeAt_iff.mp hut).2
      exact activeAt_iff.mpr ⟨hmax u (List.mem_filter.mpr ⟨hu, hut⟩), hstarted.trans_lt hstop⟩
    calc total usages t ≤ total usages last.start := total_le_total hgoes
      _ ≤ peak usages := peak_le_iff.mp le_rfl last hmem

/-- **The starts show the true peak.** For any usages, also such that never go on, the peak is the
greatest of the sums of units over what goes on at an instant, whatever the instant is. Without
usages all these sums are 0, and so is the peak. -/
theorem isGreatest_peak (usages : List Usage) :
    IsGreatest (Set.range fun t : Int =>
      ((usages.filter fun u => u.start ≤ t ∧ t < u.stop).map (·.amount)).sum) (peak usages) := by
  have htotal : ∀ t : Int,
      ((usages.filter fun u => u.start ≤ t ∧ t < u.stop).map (·.amount)).sum = total usages t :=
    fun t => by rw [total_eq_sum, activeAt_eq_decide]
  simp only [htotal]
  constructor
  · rcases Nat.eq_zero_or_pos (peak usages) with hzero | hpos
    · -- nothing is ever in use, so any instant will do
      exact ⟨0, (Nat.le_zero.mp (hzero ▸ total_le_peak usages 0)).trans hzero.symm⟩
    · -- a positive peak is what is in use where one of the usages starts
      obtain ⟨u, -, hpeak⟩ := exists_eq_peak hpos
      exact ⟨u.start, hpeak.symm⟩
  · rintro _ ⟨t, rfl⟩
    exact total_le_peak usages t

/-- The usage of an instant and the one that stops before it starts take no part. -/
example : peak [⟨0, 10, 1⟩, ⟨5, 5, 4⟩, ⟨7, 3, 9⟩, ⟨2, 6, 2⟩, ⟨2, 6, 2⟩] = 5 := by decide

end Usage

end TemporalPlanning
