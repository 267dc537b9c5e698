import Mathlib.Algebra.Order.BigOperators.Group.Finset
import Mathlib.Algebra.Order.Field.Rat
import Mathlib.Data.Int.Interval
import TemporalPlanning.Proofs.Plan.Metrics
import TemporalPlanning.Proofs.Plan.Solution

/-!
# Utilization

The work that a plan does on a resource is the number of units in use, summed over all instants
until the last token has ended (`Usage.sum_total`). At no instant of a verified plan is more in use
than there is. So the work is at most the capacity times the makespan, and the share of a resource
that is used lies between 0 and 1 (`Plan.utilization_le_one`).
-/

namespace TemporalPlanning

/-! ### Work as a sum over instants -/

namespace Usage

/-- A usage takes its units as often as it has instants. The stretch from 0 to `n` has to contain
the whole usage, or a part of it would not be counted. -/
theorem sum_activeAt {u : Usage} {n : Int} (hstart : 0 ≤ u.start) (hle : u.start ≤ u.stop)
    (hstop : u.stop ≤ n) : ∑ t ∈ Finset.Ico 0 n, (if activeAt t u then (u.amount : Int) else 0) =
      (u.stop - u.start) * (u.amount : Int) := by
  -- its instants are a stretch of those that are summed over
  have hspan : (Finset.Ico 0 n).filter (fun t => activeAt t u) = Finset.Ico u.start u.stop := by
    ext t
    rw [Finset.mem_filter, activeAt_iff, Finset.mem_Ico, Finset.mem_Ico]
    omega
  rw [← Finset.sum_filter, hspan, Finset.sum_const, Int.card_Ico, nsmul_eq_mul,
    Int.toNat_of_nonneg (sub_nonneg.mpr hle)]

/-- **The units in use, summed over all instants, are the units times the lengths**, summed over all
usages. -/
theorem sum_total {usages : List Usage} {n : Int}
    (h : ∀ u ∈ usages, 0 ≤ u.start ∧ u.start ≤ u.stop ∧ u.stop ≤ n) :
    ∑ t ∈ Finset.Ico 0 n, (total usages t : Int) = Plan.busyTime usages := by
  -- along the usages, not along the instants
  induction usages with
  | nil => simp [total, Plan.busyTime]
  | cons u usages ih =>
    obtain ⟨⟨hstart, hle, hstop⟩, h⟩ := List.forall_mem_cons.mp h
    have hcons : ∀ t, (total (u :: usages) t : Int) =
        (if activeAt t u then (u.amount : Int) else 0) + (total usages t : Int) := by
      intro t
      rw [total_cons]
      push_cast
      rfl
    -- the instants of one usage are summed up apart from those of the others
    calc ∑ t ∈ Finset.Ico 0 n, (total (u :: usages) t : Int)
        = ∑ t ∈ Finset.Ico 0 n, (if activeAt t u then (u.amount : Int) else 0) +
            ∑ t ∈ Finset.Ico 0 n, (total usages t : Int) := by
          rw [← Finset.sum_add_distrib]
          exact Finset.sum_congr rfl fun t _ => hcons t
      _ = (u.stop - u.start) * (u.amount : Int) + Plan.busyTime usages := by
          rw [sum_activeAt hstart hle hstop, ih h]

end Usage

/-! ### Dates of a plan -/

/-- The durations of a declared timeline are valid, those of a state that is not declared being
free. -/
theorem TimelineDef.durationOf_isValid {m : Model} (hm : m.WellFormed) {d : TimelineDef}
    (hd : d ∈ m.timelines) (state : String) : (d.durationOf state).isValid := by
  unfold durationOf
  cases htemplate : d.template? state with
  | none => rfl
  | some template => exact (hm.allValid d hd).2 template (List.mem_of_find?_eq_some htemplate)

/-- No token that follows a declaration ends before it starts. -/
theorem PlanToken.Obeys.start_le_stop {m : Model} (hm : m.WellFormed) {d : TimelineDef}
    (hd : d ∈ m.timelines) {t : PlanToken} (h : t.Obeys d) : t.start ≤ t.stop := by
  have hlength := Duration.nonneg_of_contains (d.durationOf_isValid hm hd t.state) h.duration
  rwa [PlanToken.duration, sub_nonneg] at hlength

namespace Plan

variable {m : Model} {p : Plan}

/-- The greatest of some dates is not before any of them. The makespan is computed in this way,
starting from the first end. -/
theorem le_foldl_max {dates : List Int} {first d : Int} (h : d ≤ first ∨ d ∈ dates) :
    d ≤ dates.foldl max first := by
  induction dates generalizing first with
  | nil => exact h.resolve_right List.not_mem_nil
  | cons next dates ih =>
    rw [List.foldl_cons]
    rcases h with hle | hmem
    · exact ih (.inl (hle.trans (le_max_left first next)))
    · rcases List.mem_cons.mp hmem with rfl | hmem
      · exact ih (.inl (le_max_right first d))
      · exact ih (.inr hmem)

/-- No token ends after the makespan. For a plan without tokens the makespan is 0, and the statement
is empty. -/
theorem stop_le_makespan {e : PlanTimeline} (he : e ∈ p.timelines) {t : PlanToken}
    (ht : t ∈ e.tokens) : t.stop ≤ p.makespan := by
  have hmem : t.stop ∈ p.tokens.map (·.stop) :=
    List.mem_map_of_mem (List.mem_flatMap.mpr ⟨e, he, ht⟩)
  unfold makespan
  cases hdates : p.tokens.map (·.stop) with
  | nil => exact absurd hmem (by simp [hdates])
  | cons first dates =>
    rw [hdates] at hmem
    exact le_foldl_max ((List.mem_cons.mp hmem).imp_left le_of_eq)

/-- The tokens of a plan that obeys a model last from 0 or later until the makespan at most. -/
theorem Obeys.window (h : p.Obeys m) (hm : m.WellFormed)
    (hstarts : ∀ e ∈ p.timelines, ∀ t ∈ e.tokens, 0 ≤ t.start) {e : PlanTimeline}
    (he : e ∈ p.timelines) {t : PlanToken} (ht : t ∈ e.tokens) :
    0 ≤ t.start ∧ t.start ≤ t.stop ∧ t.stop ≤ p.makespan := by
  obtain ⟨d, hd, htokens, -⟩ := h.entries e he
  exact ⟨hstarts e he t ht,
    (htokens t ht).start_le_stop hm (Model.mem_of_timelineTemplate? hd),
    stop_le_makespan he ht⟩

end Plan

/-! ### The share of a resource -/

/-- The exact share of a resource that is used until the end of a plan; none of it in an empty
plan. -/
def Workload.share (w : Workload) (makespan : Int) : ℚ :=
  if makespan = 0 then 0 else w.busy / (w.capacity * makespan)

/-- A share of the makespan is between 0 and 1 if the busy time is between 0 and all that there is.
A makespan of 0 makes the share 0. -/
theorem Workload.share_mem {w : Workload} {makespan : Int} (hbusy : 0 ≤ w.busy)
    (hle : w.busy ≤ w.capacity * makespan) : 0 ≤ w.share makespan ∧ w.share makespan ≤ 1 := by
  unfold share
  split
  · exact ⟨le_rfl, zero_le_one⟩
  · have hbusy : (0 : ℚ) ≤ w.busy := by exact_mod_cast hbusy
    have hle : (w.busy : ℚ) ≤ w.capacity * makespan := by exact_mod_cast hle
    exact ⟨div_nonneg hbusy (hbusy.trans hle), div_le_one_of_le₀ hle (hbusy.trans hle)⟩

namespace Plan

variable {m : Model} {p : Plan}

/-- A plan that obeys a model does no more work on a resource than its capacity allows until the
makespan: the work is summed up over the instants, at each of which the capacity is kept. -/
theorem Obeys.work_le (h : p.Obeys m) (hm : m.WellFormed)
    (hstarts : ∀ e ∈ p.timelines, ∀ t ∈ e.tokens, 0 ≤ t.start) {name : String}
    (hbinds : p.Binds m name) {r : ResourceDef} (hr : m.resourceTemplate? name = some r)
    {capacity : Nat} (hcapacity : r.capacity = some capacity) :
    0 ≤ p.work m name ∧ p.work m name ≤ capacity * p.makespan := by
  have hwindow : ∀ u ∈ p.usagesOf m name, 0 ≤ u.start ∧ u.start ≤ u.stop ∧ u.stop ≤ p.makespan := by
    intro u hu
    obtain ⟨e, he, t, ht, hstart, hstop⟩ := exists_token_of_mem_usagesOf hu
    rw [hstart, hstop]
    exact h.window hm hstarts he ht
  -- the resource is bound by some token, which lies between 0 and the makespan
  have hmakespan : 0 ≤ p.makespan := by
    obtain ⟨e, he, t, ht, -⟩ := hbinds
    obtain ⟨hstart, hle, hstop⟩ := h.window hm hstarts he ht
    exact hstart.trans (hle.trans hstop)
  -- the busy time is the sum over all instants of what is in use
  rw [← busyTime_usagesOf, ← Usage.sum_total hwindow]
  refine ⟨Finset.sum_nonneg fun t _ => Int.natCast_nonneg _, ?_⟩
  -- at no instant is more in use than there is
  calc ∑ t ∈ Finset.Ico 0 p.makespan, (Usage.total (p.usagesOf m name) t : Int)
      ≤ ∑ _t ∈ Finset.Ico 0 p.makespan, (capacity : Int) := by
        refine Finset.sum_le_sum fun t _ => ?_
        exact_mod_cast h.total_le hr hcapacity t
    _ = capacity * p.makespan := by
        rw [Finset.sum_const, Int.card_Ico, sub_zero, nsmul_eq_mul,
          Int.toNat_of_nonneg hmakespan, mul_comm]

/-- **No resource is used more than all the time** by a plan in which verification finds nothing. -/
theorem utilization_le_one {problem : Problem} (hload : Model.load problem = .ok m)
    (hnone : p.violations m = []) (hstarts : ∀ e ∈ p.timelines, ∀ t ∈ e.tokens, 0 ≤ t.start)
    {name : String} {w : Workload} (hw : (p.metrics m).workloads.lookup name = some w) :
    (∃ r, m.resourceTemplate? name = some r ∧ r.capacity = some w.capacity) ∧ 0 < w.capacity ∧
      w.busy = p.work m name ∧ 0 ≤ w.busy ∧ w.busy ≤ w.capacity * (p.metrics m).makespan ∧
      0 ≤ w.share (p.metrics m).makespan ∧ w.share (p.metrics m).makespan ≤ 1 := by
  obtain ⟨hbinds, r, hr, hcapacity, hpos, hbusy⟩ := lookup_workloads_eq_some.mp hw
  obtain ⟨hwork, hle⟩ := (violations_eq_nil_iff.mp hnone).work_le
    (Model.wellFormed_of_load hload).1 hstarts hbinds hr hcapacity
  rw [← hbusy] at hwork hle
  exact ⟨⟨r, hr, hcapacity⟩, hpos, hbusy, hwork, hle, Workload.share_mem hwork hle⟩

end Plan

/-- Until the ship has sailed there are 10 units of time of the crane, and 4 of them are used. -/
theorem Plan.utilization_le_one_quay : ∃ m, Model.load quay = .ok m ∧
    quayPlan.violations m = [] ∧ (∀ e ∈ quayPlan.timelines, ∀ t ∈ e.tokens, 0 ≤ t.start) ∧
    (quayPlan.metrics m).workloads.lookup "crane" = some ⟨4, 2⟩ ∧
    quayPlan.work m "crane" = 4 ∧ 4 ≤ 2 * (quayPlan.metrics m).makespan ∧
    0 ≤ Workload.share ⟨4, 2⟩ (quayPlan.metrics m).makespan ∧
    Workload.share ⟨4, 2⟩ (quayPlan.metrics m).makespan ≤ 1 := by
  obtain ⟨m, hload, hcheck⟩ := Model.exists_load_of_any quay (fun m => decide
    (quayPlan.violations m = [] ∧
      (quayPlan.metrics m).workloads.lookup "crane" = some ⟨4, 2⟩)) (by decide +kernel)
  obtain ⟨hnone, hw⟩ := of_decide_eq_true hcheck
  have hstarts : ∀ e ∈ quayPlan.timelines, ∀ t ∈ e.tokens, 0 ≤ t.start := by decide
  obtain ⟨-, -, hwork, -, hle, hshare⟩ := Plan.utilization_le_one hload hnone hstarts hw
  exact ⟨m, hload, hnone, hstarts, hw, hwork.symm, hle, hshare⟩

end TemporalPlanning
