import TemporalPlanning.Proofs.Plan.Lawful

/-!
# Metrics and verification

The metrics of a plan and its verification go through the plan apart from each other, and they
agree on resources (`Plan.metrics_agree`). The table of peaks lists the resources that are bound
(`Plan.lookup_peaks_eq_some`). Verification reports those of them whose peak exceeds their capacity
(`Plan.exists_capacityExceeded_iff`) and those that nobody knows
(`Plan.unknownResource_mem_violations_iff`), and nothing that it says of entries or goals can be
taken for such a report.
-/

namespace TemporalPlanning

/-- A table is made from a list of names by a function that has no value for some of them. Looking
up a name in it gives the value of the function, if the name is in the list. -/
theorem lookup_filterMap_eq_some {β : Type} {names : List String} {f : String → Option β}
    {name : String} {b : β} :
    (names.filterMap fun n => (f n).map (n, ·)).lookup name = some b ↔
      name ∈ names ∧ f name = some b := by
  induction names with
  | nil => simp
  | cons n names ih =>
    by_cases hname : name = n
    · -- a name that is listed twice has the same value both times
      subst hname
      cases hf : f name with
      | none => simp [hf, ih]
      | some b' => simp [hf]
    · cases hf : f n with
      | none => simp [hf, ih, hname]
      | some b' => simp [hf, List.lookup_cons, beq_false_of_ne hname, ih, hname]

/-! ### What is reported -/

namespace Violation

/-- An unknown resource is reported in other words than an unknown timeline. -/
theorem unknownResource_ne_unknownTimeline (name name' : String) :
    unknownResource name ≠ unknownTimeline name' := by
  intro h
  have hletter := congrArg (fun v => v.message.toList[5]?) h
  simp [unknownResource, unknownTimeline, toString] at hletter

/-- The messages tell the two apart, whatever the names are. -/
theorem unknownResource_ne_unknownState (name timeline state : String) :
    unknownResource name ≠ unknownState timeline state := by
  intro h
  have hletter := congrArg (fun v => v.message.toList[0]?) h
  simp [unknownResource, unknownState, toString] at hletter

/-- A report on a resource: there is too little of it, or nobody knows it. -/
def ReportsOn (name : String) (v : Violation) : Prop :=
  v.kind = .capacityExceeded ∧ v.entity = name ∨ v = unknownResource name

/-- A report on a resource has the resource as its entity. -/
theorem ReportsOn.entity_eq {name : String} {v : Violation} (h : v.ReportsOn name) :
    v.entity = name := by
  rcases h with ⟨-, hentity⟩ | rfl
  · exact hentity
  · rfl

end Violation

namespace Verify

variable {m : Model} {p : Plan} {name : String} {v : Violation}

/-- What is found of a token is that its state is not known or that its duration is not allowed. -/
theorem eq_of_mem_token {entry : String} {d : TimelineDef} {t : PlanToken}
    (h : v ∈ (token entry d t).1) :
    v = .unknownState entry t.state ∨ ∃ allowed, v = .duration entry t allowed := by
  unfold token at h
  split at h
  · exact .inl (List.mem_singleton.mp h)
  · dsimp only at h
    split at h
    · exact absurd h List.not_mem_nil
    · exact .inr ⟨_, List.mem_singleton.mp h⟩

/-- What is found when tokens are compared is that two of them overlap. No other kind of violation
comes from the comparison, which is how reports are told apart. -/
theorem eq_of_mem_overlaps {entry : String} {tokens : List PlanToken}
    (h : v ∈ overlaps entry tokens) : ∃ t u, v = .overlap entry t u := by
  induction tokens with
  | nil => exact absurd h List.not_mem_nil
  | cons t rest ih =>
    -- with the first token, or among the tokens behind it
    rcases List.mem_append.mp h with h | h
    · obtain ⟨u, -, hu⟩ := List.mem_filterMap.mp h
      split at hu
      · exact ⟨t, u, (Option.some.inj hu).symm⟩
      · exact absurd hu (by simp)
    · exact ih h

/-- Nothing that is found of an entry can be taken for a report on a resource. Reports on entries,
tokens and conditions have kinds of their own, and the two kinds in question are used for resources
only. -/
theorem not_reportsOn_of_mem_entry {e : PlanTimeline} (h : v ∈ (entry m e).1) :
    ¬ v.ReportsOn name := by
  -- a violation of an entry is one of four, and none of them has the kind or the text of a report
  unfold entry at h
  split at h
  · obtain rfl := List.mem_singleton.mp h
    rintro (⟨hkind, -⟩ | heq)
    · exact absurd hkind (by simp [Violation.unknownTimeline])
    · exact Violation.unknownResource_ne_unknownTimeline _ _ heq.symm
  · rcases List.mem_append.mp h with h | h
    · obtain ⟨found, hfound, hv⟩ := List.mem_flatMap.mp h
      obtain ⟨t, -, rfl⟩ := List.mem_map.mp hfound
      rcases eq_of_mem_token hv with rfl | ⟨allowed, rfl⟩
      · rintro (⟨hkind, -⟩ | heq)
        · exact absurd hkind (by simp [Violation.unknownState])
        · exact Violation.unknownResource_ne_unknownState _ _ _ heq.symm
      · simp [Violation.ReportsOn, Violation.duration, Violation.unknownResource]
    · obtain ⟨t, u, rfl⟩ := eq_of_mem_overlaps h
      simp [Violation.ReportsOn, Violation.overlap, Violation.unknownResource]

theorem not_reportsOn_of_mem_goal {g : GroundRef} (h : v ∈ goal m p g) : ¬ v.ReportsOn name := by
  unfold goal at h
  split at h
  · exact absurd h List.not_mem_nil
  · split at h
    · obtain rfl := List.mem_singleton.mp h
      simp [Violation.ReportsOn, Violation.missingGoal, Violation.unknownResource]
    · exact absurd h List.not_mem_nil

/-- What is found of a resource. The name is not declared, or its peak exceeds the capacity; a
resource without capacity is never reported. -/
theorem mem_resource_iff : v ∈ resource m (p.resourceUses m) name ↔
    m.resourceTemplate? name = none ∧ v = .unknownResource name ∨
      ∃ r capacity, m.resourceTemplate? name = some r ∧ r.capacity = some capacity ∧
        capacity < Usage.peak (p.usagesOf m name) ∧
        v = .capacity name (Usage.peak (p.usagesOf m name)) capacity := by
  unfold resource
  cases htemplate : m.resourceTemplate? name with
  | none => simp
  | some r =>
    cases hcapacity : r.capacity with
    | none => simp [hcapacity]
    | some capacity => simp [hcapacity, Plan.usagesOf]

/-- What is found of a resource is a report on it. -/
theorem reportsOn_of_mem_resource (h : v ∈ resource m (p.resourceUses m) name) :
    v.ReportsOn name := by
  rcases mem_resource_iff.mp h with ⟨-, rfl⟩ | ⟨r, capacity, -, -, -, rfl⟩
  · exact .inr rfl
  · exact .inl ⟨rfl, rfl⟩

end Verify

namespace Plan

variable {m : Model} {p : Plan} {name : String} {v : Violation}

/-- The violations are those of the entries, then of the resources in the order of their names, then
of the goals. -/
theorem violations_eq : p.violations m =
    p.timelines.flatMap (fun e => (Verify.entry m e).1) ++
      (sortedNames ((p.resourceUses m).map (·.1))).flatMap (Verify.resource m (p.resourceUses m)) ++
      m.goals.flatMap (Verify.goal m p) := by
  unfold violations
  simp only [Verify.flatMap_entry_snd]
  rw [List.flatMap_map]

/-- **Reports on a resource come from its usages alone.** Reports on entries and goals are of other
kinds, so that the list can be cut down to the part on resources. -/
theorem mem_violations_iff (hv : v.ReportsOn name) :
    v ∈ p.violations m ↔ p.Binds m name ∧ v ∈ Verify.resource m (p.resourceUses m) name := by
  rw [violations_eq]
  simp only [List.mem_append, List.mem_flatMap, mem_sortedNames, mem_map_resourceUses]
  constructor
  · -- of the three parts of the list only the one of the resources has such reports
    rintro ((⟨e, -, hmem⟩ | ⟨name', hbinds, hmem⟩) | ⟨g, -, hmem⟩)
    · exact absurd hv (Verify.not_reportsOn_of_mem_entry hmem)
    · obtain rfl : name' = name :=
        (Verify.reportsOn_of_mem_resource hmem).entity_eq.symm.trans hv.entity_eq
      exact ⟨hbinds, hmem⟩
    · exact absurd hv (Verify.not_reportsOn_of_mem_goal hmem)
  · rintro ⟨hbinds, hmem⟩
    exact .inl (.inr ⟨name, hbinds, hmem⟩)

/-- A resource is reported as overloaded when its peak exceeds its capacity. A resource that no
token binds is not looked at, which is why the binding is part of the right side. -/
theorem exists_capacityExceeded_iff {r : ResourceDef} (hr : m.resourceTemplate? name = some r)
    {capacity : Nat} (hcapacity : r.capacity = some capacity) :
    (∃ v ∈ p.violations m, v.kind = .capacityExceeded ∧ v.entity = name) ↔
      p.Binds m name ∧ capacity < Usage.peak (p.usagesOf m name) := by
  constructor
  · rintro ⟨v, hv, hreport⟩
    obtain ⟨hbinds, hmem⟩ := (mem_violations_iff (.inl hreport)).mp hv
    -- the resource is declared, so that it is not reported as unknown
    rcases Verify.mem_resource_iff.mp hmem with ⟨hnone, -⟩ | ⟨r', capacity', hr', hc', hlt, -⟩
    · exact absurd (hr.symm.trans hnone) (by simp)
    · obtain rfl := Option.some.inj (hr.symm.trans hr')
      obtain rfl := Option.some.inj (hcapacity.symm.trans hc')
      exact ⟨hbinds, hlt⟩
  · rintro ⟨hbinds, hlt⟩
    -- the violation carries the peak that was compared with the capacity
    refine ⟨.capacity name (Usage.peak (p.usagesOf m name)) capacity, ?_, rfl, rfl⟩
    rw [mem_violations_iff (.inl ⟨rfl, rfl⟩), Verify.mem_resource_iff]
    exact ⟨hbinds, .inr ⟨r, capacity, hr, hcapacity, hlt, rfl⟩⟩

/-- A name is reported as unknown if the plan binds it and no declaration fits it. -/
theorem unknownResource_mem_violations_iff :
    .unknownResource name ∈ p.violations m ↔
      p.Binds m name ∧ m.resourceTemplate? name = none := by
  rw [mem_violations_iff (.inr rfl), Verify.mem_resource_iff]
  refine and_congr_right fun _ => ?_
  simp [Violation.unknownResource, Violation.capacity]

/-! ### What the metrics show -/

/-- The table of peaks lists what is bound. -/
theorem lookup_peaks_eq_some {peak : Nat} : (p.metrics m).peaks.lookup name = some peak ↔
    p.Binds m name ∧ peak = Usage.peak (p.usagesOf m name) := by
  have hpeaks : (p.metrics m).peaks = (sortedNames ((p.resourceUses m).map (·.1))).filterMap
      fun n => (some (Usage.peak (p.usagesOf m n))).map (n, ·) := by
    simp only [metrics, List.map_map, Option.map_some, List.filterMap_eq_map']
    rfl
  rw [hpeaks, lookup_filterMap_eq_some, mem_sortedNames, mem_map_resourceUses,
    Option.some.injEq, eq_comm]

/-- The workload of a resource of positive capacity. -/
def workload? (m : Model) (p : Plan) (name : String) : Option Workload :=
  ((m.resourceTemplate? name).bind (·.capacity)).bind fun capacity =>
    if capacity = 0 then none else some ⟨busyTime (p.usagesOf m name), capacity⟩

/-- A resource has a workload if it is declared with a positive capacity; its busy time is the work
that the plan does on it. -/
theorem workload?_eq_some {w : Workload} : p.workload? m name = some w ↔
    ∃ r, m.resourceTemplate? name = some r ∧ r.capacity = some w.capacity ∧ 0 < w.capacity ∧
      w.busy = p.work m name := by
  simp only [workload?, Option.bind_eq_some_iff, busyTime_usagesOf]
  constructor
  · rintro ⟨capacity, ⟨r, hr, hcapacity⟩, hw⟩
    split at hw
    · -- a resource of capacity zero has no workload
      exact absurd hw (by simp)
    · next hne =>
      obtain rfl := Option.some.inj hw
      exact ⟨r, hr, hcapacity, Nat.pos_of_ne_zero hne, rfl⟩
  · rintro ⟨r, hr, hcapacity, hpos, hbusy⟩
    refine ⟨w.capacity, ⟨r, hr, hcapacity⟩, ?_⟩
    rw [if_neg hpos.ne', ← hbusy]

/-- The table of workloads lists what is bound and of positive capacity. Resources without a
capacity, or with the capacity zero, are left out, since a share of them would mean nothing. -/
theorem lookup_workloads_eq_some {w : Workload} :
    (p.metrics m).workloads.lookup name = some w ↔ p.Binds m name ∧
      ∃ r, m.resourceTemplate? name = some r ∧ r.capacity = some w.capacity ∧ 0 < w.capacity ∧
        w.busy = p.work m name := by
  -- the metrics pair each name with its workload if there is one
  have hworkloads : (p.metrics m).workloads =
      (sortedNames ((p.resourceUses m).map (·.1))).filterMap
        fun n => (p.workload? m n).map (n, ·) := by
    simp only [metrics, List.filterMap_map]
    refine List.filterMap_congr fun n _ => ?_
    unfold workload?
    dsimp only [Function.comp_apply]
    cases (m.resourceTemplate? n).bind (·.capacity) with
    | none => rfl
    | some capacity =>
      dsimp only [Option.bind_some]
      split <;> rfl
  rw [hworkloads, lookup_filterMap_eq_some, mem_sortedNames, mem_map_resourceUses,
    workload?_eq_some]

/-- **Metrics and verification agree on resources.** The two passes read the same usages, group them
by name in the same way and take the same peaks. -/
theorem metrics_agree (m : Model) (p : Plan) (name : String) :
    (∀ r capacity, m.resourceTemplate? name = some r → r.capacity = some capacity →
      ((∃ v ∈ p.violations m, v.kind = .capacityExceeded ∧ v.entity = name) ↔
        ∃ peak, (p.metrics m).peaks.lookup name = some peak ∧ capacity < peak)) ∧
    (((p.metrics m).peaks.lookup name).isSome ↔ p.Binds m name) ∧
    (.unknownResource name ∈ p.violations m ↔
      ((p.metrics m).peaks.lookup name).isSome ∧ m.resourceTemplate? name = none) := by
  have hbinds : ((p.metrics m).peaks.lookup name).isSome ↔ p.Binds m name := by
    simp only [Option.isSome_iff_exists, lookup_peaks_eq_some, exists_and_left, exists_eq,
      and_true]
  refine ⟨fun r capacity hr hcapacity => ?_, hbinds, ?_⟩
  · rw [exists_capacityExceeded_iff hr hcapacity]
    simp only [lookup_peaks_eq_some, and_assoc, exists_and_left, exists_eq_left]
  · rw [unknownResource_mem_violations_iff, hbinds]

end Plan

/-- The crane is to load three ships at once, and a fourth one is left to a winch that nobody
knows. -/
def crowdedPlan : Plan := ⟨[
  ⟨"ship", [⟨"Loading", 0, 2, [.named "crane"]⟩]⟩,
  ⟨"Ship_1", [⟨"Loading", 1, 3, [.named "crane"]⟩]⟩,
  ⟨"Ship_2", [⟨"Loading", 0, 3, [.named "crane"]⟩]⟩,
  ⟨"Ship_3", [⟨"Loading", 0, 3, [.named "winch"]⟩]⟩]⟩

/-- The peak of the crane is reported, and so is the winch. Three tokens hold a crane that can serve
two, and a fourth one binds a winch that is not declared. -/
theorem Plan.metrics_agree_crowded : ∃ m r, Model.load quay = .ok m ∧
    m.resourceTemplate? "crane" = some r ∧ r.capacity = some 2 ∧
    (crowdedPlan.metrics m).peaks.lookup "crane" = some 3 ∧
    (∃ v ∈ crowdedPlan.violations m, v.kind = .capacityExceeded ∧ v.entity = "crane") ∧
    crowdedPlan.Binds m "crane" ∧ .unknownResource "winch" ∈ crowdedPlan.violations m := by
  obtain ⟨m, hload, hcheck⟩ := Model.exists_load_of_any quay (fun m => decide
    ((m.resourceTemplate? "crane").bind (·.capacity) = some 2 ∧
      (crowdedPlan.metrics m).peaks.lookup "crane" = some 3 ∧
      ((crowdedPlan.metrics m).peaks.lookup "winch").isSome ∧
      m.resourceTemplate? "winch" = none)) (by decide +kernel)
  obtain ⟨hcrane, hpeak, hwinch, hunknown⟩ := of_decide_eq_true hcheck
  obtain ⟨r, hr, hcapacity⟩ := Option.bind_eq_some_iff.mp hcrane
  -- the table of peaks is evaluated, and what it says of the report is the theorem
  obtain ⟨hreports, hbinds, -⟩ := Plan.metrics_agree m crowdedPlan "crane"
  obtain ⟨-, -, hwinch'⟩ := Plan.metrics_agree m crowdedPlan "winch"
  exact ⟨m, r, hload, hr, hcapacity, hpeak,
    (hreports r 2 hr hcapacity).mpr ⟨3, hpeak, by decide⟩, hbinds.mp (by rw [hpeak]; rfl),
    hwinch'.mpr ⟨hwinch, hunknown⟩⟩

end TemporalPlanning
