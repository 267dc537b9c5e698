import TemporalPlanning.Proofs.Search.Objects

/-!
# How many objects are created

A decision that creates an object is proposed only for an open class of which fewer objects of the
same kind have been created than the configuration allows (`Task.withinLimit_of_mem_repairs`).
Hence no more than that many resources and no more than that many timelines of a class are created,
and none of a class that is not open (`Task.Reachable.synthesizedCount_le`).

Resources and timelines are counted apart. A class that has both may gain twice as many objects as
the configuration allows (`exists_synthesizedCount_gt`); the bound holds of both together where the
problem declares only one kind.
-/

namespace TemporalPlanning

/-- An object is created only if its class may gain another one of its kind. -/
def Decision.WithinLimit (task : Task) (s : PartialPlan) : Decision → Prop
  | .createResource _ _ className _ =>
    task.maySynthesize className (s.reservations.synthesizedCount className)
  | .createTimeline _ _ className _ _ =>
    task.maySynthesize className (s.chronicle.synthesizedCount className)
  | .supportGoal _ _ | .insertGoal _ _ | .reserve _ _ _ _ | .link _ _ _ _
  | .insertSupplier _ _ _ _ _ _ | .order _ _ => True

namespace Task

variable {task : Task} {facts : Nat → Nat} {s s' : PartialPlan} {d : Decision}

/-! ### What is proposed -/

/-- **Objects are proposed within the limit only.** -/
theorem withinLimit_of_mem_repairs (hwf : s.chronicle.WellFormed task.model facts) {flaw : Flaw}
    {ds : List Decision} (h : task.repairs s flaw = .ok ds) (hd : d ∈ ds) :
    d.WithinLimit task s := by
  cases proposes_of_mem_repairs hwf h hd with
  | createResource _ _ _ hmay => exact hmay
  | createTimeline _ _ _ hmay => exact hmay
  | supportGoal | insertGoal | reserve | join | insertBefore | link | insertSupplier | order =>
    trivial

/-- An object may be created of an open class that has not got its number yet. -/
theorem maySynthesize_iff {className : String} {already : Nat} :
    task.maySynthesize className already ↔
      task.model.isOpen className ∧ already < task.config.maxSynthesizedPerClass := by
  rw [maySynthesize, Bool.and_eq_true, decide_eq_true_iff]

/-! ### What has been created -/

/-- A decision creates no timeline of a class, or one more if the class may gain one. Only one kind
of decision creates a timeline, and it is proposed only while the class may gain one more. -/
theorem synthesizedCount_timelines (htidy : s.Tidy task.model facts) (hsuits : d.Suits task s)
    (hlimit : d.WithinLimit task s) {u : Unit} (hs : task.apply d s = .done u s')
    (className : String) :
    s'.chronicle.synthesizedCount className = s.chronicle.synthesizedCount className ∨
      s'.chronicle.synthesizedCount className = s.chronicle.synthesizedCount className + 1 ∧
        task.maySynthesize className (s.chronicle.synthesizedCount className) ∧
        ∃ e, task.model.firstTimeline? className = some e := by
  rw [Chronicle.synthesizedCount_eq, (adds_of_apply htidy hs).timelines, List.filter_append,
    List.length_append, ← Chronicle.synthesizedCount_eq]
  -- one decision alone creates a timeline, and it belongs to the class that the decision names
  cases d with
  | createTimeline token i className' state relation =>
    by_cases hclass : className' = className
    · subst hclass
      obtain ⟨_, -, -, -, hfirst⟩ := hsuits
      exact .inr ⟨by simp [Decision.newTimelines, newTimeline], hlimit, hfirst⟩
    · exact .inl (by simp [Decision.newTimelines, newTimeline, hclass])
  | supportGoal | insertGoal | reserve | createResource | link | insertSupplier | order =>
    exact .inl rfl

/-- A decision creates no resource of a class, or one more if the class may gain one. Resources and
timelines of a class are counted apart, and so is the limit. -/
theorem synthesizedCount_resources (htidy : s.Tidy task.model facts) (hsuits : d.Suits task s)
    (hlimit : d.WithinLimit task s) {u : Unit} (hs : task.apply d s = .done u s')
    (className : String) :
    s'.reservations.synthesizedCount className = s.reservations.synthesizedCount className ∨
      s'.reservations.synthesizedCount className = s.reservations.synthesizedCount className + 1 ∧
        task.maySynthesize className (s.reservations.synthesizedCount className) ∧
        ∃ e, task.model.firstResource? className = some e := by
  rw [ReservationBook.synthesizedCount, (adds_of_apply htidy hs).resources, List.filter_append,
    List.length_append, ← ReservationBook.synthesizedCount]
  -- one decision alone creates a resource, and it belongs to the class that the decision names
  cases d with
  | createResource token i className' amount =>
    by_cases hclass : className' = className
    · subst hclass
      obtain ⟨-, e, hfirst, -⟩ := hsuits
      exact .inr ⟨by simp [Decision.newResources, newResource], hlimit, e, hfirst⟩
    · exact .inl (by simp [Decision.newResources, newResource, hclass])
  | supportGoal | insertGoal | reserve | createTimeline | link | insertSupplier | order =>
    exact .inl rfl

/-- At the start nothing has been created. -/
theorem synthesizedCount_of_start (hm : task.model.WellFormed) {u : Unit}
    (hs : task.start = .done u s) (className : String) :
    s.chronicle.synthesizedCount className = 0 ∧
      s.reservations.synthesizedCount className = 0 := by
  obtain ⟨htimelines, hresources⟩ := objects_of_start hm hs
  rw [Chronicle.synthesizedCount_eq, ReservationBook.synthesizedCount, htimelines, hresources]
  simp [Timeline.declared, Resource.declared]

/-- A number of objects of a class that may have been created: none, or up to the limit if the class
is open and there is a declaration to copy. -/
def MayHave (task : Task) (className : String) (declared : Prop) (n : Nat) : Prop :=
  n ≤ task.config.maxSynthesizedPerClass ∧ (n ≠ 0 → task.model.isOpen className ∧ declared)

/-- The bound is kept by a step that leaves the number alone, or that adds one where it may. -/
theorem MayHave.step {className : String} {declared : Prop} {n n' : Nat}
    (h : task.MayHave className declared n)
    (hstep : n' = n ∨ n' = n + 1 ∧ task.maySynthesize className n ∧ declared) :
    task.MayHave className declared n' := by
  rcases hstep with rfl | ⟨rfl, hmay, hdeclared⟩
  · exact h
  · obtain ⟨hopen, hlt⟩ := maySynthesize_iff.mp hmay
    exact ⟨hlt, fun _ => ⟨hopen, hdeclared⟩⟩

/-- **What has been created was allowed.** The guard was true before the last object was created,
and created objects never go away along a path. -/
theorem Reachable.mayHave (h : task.Reachable s) (hm : task.model.WellFormed)
    (className : String) :
    task.MayHave className (∃ e, task.model.firstTimeline? className = some e)
        (s.chronicle.synthesizedCount className) ∧
      task.MayHave className (∃ e, task.model.firstResource? className = some e)
        (s.reservations.synthesizedCount className) := by
  induction h with
  | start hs =>
    obtain ⟨htimelines, hresources⟩ := synthesizedCount_of_start hm hs className
    -- what is declared does not count as created
    rw [htimelines, hresources]
    exact ⟨⟨Nat.zero_le _, absurd rfl⟩, ⟨Nat.zero_le _, absurd rfl⟩⟩
  | apply h hds hd _ hs ih =>
    have htidy := h.tidy hm
    have hsuits := suits_of_mem_repairs htidy.chronicle hds _ hd
    have hlimit := withinLimit_of_mem_repairs htidy.chronicle hds hd
    exact ⟨ih.1.step (synthesizedCount_timelines htidy hsuits hlimit hs className),
      ih.2.step (synthesizedCount_resources htidy hsuits hlimit hs className)⟩

/-- **The number of created objects is bounded.** Of every class there are at most as many created
resources, and at most as many created timelines, as the configuration allows, and none of a class
that is not open. If the problem declares only one kind of object of the class, the bound holds of
both kinds together. -/
theorem Reachable.synthesizedCount_le {problem : Problem}
    (hload : Model.load problem = .ok task.model) (h : task.Reachable s) (className : String) :
    s.reservations.synthesizedCount className ≤ task.config.maxSynthesizedPerClass ∧
      s.chronicle.synthesizedCount className ≤ task.config.maxSynthesizedPerClass ∧
      (className ∉ problem.openClasses → s.reservations.synthesizedCount className +
        s.chronicle.synthesizedCount className = 0) ∧
      ((∀ r ∈ problem.resources, r.className ≠ className) ∨
          (∀ t ∈ problem.timelines, t.className ≠ className) →
        s.reservations.synthesizedCount className + s.chronicle.synthesizedCount className ≤
          task.config.maxSynthesizedPerClass) := by
  obtain ⟨hm, -⟩ := Model.wellFormed_of_load hload
  obtain ⟨hopen, hresource, htimeline⟩ := Model.classes_of_load hload className
  obtain ⟨⟨hle, hallowed⟩, ⟨hle', hallowed'⟩⟩ := h.mayHave hm className
  refine ⟨hle', hle, fun hclosed => ?_, fun hkind => ?_⟩
  · -- one object alone would make the class an open one
    have hnone : s.chronicle.synthesizedCount className = 0 := by
      by_contra hne
      exact hclosed (hopen.mp (hallowed hne).1)
    have hnone' : s.reservations.synthesizedCount className = 0 := by
      by_contra hne
      exact hclosed (hopen.mp (hallowed' hne).1)
    omega
  · -- of the kind that is not declared there is nothing to copy, and none was created
    rcases hkind with hno | hno
    · have hnone : s.reservations.synthesizedCount className = 0 := by
        by_contra hne
        obtain ⟨e, he⟩ := (hallowed' hne).2
        obtain ⟨r, hr, hclass⟩ := hresource e he
        exact hno r hr hclass
      omega
    · have hnone : s.chronicle.synthesizedCount className = 0 := by
        by_contra hne
        obtain ⟨e, he⟩ := (hallowed hne).2
        obtain ⟨t, ht, hclass⟩ := htimeline e he
        exact hno t ht hclass
      omega

end Task

/-- The pods are at the limit, with resources and timelines counted apart. -/
theorem synthesizedCount_le_pods : ∃ m s, Model.load pods = .ok m ∧
    Task.Reachable ⟨m, podsConfig⟩ s ∧ s.reservations.synthesizedCount "Pod" ≤ 1 ∧
      s.chronicle.synthesizedCount "Pod" ≤ 1 ∧
      s.reservations.synthesizedCount "Ship" + s.chronicle.synthesizedCount "Ship" = 0 := by
  obtain ⟨m, s, hload, hreachable, -, -⟩ := exists_reachable_pods
  obtain ⟨hresources, htimelines, -, -⟩ := hreachable.synthesizedCount_le hload "Pod"
  obtain ⟨-, -, hclosed, -⟩ := hreachable.synthesizedCount_le hload "Ship"
  exact ⟨m, s, hload, hreachable, hresources, htimelines, hclosed (by decide)⟩

/-- **Both kinds of objects together may exceed the limit.** -/
theorem exists_synthesizedCount_gt : ∃ m s, Model.load pods = .ok m ∧
    Task.Reachable ⟨m, podsConfig⟩ s ∧ podsConfig.maxSynthesizedPerClass <
      s.reservations.synthesizedCount "Pod" + s.chronicle.synthesizedCount "Pod" := by
  obtain ⟨m, s, hload, hreachable, htimelines, hresources⟩ := exists_reachable_pods
  exact ⟨m, s, hload, hreachable, by rw [htimelines, hresources]; decide⟩

end TemporalPlanning
