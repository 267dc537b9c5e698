import TemporalPlanning.Proofs.Reservation.Dated
import TemporalPlanning.Proofs.Search.Repairs

/-!
# The agenda of a partial plan

Which flaws of a partial plan are open, and that they can be listed and put into words at any time.
For this little is needed of a partial plan (`PartialPlan.Presentable`): its reservations are for
timepoints that there are, its tokens are on timelines that there are, and it has a place for the
token of each goal. A decision that gets stuck leaves such a partial plan behind, too
(`Task.safeAt_apply`).
-/

namespace TemporalPlanning

/-- A partial plan for a model whose flaws can be listed and described. -/
structure PartialPlan.Presentable (m : Model) (s : PartialPlan) : Prop where
  dated : s.reservations.Dated s.network
  hosted : ∀ id t, s.chronicle.token id = .ok t → ∃ host, s.chronicle.timeline t.timeline = .ok host
  goals_size : s.chronicle.goalSupports.size = m.goals.length

/-- A tidy partial plan can be presented: its tokens have timelines, its reservations resources and
dates. -/
theorem PartialPlan.Tidy.presentable {m : Model} {facts : Nat → Nat} {s : PartialPlan}
    (h : s.Tidy m facts) : s.Presentable m where
  dated := fun _ _ hr => Task.contains_of_reservation h hr
  hosted := fun id t ht => (h.chronicle.placed id t ht).imp fun _ hhost => hhost.1
  goals_size := h.chronicle.goals_size

namespace Network

theorem length_fixMidpoints (net : TrackedNetwork) (ts : List Timepoint) :
    (fixMidpoints net ts).length = ts.length := by
  induction ts generalizing net with
  | nil => rfl
  | cons t ts ih => rw [fixMidpoints, List.length_cons, ih, List.length_cons]

end Network

namespace Task

variable {task : Task} {s : PartialPlan}

/-- A schedule has a date for every timepoint. -/
theorem length_schedule (task : Task) (s : PartialPlan) :
    (task.schedule s).length = s.network.size := by
  unfold schedule
  split
  · rw [Network.earliestSchedule, List.length_map, Network.timepoints, List.length_map,
      List.length_range]
  · rw [Network.midpointSchedule, Network.length_fixMidpoints, Network.timepoints, List.length_map,
      List.length_range]

/-! ### Which flaws are open -/

/-- The test of a goal looks up its support: the goal is open if there is none. -/
theorem isGoalOpen_eq_ok {goal : Nat} {isOpen : Bool} : isGoalOpen s goal = .ok isOpen ↔
    ∃ token?, s.chronicle.goalSupport? goal = .ok token? ∧ token?.isNone = isOpen := by
  rw [isGoalOpen, Fault.bind_eq_ok]
  simp only [Fault.pure_eq_ok]

/-- The open goals are the goals of the model without a support. -/
theorem mem_openGoals {goals : List Flaw} (h : task.openGoals s = .ok goals) {flaw : Flaw} :
    flaw ∈ goals ↔
      ∃ goal, (goal < task.model.goals.length ∧ s.chronicle.goalSupport? goal = .ok none) ∧
        flaw = .openGoal goal := by
  obtain ⟨numbers, hnumbers, heq⟩ := Fault.bind_eq_ok.mp h
  obtain rfl := Except.ok.inj heq
  simp only [List.mem_map, (Fault.mem_filter hnumbers).2, List.mem_range, isGoalOpen_eq_ok,
    Option.isNone_iff_eq_none, exists_eq_right, eq_comm (a := flaw)]

/-- If no goal is open, every goal has a token. The goals are numbered as in the model, and each
number is looked at. -/
theorem exists_goalSupport?_of_openGoals_eq_nil (h : task.openGoals s = .ok []) {goal : Nat}
    (hlt : goal < task.model.goals.length) :
    ∃ token, s.chronicle.goalSupport? goal = .ok (some token) := by
  obtain ⟨numbers, hnumbers, heq⟩ := Fault.bind_eq_ok.mp h
  obtain rfl := List.map_eq_nil_iff.mp (Except.ok.inj heq)
  obtain ⟨hall, hmem⟩ := Fault.mem_filter hnumbers
  obtain ⟨isOpen, hisOpen⟩ := hall goal (List.mem_range.mpr hlt)
  obtain ⟨token?, htoken, rfl⟩ := isGoalOpen_eq_ok.mp hisOpen
  cases token? with
  | some token => exact ⟨token, htoken⟩
  -- an open goal would be in the list
  | none => exact absurd ((hmem goal).mpr ⟨List.mem_range.mpr hlt, hisOpen⟩) List.not_mem_nil

/-- The open conditions are those of any token whose slot is empty. Facts have no slots, and so only
planned tokens can have open conditions. -/
theorem mem_openConditions {flaw : Flaw} : flaw ∈ openConditions s ↔
    ∃ id i, (∃ t, s.chronicle.token id = .ok t ∧ t.supports[i]? = some none) ∧
      flaw = .openCondition id i := by
  simp only [openConditions, List.mem_flatMap, openConditionsOf, List.mem_map, List.mem_filter,
    List.mem_range, beq_iff_eq]
  constructor
  · rintro ⟨⟨id, t⟩, he, i, ⟨-, hi⟩, rfl⟩
    exact ⟨id, i, ⟨t, Chronicle.mem_tokenEntries.mp he, hi⟩, rfl⟩
  · rintro ⟨id, i, ⟨t, ht, hi⟩, rfl⟩
    exact ⟨(id, t), Chronicle.mem_tokenEntries.mpr ht, i,
      ⟨(List.getElem?_eq_some_iff.mp hi).1, hi⟩, rfl⟩

/-- What is open: goals without token, conditions without support, conflicts. The list is put
together in this order, and the search repairs the first of them. -/
theorem mem_openFlaws {flaws : List Flaw} (h : task.openFlaws s = .ok flaws) {flaw : Flaw} :
    flaw ∈ flaws ↔ match flaw with
      | .openGoal goal => goal < task.model.goals.length ∧ s.chronicle.goalSupport? goal = .ok none
      | .openCondition id i => ∃ t, s.chronicle.token id = .ok t ∧ t.supports[i]? = some none
      | .conflict c => ∃ found, s.reservations.conflicts s.network (task.schedule s) = .ok found ∧
          c ∈ found := by
  obtain ⟨goals, hgoals, h⟩ := Fault.bind_eq_ok.mp h
  obtain ⟨conflicts, hconflicts, h⟩ := Fault.bind_eq_ok.mp h
  obtain rfl := Except.ok.inj h
  obtain ⟨found, hfound, rfl⟩ := Fault.map_eq_ok.mp hconflicts
  -- a flaw is looked for where its kind is listed
  rw [List.mem_append, List.mem_append, mem_openGoals hgoals, mem_openConditions, List.mem_map]
  cases flaw with
  | openGoal goal | openCondition id i => simp
  | conflict c => simp [hfound]

/-- The next flaw is the first open goal or condition; conflicts are looked at when there is neither
of them. -/
theorem nextFlaw_eq_ok {flaw? : Option Flaw} (h : task.nextFlaw s = .ok flaw?) :
    ∃ goals, task.openGoals s = .ok goals ∧
      ((goals ++ openConditions s).head? = flaw? ∧ flaw? ≠ none ∨
        goals = [] ∧ openConditions s = [] ∧
          ∃ found, task.conflicts s = .ok found ∧ found.head? = flaw?) := by
  obtain ⟨goals, hgoals, h⟩ := Fault.bind_eq_ok.mp h
  refine ⟨goals, hgoals, ?_⟩
  -- conflicts are computed only if no goal and no condition is open
  split at h
  · next flaw rest hopen =>
    obtain rfl := Except.ok.inj h
    rw [hopen]
    exact .inl ⟨rfl, Option.some_ne_none flaw⟩
  · next hopen =>
    obtain ⟨found, hfound, h⟩ := Fault.bind_eq_ok.mp h
    obtain ⟨hnone, hconditions⟩ := List.append_eq_nil_iff.mp hopen
    exact .inr ⟨hnone, hconditions, found, hfound, Except.ok.inj h⟩

/-! ### Listing and describing -/

/-- The open goals can be listed, since there is a slot for each goal of the model. -/
theorem exists_openGoals (h : s.Presentable task.model) :
    ∃ goals, task.openGoals s = .ok goals := by
  refine Fault.exists_bind (Fault.exists_filter fun goal hgoal => ?_) fun _ _ => ⟨_, rfl⟩
  have hlt : goal < s.chronicle.goalSupports.size := h.goals_size ▸ List.mem_range.mp hgoal
  exact Fault.exists_bind (Chronicle.exists_goalSupport? hlt) fun _ _ => ⟨_, rfl⟩

/-- The conflicts can be listed, since the reservations are dated by timepoints of the network. -/
theorem exists_conflicts (h : s.Presentable task.model) : ∃ flaws, task.conflicts s = .ok flaws :=
  Fault.exists_map _ (h.dated.exists_conflicts (length_schedule task s))

/-- **The open flaws can be listed.** -/
theorem exists_openFlaws (h : s.Presentable task.model) : ∃ flaws, task.openFlaws s = .ok flaws :=
  Fault.exists_bind (exists_openGoals h) fun _ _ =>
    Fault.exists_bind (exists_conflicts h) fun _ _ => ⟨_, rfl⟩

/-- The next flaw can be told. -/
theorem exists_nextFlaw (h : s.Presentable task.model) :
    ∃ flaw?, task.nextFlaw s = .ok flaw? := by
  refine Fault.exists_bind (exists_openGoals h) fun goals _ => ?_
  cases goals ++ openConditions s with
  | cons flaw _ => exact ⟨some flaw, rfl⟩
  | nil => exact Fault.exists_bind (exists_conflicts h) fun _ _ => ⟨_, rfl⟩

/-- The next flaw is an open one. The search looks for conflicts only when nothing else is open, but
the flaw that it finds is the first of the full list all the same. -/
theorem mem_openFlaws_of_nextFlaw {flaw : Flaw} (hflaw : task.nextFlaw s = .ok (some flaw))
    {flaws : List Flaw} (hflaws : task.openFlaws s = .ok flaws) : flaw ∈ flaws := by
  obtain ⟨goals, hgoals, hflaws⟩ := Fault.bind_eq_ok.mp hflaws
  obtain ⟨found, hfound, hflaws⟩ := Fault.bind_eq_ok.mp hflaws
  obtain rfl := Except.ok.inj hflaws
  obtain ⟨goals', hgoals', hfirst⟩ := nextFlaw_eq_ok hflaw
  obtain rfl := Except.ok.inj (hgoals.symm.trans hgoals')
  -- the next flaw is the first of the lists that the open flaws are made of
  rcases hfirst with ⟨hhead, -⟩ | ⟨-, -, found', hfound', hhead⟩
  · exact List.mem_append_left _ (List.mem_of_head? hhead)
  · obtain rfl := Except.ok.inj (hfound.symm.trans hfound')
    exact List.mem_append_right _ (List.mem_of_head? hhead)

/-- An open flaw can be put into words: its goal, its token or its resource is found. It matters
because a search that is cut short describes all open flaws, and a fault there would replace its
answer. -/
theorem exists_describe (hm : task.model.WellFormed) (h : s.Presentable task.model)
    {flaws : List Flaw} (hflaws : task.openFlaws s = .ok flaws) {flaw : Flaw}
    (hflaw : flaw ∈ flaws) :
    ∃ words, task.describe s flaw = .ok words := by
  have hopen := (mem_openFlaws hflaws).mp hflaw
  -- what has to be looked up depends on the kind of the flaw
  cases flaw with
  | openGoal goal =>
    obtain ⟨hlt, -⟩ := hopen
    have hg : task.model.goals[goal]? = some task.model.goals[goal] := List.getElem?_eq_getElem hlt
    obtain ⟨d, hd, -⟩ := hm.goals _ (List.getElem_mem hlt)
    exact Fault.exists_bind ⟨_, Fault.require_eq_ok.mpr hg⟩ fun g hg' => by
      obtain rfl := Option.some.inj (hg.symm.trans (Fault.require_eq_ok.mp hg'))
      exact Fault.exists_bind ⟨d, Fault.require_eq_ok.mpr hd⟩ fun _ _ => ⟨_, rfl⟩
  -- an open condition is found by way of its token, the timeline of that and the state there
  | openCondition id i =>
    obtain ⟨t, ht, -⟩ := hopen
    obtain ⟨host, hhost⟩ := h.hosted id t ht
    have htemplate : s.chronicle.template? id = .ok (host.template? t.state) :=
      Fault.bind_eq_ok.mpr ⟨t, ht, Fault.bind_eq_ok.mpr ⟨host, hhost, rfl⟩⟩
    exact ⟨_, Fault.bind_eq_ok.mpr ⟨t, ht, Fault.bind_eq_ok.mpr ⟨_, htemplate,
      Fault.bind_eq_ok.mpr ⟨host, hhost, rfl⟩⟩⟩⟩
  | conflict c =>
    obtain ⟨found, hfound, hc⟩ := hopen
    obtain ⟨r, -, -, -, hr, -⟩ := ReservationBook.exists_of_mem_conflicts hfound hc
    exact Fault.exists_bind ⟨r, Fault.require_eq_ok.mpr hr⟩ fun _ _ => ⟨_, rfl⟩

/-- **The open flaws can be put into words.** -/
theorem exists_describeOpenFlaws (hm : task.model.WellFormed) (h : s.Presentable task.model) :
    ∃ words, task.describeOpenFlaws s = .ok words :=
  Fault.exists_bind (exists_openFlaws h) fun _ hflaws =>
    Fault.exists_mapM fun _ hflaw => exists_describe hm h hflaws hflaw

end Task

end TemporalPlanning
