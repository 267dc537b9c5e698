import TemporalPlanning.Proofs.Search.Agenda

/-!
# Repairs are found without fault

For an open flaw of a tidy partial plan the repairs can be listed (`Task.exists_repairs`): whatever
the list is made from, tokens, timelines, places, can be looked up. A repair for which the
look-ahead finds room is applicable (`Decision.Applicable`): the goal or condition that it is for is
open, a new token has a place where its timeline takes it, and only neighbours become adjacent. What
was looked at when the repair was proposed is what carrying it out relies on.
-/

namespace TemporalPlanning

/-- A token has a condition without support. -/
def Chronicle.IsOpen (c : Chronicle) (id : TokenId) (i : Nat) : Prop :=
  ∃ t, c.token id = .ok t ∧ t.supports[i]? = some none

/-- What carrying a decision out relies on. -/
def Decision.Applicable (task : Task) (s : PartialPlan) : Decision → Prop
  | .supportGoal goal _ => s.chronicle.goalSupports[goal]? = some none
  | .insertGoal goal position => s.chronicle.goalSupports[goal]? = some none ∧
      ∃ g, task.model.goals[goal]? = some g ∧
        s.chronicle.isInsertable ⟨g.timeline⟩ position = .ok true
  | .reserve token i _ _ | .createResource token i _ _ | .createTimeline token i _ _ _ =>
    s.chronicle.IsOpen token i
  | .link token i supplier relation => s.chronicle.IsOpen token i ∧
      (relation = .adjacent → s.chronicle.predecessor? token = .ok (some supplier))
  | .insertSupplier token i timeline _ position relation => s.chronicle.IsOpen token i ∧
      s.chronicle.isInsertable timeline position = .ok true ∧
      (relation = .adjacent →
        ∃ host, s.chronicle.timeline timeline = .ok host ∧ host.sequence[position]? = some token)
  | .order _ _ => True

namespace Task

variable {task : Task} {facts : Nat → Nat} {s : PartialPlan}

/-! ### Repairs of goals -/

/-- The timeline of a goal is there. -/
theorem exists_timeline_of_goal (hm : task.model.WellFormed)
    (hwf : s.chronicle.WellFormed task.model facts) {goal : Nat} {g : GroundRef}
    (hg : task.model.goals[goal]? = some g) :
    ∃ host, s.chronicle.timeline ⟨g.timeline⟩ = .ok host := by
  obtain ⟨d, hd, -⟩ := hm.goals g (List.mem_of_getElem? hg)
  exact (hwf.declared _ d hd).imp fun _ hhost => hhost.1

theorem exists_goalFloor (hwf : s.chronicle.WellFormed task.model facts) (goal timeline : Nat) :
    ∃ floor, task.goalFloor s goal timeline = .ok floor := by
  rw [goalFloor]
  cases task.config.goalOrdering with
  | free => exact ⟨none, rfl⟩
  | declaration =>
    -- every earlier goal of the timeline is one of the model, and its token stands somewhere
    have goal_of_mem : ∀ i ∈ (List.range goal).filter fun i =>
        (task.model.goals[i]?.map (·.timeline)) == some timeline,
          ∃ g, task.model.goals[i]? = some g :=
      fun i hi => (Option.map_eq_some_iff.mp (eq_of_beq (List.mem_filter.mp hi).2)).imp
        fun _ hg => hg.1
    refine Fault.exists_bind (Fault.exists_mapM fun i hi => ?_) fun tokens htokens =>
      Fault.exists_bind (Fault.exists_mapM fun id hid => ?_) fun _ _ => ⟨_, rfl⟩
    · obtain ⟨g, hg⟩ := goal_of_mem i hi
      exact Chronicle.exists_goalSupport?
        (hwf.goals_size ▸ (List.getElem?_eq_some_iff.mp hg).1)
    · obtain ⟨_, hid, rfl⟩ := List.mem_filterMap.mp hid
      obtain ⟨i, hi, hid⟩ := (Fault.mem_mapM htokens).2 _ hid
      obtain ⟨g, hg⟩ := goal_of_mem i hi
      obtain ⟨t, ht, -⟩ := hwf.goals i g id hg (Chronicle.goalSupport?_eq_ok.mp hid)
      exact hwf.exists_position? ht

/-- The repairs of a goal of the model can be listed. Each look-up on the way succeeds in a
well-formed chronicle: the goal's timeline is declared, and all of its tokens can be read. -/
theorem exists_goalRepairs (hm : task.model.WellFormed)
    (hwf : s.chronicle.WellFormed task.model facts) {goal : Nat}
    (hlt : goal < task.model.goals.length) : ∃ ds, task.goalRepairs s goal = .ok ds := by
  refine Fault.exists_bind ⟨_, Fault.require_eq_ok.mpr (List.getElem?_eq_getElem hlt)⟩
    fun g hg => ?_
  -- the goal's timeline is a declared one, so it is there
  obtain ⟨host, hhost⟩ := exists_timeline_of_goal hm hwf (Fault.require_eq_ok.mp hg)
  have htokens := hwf.exists_of_mem hhost
  refine Fault.exists_bind ⟨host, hhost⟩ fun host' _ =>
    Fault.exists_bind (exists_goalFloor hwf goal g.timeline) fun floor _ =>
    Fault.exists_bind (Fault.exists_filter fun id hid => ?_) fun existing _ =>
    Fault.exists_bind (Chronicle.exists_insertablePositions hhost htokens) fun free _ =>
    Fault.exists_bind (Fault.exists_filter fun p _ => ?_) fun places _ => ⟨_, rfl⟩
  · -- a token that is listed has a place
    obtain ⟨t, ht, -⟩ := Chronicle.mem_tokensWithState.mp hid
    exact Fault.exists_bind (hwf.exists_position? ht) fun _ _ => ⟨_, rfl⟩
  · exact Fault.exists_ite (fun _ => Chronicle.exists_admitsState hhost htokens g.state p)
      fun _ => ⟨false, rfl⟩

/-! ### Repairs of conditions -/

/-- The repairs of a condition on the predecessor can be listed, be there a predecessor or not. The
token stands on a timeline, so that its place is known and the state in front of it can be read. -/
theorem exists_predecessorRepairs (hwf : s.chronicle.WellFormed task.model facts) {token : TokenId}
    {t : Token} (ht : s.chronicle.token token = .ok t) (i : Nat) (state : String) :
    ∃ ds, predecessorRepairs s token i state = .ok ds := by
  obtain ⟨host, hhost, -⟩ := hwf.placed token t ht
  -- the insertion is tried in both cases: with a predecessor to join and without one
  have inserted : ∀ joined, ∃ ds, joinedOrInserted s token i t.timeline state joined = .ok ds := by
    intro joined
    refine Fault.exists_bind (hwf.exists_position? ht) fun j? _ => ?_
    cases j? with
    | none => exact ⟨_, rfl⟩
    | some j =>
      exact Fault.exists_bind
        (Chronicle.exists_admitsState hhost (hwf.exists_of_mem hhost) state j) fun _ _ => ⟨_, rfl⟩
  refine Fault.exists_bind ⟨t, ht⟩ fun t' ht' => ?_
  obtain rfl := Chronicle.token_inj ht ht'
  refine Fault.exists_bind (hwf.exists_predecessor? ht) fun p? hp => ?_
  cases p? with
  | none => exact inserted []
  | some p =>
    -- the predecessor stands in the same sequence
    obtain ⟨_, host', j, -, hhost', -, hbefore⟩ := hwf.predecessor?_eq_ok hp
    obtain ⟨u, hu⟩ := hwf.exists_of_mem hhost' p (Chronicle.mem_of_before? hbefore.symm)
    exact Fault.exists_bind ⟨u, hu⟩ fun u _ => inserted _

/-- The places for a new supplier can be listed. A timeline without the state has none, and the
others are asked place by place. -/
theorem exists_insertions (hwf : s.chronicle.WellFormed task.model facts) {id : TimelineId}
    {host : Timeline} (hhost : s.chronicle.timeline id = .ok host) (token : TokenId) (i : Nat)
    (state : String) (relation : Relation) :
    ∃ ds, insertions s token i state relation id = .ok ds := by
  have htokens := hwf.exists_of_mem hhost
  exact Fault.exists_bind ⟨host, hhost⟩ fun _ _ => Fault.exists_ite (fun _ => ⟨[], rfl⟩) fun _ =>
    Fault.exists_bind (Chronicle.exists_insertablePositions hhost htokens) fun _ _ =>
      Fault.exists_bind
        (Fault.exists_filter fun p _ => Chronicle.exists_admitsState hhost htokens state p)
        fun _ _ => ⟨_, rfl⟩

/-- The repairs of a condition on another timeline can be listed. The timelines that the reference
means are all looked at, and for a class also the first declared one, as the template of a new one.
-/
theorem exists_supplierRepairs (hwf : s.chronicle.WellFormed task.model facts) (token : TokenId)
    (i : Nat) (target : ObjectRef) (state : String) (relation : Relation) :
    ∃ ds, task.supplierRepairs s token i target state relation = .ok ds := by
  refine Fault.exists_bind (Fault.exists_filter fun p hp => ?_) fun suppliers _ =>
    Fault.exists_bind (Fault.exists_mapM fun id hid => ?_) fun inserted _ => ?_
  · -- a token that has the state stands somewhere
    obtain ⟨id, -, hp⟩ := List.mem_flatMap.mp hp
    obtain ⟨u, hu, -⟩ := Chronicle.mem_tokensWithState.mp hp
    exact Fault.exists_ite (fun _ => ⟨false, rfl⟩)
      fun _ => Fault.exists_map _ (hwf.exists_position? hu)
  · obtain ⟨host, hhost, -⟩ := (mem_hostsOf hwf target).mp hid
    exact exists_insertions hwf hhost token i state relation
  · cases target with
    | named name => exact ⟨_, rfl⟩
    | anyOf className =>
      dsimp only
      split
      · exact ⟨_, rfl⟩
      · next n hn =>
        -- the class has a declared timeline, and that is there
        have hclass := (List.mem_filter.mp (List.mem_of_head? hn)).2
        rw [beq_iff_eq, Option.bind_eq_some_iff] at hclass
        obtain ⟨d, hd, -⟩ := hclass
        obtain ⟨host, hhost, -⟩ := hwf.declared n d hd
        exact Fault.exists_bind ⟨host, hhost⟩ fun _ _ => ⟨_, rfl⟩

/-- The repairs of any open condition can be listed. The kinds of conditions are the cases, each
with its own list. -/
theorem exists_conditionRepairs (hwf : s.chronicle.WellFormed task.model facts) {token : TokenId}
    {t : Token} (ht : s.chronicle.token token = .ok t) (i : Nat) :
    ∃ ds, task.conditionRepairs s token i = .ok ds := by
  obtain ⟨host, hhost, -⟩ := hwf.placed token t ht
  refine Fault.exists_bind ⟨_, Fault.bind_eq_ok.mpr ⟨t, ht, Fault.bind_eq_ok.mpr
    ⟨host, hhost, rfl⟩⟩⟩ fun template? _ => ?_
  -- a slot without a condition gets no repairs; for the others there is one rule each
  cases template?.bind (·.conditions[i]?) with
  | none => exact ⟨[], rfl⟩
  | some condition =>
    cases condition with
    | uses target amount => exact ⟨_, rfl⟩
    | follows state => exact exists_predecessorRepairs hwf ht i state
    | metBy target state | during target state =>
      exact exists_supplierRepairs hwf token i target state _

/-! ### Repairs of conflicts -/

theorem exists_orders (h : s.reservations.Dated s.network) (ids : List ReservationId) :
    ∃ ds, orders s ids = .ok ds := by
  induction ids with
  | nil => exact ⟨[], rfl⟩
  | cons a rest ih =>
    refine Fault.exists_bind (Fault.exists_mapM fun b _ => ?_) fun _ _ =>
      Fault.exists_bind ih fun _ _ => ⟨_, rfl⟩
    rw [ordersOf]
    split
    · -- reservations that are there have dated ends, so the test for an overlap can be made
      next ra rb ha hb =>
      exact Fault.exists_bind ((h a ra ha).exists_canOverlap (h b rb hb)) fun _ _ => ⟨_, rfl⟩
    · exact ⟨[], rfl⟩

/-- **The repairs of an open flaw can be listed.** The three kinds of flaws are the cases; that the
flaw is open says that what it refers to is there. -/
theorem exists_repairs (hm : task.model.WellFormed) (h : s.Tidy task.model facts)
    {flaws : List Flaw} (hflaws : task.openFlaws s = .ok flaws) {flaw : Flaw}
    (hflaw : flaw ∈ flaws) : ∃ ds, task.repairs s flaw = .ok ds := by
  have hopen := (mem_openFlaws hflaws).mp hflaw
  cases flaw with
  | openGoal goal => exact exists_goalRepairs hm h.chronicle hopen.1
  | openCondition id i =>
    obtain ⟨t, ht, -⟩ := hopen
    exact exists_conditionRepairs h.chronicle ht i
  | conflict c => exact exists_orders h.presentable.dated c.members

/-! ### Applicable repairs -/

/-- The look-ahead joins a token only to its predecessor. -/
theorem predecessor?_of_admits {token supplier : TokenId} {i : Nat}
    (h : admits s (.link token i supplier .adjacent) = .ok true) :
    s.chronicle.predecessor? token = .ok (some supplier) := by
  obtain ⟨_, -, h⟩ := Fault.bind_eq_ok.mp h
  obtain ⟨_, -, h⟩ := Fault.bind_eq_ok.mp h
  obtain ⟨p?, hp, h⟩ := Fault.bind_eq_ok.mp h
  split at h
  · next heq => rw [hp, heq]
  · exact absurd (Except.ok.inj h) (by simp)

/-- **A repair of an open flaw for which there is room is applicable.** Suiting the state is not
enough: a repair computed for an older state would find its slot filled or its place locked. -/
theorem applicable_of_mem_repairs (h : s.Tidy task.model facts) {flaws : List Flaw}
    (hflaws : task.openFlaws s = .ok flaws) {flaw : Flaw} (hflaw : flaw ∈ flaws)
    {ds : List Decision} (hds : task.repairs s flaw = .ok ds) {d : Decision} (hd : d ∈ ds)
    (hadmits : admits s d = .ok true) : d.Applicable task s := by
  have hopen := (mem_openFlaws hflaws).mp hflaw
  -- the flaw is open, and what the rule asked for is still there
  cases proposes_of_mem_repairs h.chronicle hds hd with
  | supportGoal => exact Chronicle.goalSupport?_eq_ok.mp hopen.2
  | insertGoal hgoal hadmitted =>
    exact ⟨Chronicle.goalSupport?_eq_ok.mp hopen.2, _, hgoal,
      Chronicle.isInsertable_of_admitsState hadmitted⟩
  | reserve | createResource | createTimeline => exact hopen
  | join => exact ⟨hopen, fun _ => predecessor?_of_admits hadmits⟩
  | insertBefore _ _ hhost hplace hadmitted =>
    exact ⟨hopen, Chronicle.isInsertable_of_admitsState hadmitted, fun _ => ⟨_, hhost, hplace⟩⟩
  | link hcondition => exact ⟨hopen, fun hadjacent => absurd hadjacent hcondition.ne_adjacent⟩
  | insertSupplier hcondition _ _ _ hadmitted =>
    exact ⟨hopen, Chronicle.isInsertable_of_admitsState hadmitted,
      fun hadjacent => absurd hadjacent hcondition.ne_adjacent⟩
  | order => trivial

end Task

end TemporalPlanning
