import TemporalPlanning.Proofs.Tidy
import TemporalPlanning.Search.Repair

/-!
# Repairs that suit

A decision suits a partial plan if what it proposes is what the flaw asks for (`Decision.Suits`):
the supplier of a condition is of the state that the condition wants, on a timeline that it means,
and a resource is one that it means and has room. All repairs of a flaw suit
(`Task.suits_of_mem_repairs`), and they are about that flaw (`Task.repairs_of_mem_repairs`).

The repairs of goals and conditions are listed exactly (`Task.goalRepairs_eq_ok`,
`Task.predecessorRepairs_eq_ok`, `Task.supplierRepairs_eq_ok`). From the lists it follows in which
ways a decision comes to be proposed (`Task.Proposes`), and all that is said of repairs is said of
each of these ways.
-/

namespace TemporalPlanning

/-- What a condition wants of a new token. -/
def Condition.Wants (condition : Condition) (c : Chronicle) (timeline : TimelineId)
    (state : String) : Prop :=
  match condition with
  | .uses _ _ => False
  | .follows source => state = source
  | .metBy target wanted | .during target wanted =>
    state = wanted ∧ ∃ host, c.timeline timeline = .ok host ∧ host.Matches target

/-- `condition.Beside target state relation`: the condition wants a token of the state, in the
relation, on another timeline that `target` means. -/
inductive Condition.Beside : Condition → ObjectRef → String → Relation → Prop
  | metBy {target : ObjectRef} {state : String} : Beside (.metBy target state) target state .metBy
  | during {target : ObjectRef} {state : String} :
      Beside (.during target state) target state .during

namespace Condition.Beside

variable {condition : Condition} {target : ObjectRef} {state : String} {relation : Relation}
  {c : Chronicle}

/-- Such a condition has the relation that it is beside by. -/
theorem relation?_eq (h : condition.Beside target state relation) :
    condition.relation? = some relation := by
  cases h <;> rfl

/-- Conditions on other timelines do not ask for a neighbour. -/
theorem ne_adjacent (h : condition.Beside target state relation) : relation ≠ .adjacent := by
  cases h <;> decide

theorem eq_or_eq (h : condition.Beside target state relation) :
    condition = .metBy target state ∨ condition = .during target state := by
  cases h with
  | metBy => exact .inl rfl
  | during => exact .inr rfl

/-- A token of the state, on a timeline that the target means, supplies the condition. -/
theorem supplies (h : condition.Beside target state relation) {p : TokenId} {u : Token}
    {host : Timeline} (hu : c.token p = .ok u) (hstate : u.state = state)
    (hhost : c.timeline u.timeline = .ok host) (hmatch : host.Matches target) :
    c.Supplies p condition := by
  cases h <;> exact ⟨u, host, hu, hstate, hhost, hmatch⟩

/-- Such a timeline is where the condition wants a token of the state. -/
theorem wants (h : condition.Beside target state relation) {id : TimelineId} {host : Timeline}
    (hhost : c.timeline id = .ok host) (hmatch : host.Matches target) :
    condition.Wants c id state := by
  cases h <;> exact ⟨rfl, host, hhost, hmatch⟩

end Condition.Beside

/-- What a decision proposes is what is asked for. -/
def Decision.Suits (task : Task) (s : PartialPlan) : Decision → Prop
  | .supportGoal goal token => ∃ g t, task.model.goals[goal]? = some g ∧
      s.chronicle.token token = .ok t ∧ t.timeline = ⟨g.timeline⟩ ∧ t.state = g.state
  | .insertGoal _ _ | .order _ _ => True
  | .reserve token i resource amount => ∃ target r, s.chronicle.Asks token i (.uses target amount) ∧
      s.reservations.resource? resource = some r ∧ r.Matches target ∧ r.canHold amount
  | .createResource token i className amount =>
    s.chronicle.Asks token i (.uses (.anyOf className) amount) ∧
      ∃ d, task.model.firstResource? className = some d ∧ d.capacity.all (amount ≤ ·)
  | .link token i supplier relation => ∃ condition, s.chronicle.Asks token i condition ∧
      condition.relation? = some relation ∧ s.chronicle.Supplies supplier condition
  | .insertSupplier token i timeline state _ relation =>
    ∃ condition, s.chronicle.Asks token i condition ∧ condition.relation? = some relation ∧
      condition.Wants s.chronicle timeline state
  | .createTimeline token i className state relation =>
    ∃ condition, s.chronicle.Asks token i condition ∧ condition.relation? = some relation ∧
      (condition = .metBy (.anyOf className) state ∨ condition = .during (.anyOf className) state) ∧
      ∃ d, task.model.firstTimeline? className = some d

/-- A decision is of the kind that repairs a flaw: it serves the goal, supports the condition or
orders two members of the conflict. -/
def Decision.Repairs : Decision → Flaw → Prop
  | .supportGoal goal _, .openGoal goal' | .insertGoal goal _, .openGoal goal' => goal = goal'
  | .reserve token i _ _, .openCondition token' i'
  | .createResource token i _ _, .openCondition token' i'
  | .link token i _ _, .openCondition token' i'
  | .insertSupplier token i _ _ _ _, .openCondition token' i'
  | .createTimeline token i _ _ _, .openCondition token' i' => token = token' ∧ i = i'
  | .order before after, .conflict c =>
    [before, after].Sublist c.members ∨ [after, before].Sublist c.members
  | _, _ => False

namespace Task

variable {task : Task} {facts : Nat → Nat} {s : PartialPlan}

/-! ### Repairs -/

/-- A test that is made only if goals have to come last. -/
theorem or_not_iff_imp {final b : Bool} : (!final || b) = true ↔ (final → b = true) := by
  rw [Bool.or_eq_true, Bool.not_eq_true', or_iff_not_imp_left, Bool.not_eq_false]

/-- Whether a token may serve a goal where it stands. -/
def mayServe (task : Task) (s : PartialPlan) (host : Timeline) (floor : Option Nat)
    (token : TokenId) : Except Fault Bool := do
  let position? ← s.chronicle.position? token
  return position?.any (isAbove floor) && (!task.config.finalGoals || host.tail? == some token)

/-- A token may serve a goal if it stands above the floor, and last if goals have to come last. -/
theorem mayServe_eq_true (hwf : s.chronicle.WellFormed task.model facts) {id : TimelineId}
    {host : Timeline} (hhost : s.chronicle.timeline id = .ok host) {token : TokenId} {t : Token}
    (ht : s.chronicle.token token = .ok t) (htl : t.timeline = id) {floor : Option Nat} :
    task.mayServe s host floor token = .ok true ↔
      ∃ position : Nat, host.sequence[position]? = some token ∧ isAbove floor position ∧
        (task.config.finalGoals → host.tail? = some token) := by
  -- the token stands on the timeline, so that its place is found
  obtain ⟨j?, hj⟩ := hwf.exists_position? ht
  obtain ⟨t', host', j, ht', hhost', hplace, rfl⟩ := hwf.position?_eq_ok hj
  obtain rfl := Chronicle.token_inj ht ht'
  obtain rfl := Chronicle.timeline_inj hhost (htl ▸ hhost')
  rw [mayServe, hj]
  show Except.ok (isAbove floor j && _) = _ ↔ _
  rw [Except.ok.injEq, Bool.and_eq_true, or_not_iff_imp]
  constructor
  · rintro ⟨habove, htail⟩
    exact ⟨j, hplace, habove, fun hfinal => eq_of_beq (htail hfinal)⟩
  · rintro ⟨position, hposition, habove, htail⟩
    -- a token stands in one place only
    obtain rfl := Chronicle.place_unique (hwf.sequence _ _ hhost).1 hplace hposition
    exact ⟨habove, fun hfinal => beq_iff_eq.mpr (htail hfinal)⟩

/-- Whether a new token for a goal may stand at a place. -/
def mayStand (task : Task) (s : PartialPlan) (id : TimelineId) (state : String) (host : Timeline)
    (floor : Option Nat) (position : Nat) : Except Fault Bool :=
  if isAbove floor position && (!task.config.finalGoals || position == host.sequence.length) then
    s.chronicle.admitsState id state position
  else return false

/-- A new token may stand in a place for a goal if the timeline admits the state there, above the
floor, and at the end if goals have to come last. -/
theorem mayStand_eq_true {id : TimelineId} {state : String} {host : Timeline} {floor : Option Nat}
    {position : Nat} : task.mayStand s id state host floor position = .ok true ↔
      s.chronicle.admitsState id state position = .ok true ∧ isAbove floor position ∧
        (task.config.finalGoals → position = host.sequence.length) := by
  unfold mayStand
  -- a place below the floor, or not at the end for a final goal, is refused without a test
  split
  · next hok =>
    rw [Bool.and_eq_true, or_not_iff_imp, beq_iff_eq] at hok
    exact (and_iff_left hok).symm
  · next hnot =>
    rw [Bool.and_eq_true, or_not_iff_imp, beq_iff_eq] at hnot
    exact iff_of_false (fun h => absurd (Except.ok.inj h) Bool.false_ne_true)
      fun h => hnot h.2

/-- An open goal is repaired by each token of its state, and by a new one at each place where its
timeline takes it; above the floor in both cases, and at the end only if goals have to come last. -/
theorem goalRepairs_eq_ok (hwf : s.chronicle.WellFormed task.model facts) {goal : Nat}
    {ds : List Decision} (h : task.goalRepairs s goal = .ok ds) :
    ∃ g host floor, task.model.goals[goal]? = some g ∧
      s.chronicle.timeline ⟨g.timeline⟩ = .ok host ∧
      task.goalFloor s goal g.timeline = .ok floor ∧ ∀ d, d ∈ ds ↔
        (∃ token t, ∃ position : Nat, s.chronicle.token token = .ok t ∧
          t.timeline = ⟨g.timeline⟩ ∧ t.state = g.state ∧ host.sequence[position]? = some token ∧
          isAbove floor position ∧ (task.config.finalGoals → host.tail? = some token) ∧
          d = .supportGoal goal token) ∨
        ∃ position, s.chronicle.admitsState ⟨g.timeline⟩ g.state position = .ok true ∧
          isAbove floor position ∧ (task.config.finalGoals → position = host.sequence.length) ∧
          d = .insertGoal goal position := by
  obtain ⟨g, hg, h⟩ := Fault.bind_eq_ok.mp h
  obtain ⟨host, hhost, h⟩ := Fault.bind_eq_ok.mp h
  obtain ⟨floor, hfloor, h⟩ := Fault.bind_eq_ok.mp h
  obtain ⟨existing, hexisting, h⟩ := Fault.bind_eq_ok.mp h
  obtain ⟨free, hfree, h⟩ := Fault.bind_eq_ok.mp h
  obtain ⟨places, hplaces, h⟩ := Fault.bind_eq_ok.mp h
  obtain rfl := Except.ok.inj h
  -- both lists are filtered by a test that may be a fault
  have hserves (token : TokenId) : token ∈ existing ↔
      token ∈ s.chronicle.tokensWithState ⟨g.timeline⟩ g.state ∧
        task.mayServe s host floor token = .ok true := (Fault.mem_filter hexisting).2 token
  have hstands (position : Nat) : position ∈ places ↔ position ∈ free ∧
      task.mayStand s ⟨g.timeline⟩ g.state host floor position = .ok true :=
    (Fault.mem_filter hplaces).2 position
  refine ⟨g, host, floor, Fault.require_eq_ok.mp hg, hhost, hfloor, fun d => ?_⟩
  rw [List.mem_append, List.mem_map, List.mem_map]
  refine or_congr ⟨?_, ?_⟩ ⟨?_, ?_⟩
  · -- a token that is proposed was found among those of the state, and may serve
    rintro ⟨token, htoken, rfl⟩
    obtain ⟨hmem, hserve⟩ := (hserves token).mp htoken
    obtain ⟨t, ht, htl, hstate⟩ := Chronicle.mem_tokensWithState.mp hmem
    obtain ⟨position, hplace, habove, htail⟩ := (mayServe_eq_true hwf hhost ht htl).mp hserve
    exact ⟨token, t, position, ht, htl, hstate, hplace, habove, htail, rfl⟩
  · -- conversely such a token is found, and it passes the test
    rintro ⟨token, t, position, ht, htl, hstate, hplace, habove, htail, rfl⟩
    exact ⟨token, (hserves token).mpr ⟨Chronicle.mem_tokensWithState.mpr ⟨t, ht, htl, hstate⟩,
      (mayServe_eq_true hwf hhost ht htl).mpr ⟨position, hplace, habove, htail⟩⟩, rfl⟩
  · rintro ⟨position, hposition, rfl⟩
    obtain ⟨hadmits, habove, hend⟩ := mayStand_eq_true.mp ((hstands position).mp hposition).2
    exact ⟨position, hadmits, habove, hend, rfl⟩
  · rintro ⟨position, hadmits, habove, hend, rfl⟩
    -- a place that admits the state is a free one
    obtain ⟨host', hhost', hmem⟩ := Chronicle.insertablePositions_eq_ok hfree
    obtain ⟨host'', hhost'', htakes, -⟩ := Chronicle.admitsState_eq_ok hadmits
    obtain rfl := Chronicle.timeline_inj hhost' hhost''
    exact ⟨position, (hstands position).mpr ⟨(hmem position).mpr (htakes rfl),
      mayStand_eq_true.mpr ⟨hadmits, habove, hend⟩⟩, rfl⟩

/-- The repairs of a condition on the predecessor of a token: some that need no new token, and then
a new token before it. -/
def joinedOrInserted (s : PartialPlan) (token : TokenId) (i : Nat) (timeline : TimelineId)
    (state : String) (joined : List Decision) : Except Fault (List Decision) := do
  let inserted ← match ← s.chronicle.position? token with
    | some p => do
      pure <| if ← s.chronicle.admitsState timeline state p then
          [Decision.insertSupplier token i timeline state p .adjacent]
        else []
    | none => pure []
  return joined ++ inserted

/-- Besides what was joined already, a new token is proposed right in front of the one with the
condition, if it is admitted there. -/
theorem joinedOrInserted_eq_ok {token : TokenId} {i : Nat} {timeline : TimelineId} {state : String}
    {joined ds : List Decision} (h : joinedOrInserted s token i timeline state joined = .ok ds) :
    ∃ j?, s.chronicle.position? token = .ok j? ∧
      (∀ j, j? = some j → ∃ b, s.chronicle.admitsState timeline state j = .ok b) ∧
      ∀ d, d ∈ ds ↔ d ∈ joined ∨
        ∃ j, j? = some j ∧ s.chronicle.admitsState timeline state j = .ok true ∧
          d = .insertSupplier token i timeline state j .adjacent := by
  obtain ⟨j?, hj, h⟩ := Fault.bind_eq_ok.mp h
  cases j? with
  -- a token without a place offers nothing besides the joined ones
  | none =>
    obtain rfl := Except.ok.inj h
    exact ⟨none, hj, by simp, by simp⟩
  | some j =>
    obtain ⟨b, hb, h⟩ := Fault.bind_eq_ok.mp h
    obtain rfl := Except.ok.inj h
    refine ⟨some j, hj, fun k hk => ⟨b, Option.some.inj hk ▸ hb⟩, fun d => ?_⟩
    cases b <;> simp [hb]

/-- The repairs of a condition on the predecessor: the predecessor itself, or a new token before. A
token that is locked already is not joined again, even if its predecessor has the state that is
asked for. -/
theorem predecessorRepairs_eq_ok {token : TokenId} {i : Nat} {state : String} {ds : List Decision}
    (h : predecessorRepairs s token i state = .ok ds) :
    ∃ consumer p? j?, s.chronicle.token token = .ok consumer ∧
      s.chronicle.predecessor? token = .ok p? ∧ s.chronicle.position? token = .ok j? ∧
      (∀ p, p? = some p → ∃ u, s.chronicle.token p = .ok u) ∧
      (∀ j, j? = some j → ∃ b, s.chronicle.admitsState consumer.timeline state j = .ok b) ∧
      ∀ d, d ∈ ds ↔
        (∃ p u, p? = some p ∧ s.chronicle.token p = .ok u ∧ u.state = state ∧
          consumer.locked = false ∧ d = .link token i p .adjacent) ∨
        ∃ j, j? = some j ∧ s.chronicle.admitsState consumer.timeline state j = .ok true ∧
          d = .insertSupplier token i consumer.timeline state j .adjacent := by
  obtain ⟨consumer, hconsumer, h⟩ := Fault.bind_eq_ok.mp h
  obtain ⟨p?, hp, h⟩ := Fault.bind_eq_ok.mp h
  -- both ways, with a predecessor and without, end with the proposal of a new token
  cases p? with
  | none =>
    change joinedOrInserted s token i consumer.timeline state [] = .ok ds at h
    obtain ⟨j?, hj, hadmits, hmem⟩ := joinedOrInserted_eq_ok h
    exact ⟨consumer, none, j?, hconsumer, hp, hj, by simp, hadmits, fun d => by simp [hmem]⟩
  | some p =>
    obtain ⟨u, hu, h⟩ := Fault.bind_eq_ok.mp h
    obtain ⟨j?, hj, hadmits, hmem⟩ := joinedOrInserted_eq_ok h
    refine ⟨consumer, some p, j?, hconsumer, hp, hj, fun q hq => ⟨u, Option.some.inj hq ▸ hu⟩,
      hadmits, fun d => ?_⟩
    rw [hmem]
    refine or_congr_left ?_
    split
    · next hjoin => simp [hu, hjoin]
    · next hjoin =>
      simp only [List.not_mem_nil, Option.some.injEq, false_iff, not_exists, not_and]
      -- without a link, the predecessor has another state or the token is locked
      rintro q v rfl hv hstate hlocked
      obtain rfl := Chronicle.token_inj hu hv
      exact absurd ⟨hstate, hlocked⟩ hjoin

/-- New tokens of a state are proposed for the places where their timeline takes them. A timeline
that does not know the state gets no proposals; the others are asked place by place. -/
theorem insertions_eq_ok {token : TokenId} {i : Nat} {state : String} {relation : Relation}
    {id : TimelineId} {ds : List Decision} (h : insertions s token i state relation id = .ok ds) :
    ∃ host, s.chronicle.timeline id = .ok host ∧
      ((host.template? state).isSome → ∀ p, s.chronicle.Takes host p →
        ∃ b, s.chronicle.admitsState id state p = .ok b) ∧
      ∀ d, d ∈ ds ↔ (host.template? state).isSome ∧ ∃ p,
        s.chronicle.admitsState id state p = .ok true ∧
          d = .insertSupplier token i id state p relation := by
  obtain ⟨host, hhost, h⟩ := Fault.bind_eq_ok.mp h
  refine ⟨host, hhost, ?_⟩
  split at h
  · -- a timeline that does not know the state takes no insertion
    next hnone =>
    obtain rfl := Except.ok.inj h
    have hnone := Option.isNone_iff_eq_none.mp hnone
    simp [hnone]
  · next hsome =>
    have hsome := Option.isSome_iff_ne_none.mpr fun hnone =>
      hsome (Option.isNone_iff_eq_none.mpr hnone)
    obtain ⟨free, hfree, h⟩ := Fault.bind_eq_ok.mp h
    obtain ⟨places, hplaces, h⟩ := Fault.bind_eq_ok.mp h
    obtain rfl := Except.ok.inj h
    obtain ⟨host', hhost', hmem⟩ := Chronicle.insertablePositions_eq_ok hfree
    obtain rfl := Chronicle.timeline_inj hhost hhost'
    obtain ⟨hall, hplaces⟩ := Fault.mem_filter hplaces
    refine ⟨fun _ p hp => hall p ((hmem p).mpr hp), fun d => ?_⟩
    rw [List.mem_map]
    constructor
    · rintro ⟨p, hp, rfl⟩
      exact ⟨hsome, p, ((hplaces p).mp hp).2, rfl⟩
    · -- a place that admits the state is free, and so it was tested
      rintro ⟨-, p, hp, rfl⟩
      obtain ⟨host', hhost', htakes, -⟩ := Chronicle.admitsState_eq_ok hp
      obtain rfl := Chronicle.timeline_inj hhost hhost'
      exact ⟨p, (hplaces p).mpr ⟨(hmem p).mpr (htakes rfl), hp⟩, rfl⟩

/-- A class with timelines has a first one. -/
theorem exists_firstTimeline? {m : Model} {className : String} {n : Nat}
    (h : n ∈ m.timelinesOfClass className) : ∃ d, m.firstTimeline? className = some d := by
  rw [← Option.isSome_iff_exists, Model.firstTimeline?, List.find?_isSome]
  have hclass := (List.mem_filter.mp h).2
  rw [beq_iff_eq, Option.bind_eq_some_iff] at hclass
  obtain ⟨d, hd, hclass⟩ := hclass
  exact ⟨d, List.mem_of_getElem? hd, by rw [hclass, beq_self_eq_true]⟩

/-- Conflicts are repaired by orders of two members. Both orders of a pair are proposed, unless the
two cannot overlap, in which case there is nothing to order. -/
theorem repairs_of_mem_orders {ids : List ReservationId} {ds : List Decision}
    (h : orders s ids = .ok ds) {d : Decision} (hd : d ∈ ds) : ∃ before after,
      d = .order before after ∧ ([before, after].Sublist ids ∨ [after, before].Sublist ids) := by
  induction ids generalizing ds with
  | nil =>
    obtain rfl := Except.ok.inj h
    exact absurd hd List.not_mem_nil
  | cons a rest ih =>
    obtain ⟨here, hhere, h⟩ := Fault.bind_eq_ok.mp h
    obtain ⟨others, hothers, h⟩ := Fault.bind_eq_ok.mp h
    obtain rfl := Except.ok.inj h
    -- the first reservation is paired with each later one, then the later ones are
    rcases List.mem_append.mp hd with hd | hd
    · obtain ⟨pair, hpair, hd⟩ := List.mem_flatten.mp hd
      obtain ⟨b, hb, hof⟩ := (Fault.mem_mapM hhere).2 pair hpair
      have hsub : [a, b].Sublist (a :: rest) := (List.singleton_sublist.mpr hb).cons_cons a
      unfold ordersOf at hof
      -- a reservation that is gone is not ordered, and neither are two that cannot overlap
      split at hof
      · obtain ⟨overlap, -, hof⟩ := Fault.bind_eq_ok.mp hof
        obtain rfl := Except.ok.inj hof
        split at hd
        · rcases List.mem_pair.mp hd with rfl | rfl
          · exact ⟨a, b, rfl, .inl hsub⟩
          · exact ⟨b, a, rfl, .inr hsub⟩
        · exact absurd hd List.not_mem_nil
      · obtain rfl := Except.ok.inj hof
        exact absurd hd List.not_mem_nil
    · obtain ⟨before, after, rfl, hsub⟩ := ih hothers hd
      exact ⟨before, after, rfl, hsub.imp (·.cons a) (·.cons a)⟩

/-- The timelines that a reference means. -/
def hostsOf (s : PartialPlan) : ObjectRef → List TimelineId
  | .named name => (s.chronicle.find? name).toList
  | .anyOf className => s.chronicle.ofClass className

/-- The hosts of a reference are the timelines that it means. A name means one timeline at most, and
a class all of its members, created ones included. -/
theorem mem_hostsOf (hwf : s.chronicle.WellFormed task.model facts) (target : ObjectRef)
    {id : TimelineId} :
    id ∈ hostsOf s target ↔ ∃ host, s.chronicle.timeline id = .ok host ∧ host.Matches target := by
  cases target with
  | anyOf className => exact Chronicle.mem_ofClass
  | named name =>
    rw [hostsOf, Option.mem_toList]
    constructor
    · exact Chronicle.timeline_of_find?
    · -- timelines have distinct names, so the one found is the one meant
      rintro ⟨host, hhost, hname⟩
      obtain ⟨id', hid'⟩ := Chronicle.find?_isSome hhost hname
      obtain ⟨host', hhost', hname'⟩ := Chronicle.timeline_of_find? hid'
      rwa [← hwf.name_inj _ _ _ _ hhost' hhost (hname'.trans hname.symm)]

/-- What may supply a token is another token of the state on a timeline that the reference means. -/
theorem mem_suppliers (hwf : s.chronicle.WellFormed task.model facts) {token : TokenId}
    {target : ObjectRef} {state : String} {suppliers : List TokenId}
    (h : Fault.filter (fun p => if p = token then return false else
      (s.chronicle.position? p).map Option.isSome)
        ((hostsOf s target).flatMap fun id => s.chronicle.tokensWithState id state) =
      .ok suppliers) {p : TokenId} :
    p ∈ suppliers ↔ ∃ u host, s.chronicle.token p = .ok u ∧ u.state = state ∧
      s.chronicle.timeline u.timeline = .ok host ∧ host.Matches target ∧ p ≠ token := by
  obtain ⟨hall, hmem⟩ := Fault.mem_filter h
  rw [hmem]
  constructor
  · -- a token does not supply itself
    rintro ⟨hp, hsupply⟩
    obtain ⟨id, hid, hp⟩ := List.mem_flatMap.mp hp
    obtain ⟨host, hhost, hmatch⟩ := (mem_hostsOf hwf target).mp hid
    obtain ⟨u, hu, rfl, hstate⟩ := Chronicle.mem_tokensWithState.mp hp
    refine ⟨u, host, hu, hstate, hhost, hmatch, ?_⟩
    rintro rfl
    rw [if_pos rfl] at hsupply
    exact absurd hsupply (by simp [pure, Except.pure])
  · rintro ⟨u, host, hu, hstate, hhost, hmatch, hne⟩
    have hholder : p ∈ (hostsOf s target).flatMap fun id =>
        s.chronicle.tokensWithState id state :=
      List.mem_flatMap.mpr ⟨_, (mem_hostsOf hwf target).mpr ⟨host, hhost, hmatch⟩,
        Chronicle.mem_tokensWithState.mpr ⟨u, hu, rfl, hstate⟩⟩
    refine ⟨hholder, ?_⟩
    -- every token of a well-formed chronicle has a position
    obtain ⟨b, hb⟩ := hall p hholder
    rw [if_neg hne] at hb ⊢
    obtain ⟨j?, hj, rfl⟩ := Fault.map_eq_ok.mp hb
    obtain ⟨_, _, j, -, -, -, rfl⟩ := hwf.position?_eq_ok hj
    rw [hj]
    rfl

/-- New tokens are proposed on every timeline that the reference means. The lists for the single
timelines are computed one after the other and then joined. -/
theorem mem_insertionsOf (hwf : s.chronicle.WellFormed task.model facts) {token : TokenId} {i : Nat}
    {target : ObjectRef} {state : String} {relation : Relation} {lists : List (List Decision)}
    (h : (hostsOf s target).mapM (insertions s token i state relation) = .ok lists) :
    (∀ id host, s.chronicle.timeline id = .ok host → host.Matches target →
        ∃ inserted, insertions s token i state relation id = .ok inserted) ∧
      ∀ d, d ∈ lists.flatten ↔ ∃ id host inserted, s.chronicle.timeline id = .ok host ∧
        host.Matches target ∧ insertions s token i state relation id = .ok inserted ∧
        d ∈ inserted := by
  obtain ⟨hleft, hright⟩ := Fault.mem_mapM h
  constructor
  · -- every timeline that fits the target was asked for its insertions
    intro id host hhost hmatch
    obtain ⟨inserted, -, hinserted⟩ := hleft id ((mem_hostsOf hwf target).mpr ⟨host, hhost, hmatch⟩)
    exact ⟨inserted, hinserted⟩
  · intro d
    rw [List.mem_flatten]
    constructor
    · rintro ⟨inserted, hinserted, hd⟩
      obtain ⟨id, hid, hinserted⟩ := hright inserted hinserted
      obtain ⟨host, hhost, hmatch⟩ := (mem_hostsOf hwf target).mp hid
      exact ⟨id, host, inserted, hhost, hmatch, hinserted, hd⟩
    · rintro ⟨id, host, inserted, hhost, hmatch, hinserted, hd⟩
      -- what is proposed on one timeline is determined, so it is the list at hand
      obtain ⟨inserted', hmem', hinserted'⟩ :=
        hleft id ((mem_hostsOf hwf target).mpr ⟨host, hhost, hmatch⟩)
      obtain rfl := Except.ok.inj (hinserted.symm.trans hinserted')
      exact ⟨_, hmem', hd⟩

/-- The repairs of a condition on another timeline: some that need no new timeline, and then a new
one if the class may gain another. -/
def foundOrCreated (task : Task) (s : PartialPlan) (token : TokenId) (i : Nat) (target : ObjectRef)
    (state : String) (relation : Relation) (found : List Decision) :
    Except Fault (List Decision) := do
  let created ← match target with
    | .named _ => pure []
    | .anyOf className =>
      match (task.model.timelinesOfClass className).head? with
      | none => pure []
      -- a new timeline is judged by the declared one that it would copy
      | some n => do
        let t ← s.chronicle.timeline ⟨n⟩
        pure <| if canFollow t.states state none &&
            task.maySynthesize className (s.chronicle.synthesizedCount className) then
          [Decision.createTimeline token i className state relation]
        else []
  return found ++ created

/-- A new timeline is proposed behind what was found, if the target is a class that has a declared
timeline and may get one more. -/
theorem foundOrCreated_eq_ok {token : TokenId} {i : Nat} {target : ObjectRef} {state : String}
    {relation : Relation} {found ds : List Decision}
    (h : task.foundOrCreated s token i target state relation found = .ok ds) :
    ∃ created, ds = found ++ created ∧ ∀ d ∈ created, ∃ className n, target = .anyOf className ∧
      (task.model.timelinesOfClass className).head? = some n ∧
      task.maySynthesize className (s.chronicle.synthesizedCount className) ∧
      d = .createTimeline token i className state relation := by
  unfold foundOrCreated at h
  cases target with
  | named name => exact ⟨[], (Except.ok.inj h).symm, by simp⟩
  | anyOf className =>
    dsimp only at h
    split at h
    · -- no timeline of the class is declared that could be copied
      exact ⟨[], (Except.ok.inj h).symm, by simp⟩
    · next n hn =>
      obtain ⟨t, -, h⟩ := Fault.bind_eq_ok.mp h
      refine ⟨_, (Except.ok.inj h).symm, fun d hd => ⟨className, n, rfl, hn, ?_⟩⟩
      -- created only if its state can come first there and the class may get one more
      split at hd
      · next hmay => exact ⟨(Bool.and_eq_true_iff.mp hmay).2, List.mem_singleton.mp hd⟩
      · exact absurd hd List.not_mem_nil

/-- The repairs of a condition on another timeline: its tokens, new tokens on it, a new timeline if
the class may gain another. -/
theorem supplierRepairs_eq_ok (hwf : s.chronicle.WellFormed task.model facts) {token : TokenId}
    {i : Nat} {target : ObjectRef} {state : String} {relation : Relation} {ds : List Decision}
    (h : task.supplierRepairs s token i target state relation = .ok ds) :
    ∃ created : List Decision,
      (∀ d ∈ created, ∃ className n, target = .anyOf className ∧
        (task.model.timelinesOfClass className).head? = some n ∧
        task.maySynthesize className (s.chronicle.synthesizedCount className) ∧
        d = .createTimeline token i className state relation) ∧
      (∀ id host, s.chronicle.timeline id = .ok host → host.Matches target →
        ∃ inserted, insertions s token i state relation id = .ok inserted) ∧
      ∀ d, d ∈ ds ↔
        (∃ p u host, s.chronicle.token p = .ok u ∧ u.state = state ∧
          s.chronicle.timeline u.timeline = .ok host ∧ host.Matches target ∧ p ≠ token ∧
          d = .link token i p relation) ∨
        (∃ id host inserted, s.chronicle.timeline id = .ok host ∧ host.Matches target ∧
          insertions s token i state relation id = .ok inserted ∧ d ∈ inserted) ∨ d ∈ created := by
  obtain ⟨suppliers, hsuppliers, h⟩ := Fault.bind_eq_ok.mp h
  obtain ⟨lists, hlists, h⟩ := Fault.bind_eq_ok.mp h
  change task.foundOrCreated s token i target state relation
    (suppliers.map (fun p => .link token i p relation) ++ lists.flatten) = .ok ds at h
  -- the repairs are a concatenation of three lists, of which the last has at most one member
  obtain ⟨created, rfl, hcreated⟩ := foundOrCreated_eq_ok h
  obtain ⟨hinsertions, hinserted⟩ := mem_insertionsOf hwf hlists
  refine ⟨created, hcreated, hinsertions, fun d => ?_⟩
  rw [List.mem_append, List.mem_append, or_assoc, hinserted, List.mem_map]
  -- the list of suppliers and its characterization, both ways
  refine or_congr_left ⟨?_, ?_⟩
  · rintro ⟨p, hp, rfl⟩
    obtain ⟨u, host, hu, hstate, hhost, hmatch, hne⟩ := (mem_suppliers hwf hsuppliers).mp hp
    exact ⟨p, u, host, hu, hstate, hhost, hmatch, hne, rfl⟩
  · rintro ⟨p, u, host, hu, hstate, hhost, hmatch, hne, rfl⟩
    exact ⟨p, (mem_suppliers hwf hsuppliers).mpr ⟨u, host, hu, hstate, hhost, hmatch, hne⟩, rfl⟩

/-- The repairs of a condition in place `i` of a token. -/
def repairsFor (task : Task) (s : PartialPlan) (token : TokenId) (i : Nat) :
    Condition → Except Fault (List Decision)
  | .uses target amount => .ok (task.resourceRepairs s token i target amount)
  | .follows state => predecessorRepairs s token i state
  | .metBy target state => task.supplierRepairs s token i target state .metBy
  | .during target state => task.supplierRepairs s token i target state .during

/-- A condition that is repaired is one of the token's state. The slot is looked up among the
conditions of the state that the token has, on the timeline where it stands. -/
theorem asks_of_conditionRepairs {token : TokenId} {i : Nat} {ds : List Decision}
    (h : task.conditionRepairs s token i = .ok ds) :
    ds = [] ∨ ∃ condition, s.chronicle.Asks token i condition ∧
      task.repairsFor s token i condition = .ok ds := by
  obtain ⟨template?, htemplate, h⟩ := Fault.bind_eq_ok.mp h
  obtain ⟨t, ht, htemplate⟩ := Fault.bind_eq_ok.mp htemplate
  obtain ⟨host, hhost, htemplate⟩ := Fault.bind_eq_ok.mp htemplate
  obtain rfl := Except.ok.inj htemplate
  -- a place without condition gets no repairs
  cases hcondition : (host.template? t.state).bind (·.conditions[i]?) with
  | none =>
    rw [hcondition] at h
    exact .inl (Except.ok.inj h).symm
  | some condition =>
    rw [hcondition] at h
    obtain ⟨template, htemplate, hcondition⟩ := Option.bind_eq_some_iff.mp hcondition
    refine .inr ⟨condition, ⟨t, host, template, ht, hhost, htemplate, hcondition⟩, ?_⟩
    cases condition <;> exact h

/-! ### What is proposed -/

/-- `task.Proposes s flaw d`: there is cause to propose `d` as a repair of `flaw`. A decision is
proposed in ten ways, and only if what it refers to is there and is what the flaw asks for. -/
inductive Proposes (task : Task) (s : PartialPlan) : Flaw → Decision → Prop
  /-- A token that there is serves the goal. -/
  | supportGoal {goal : Nat} {g : GroundRef} {token : TokenId} {t : Token}
      (hgoal : task.model.goals[goal]? = some g) (ht : s.chronicle.token token = .ok t)
      (htl : t.timeline = ⟨g.timeline⟩) (hstate : t.state = g.state) :
      Proposes task s (.openGoal goal) (.supportGoal goal token)
  /-- A new token serves the goal. -/
  | insertGoal {goal position : Nat} {g : GroundRef} (hgoal : task.model.goals[goal]? = some g)
      (hadmits : s.chronicle.admitsState ⟨g.timeline⟩ g.state position = .ok true) :
      Proposes task s (.openGoal goal) (.insertGoal goal position)
  /-- A resource that there is has enough units. -/
  | reserve {token : TokenId} {i amount : Nat} {target : ObjectRef} {resource : ResourceId}
      {r : Resource} (hasks : s.chronicle.Asks token i (.uses target amount))
      (hr : s.reservations.resource? resource = some r) (hmatch : r.Matches target)
      (hholds : r.canHold amount) :
      Proposes task s (.openCondition token i) (.reserve token i resource amount)
  /-- A new resource of the class has enough units. -/
  | createResource {token : TokenId} {i amount : Nat} {className : String} {d : ResourceDef}
      (hasks : s.chronicle.Asks token i (.uses (.anyOf className) amount))
      (hfirst : task.model.firstResource? className = some d) (hholds : d.capacity.all (amount ≤ ·))
      (hmay : task.maySynthesize className (s.reservations.synthesizedCount className)) :
      Proposes task s (.openCondition token i) (.createResource token i className amount)
  /-- A token of the state is taken for the predecessor. -/
  | join {token p : TokenId} {i : Nat} {u : Token} {state : String}
      (hasks : s.chronicle.Asks token i (.follows state)) (hu : s.chronicle.token p = .ok u)
      (hstate : u.state = state) :
      Proposes task s (.openCondition token i) (.link token i p .adjacent)
  /-- A new token is put right before the one with the condition. -/
  | insertBefore {token : TokenId} {i position : Nat} {t : Token} {host : Timeline} {state : String}
      (hasks : s.chronicle.Asks token i (.follows state)) (ht : s.chronicle.token token = .ok t)
      (hhost : s.chronicle.timeline t.timeline = .ok host)
      (hplace : host.sequence[position]? = some token)
      (hadmits : s.chronicle.admitsState t.timeline state position = .ok true) :
      Proposes task s (.openCondition token i)
        (.insertSupplier token i t.timeline state position .adjacent)
  /-- A token on another timeline is of the state. -/
  | link {token p : TokenId} {i : Nat} {u : Token} {host : Timeline} {condition : Condition}
      {target : ObjectRef} {state : String} {relation : Relation}
      (hcondition : condition.Beside target state relation)
      (hasks : s.chronicle.Asks token i condition) (hu : s.chronicle.token p = .ok u)
      (hstate : u.state = state) (hhost : s.chronicle.timeline u.timeline = .ok host)
      (hmatch : host.Matches target) :
      Proposes task s (.openCondition token i) (.link token i p relation)
  /-- A new token on another timeline is of the state. -/
  | insertSupplier {token : TokenId} {i position : Nat} {id : TimelineId} {host : Timeline}
      {condition : Condition} {target : ObjectRef} {state : String} {relation : Relation}
      (hcondition : condition.Beside target state relation)
      (hasks : s.chronicle.Asks token i condition) (hhost : s.chronicle.timeline id = .ok host)
      (hmatch : host.Matches target)
      (hadmits : s.chronicle.admitsState id state position = .ok true) :
      Proposes task s (.openCondition token i) (.insertSupplier token i id state position relation)
  /-- A new token on a new timeline of the class is of the state. -/
  | createTimeline {token : TokenId} {i : Nat} {className state : String} {d : TimelineDef}
      {condition : Condition} {relation : Relation}
      (hcondition : condition.Beside (.anyOf className) state relation)
      (hasks : s.chronicle.Asks token i condition)
      (hfirst : task.model.firstTimeline? className = some d)
      (hmay : task.maySynthesize className (s.chronicle.synthesizedCount className)) :
      Proposes task s (.openCondition token i) (.createTimeline token i className state relation)
  /-- Two members of the conflict are put in order. -/
  | order {c : Conflict} {before after : ReservationId}
      (hmembers : [before, after].Sublist c.members ∨ [after, before].Sublist c.members) :
      Proposes task s (.conflict c) (.order before after)

/-- What is listed for a goal is what the rules propose for it. -/
theorem proposes_of_mem_goalRepairs (hwf : s.chronicle.WellFormed task.model facts) {goal : Nat}
    {ds : List Decision} (h : task.goalRepairs s goal = .ok ds) {d : Decision} (hd : d ∈ ds) :
    task.Proposes s (.openGoal goal) d := by
  obtain ⟨g, _, _, hg, -, -, hmem⟩ := goalRepairs_eq_ok hwf h
  rcases (hmem d).mp hd with ⟨_, t, _, ht, htl, hstate, -, -, -, rfl⟩ | ⟨_, hadmits, -, -, rfl⟩
  · exact .supportGoal hg ht htl hstate
  · exact .insertGoal hg hadmits

/-- Of the resources that a condition means those are proposed that have room. The test for room is
a parameter, since the program words it differently for a name and for a class. -/
theorem proposes_of_mem_reserves {token : TokenId} {i amount : Nat} {target : ObjectRef}
    (hasks : s.chronicle.Asks token i (.uses target amount)) {ids : List ResourceId}
    (hids : ∀ id ∈ ids, ∃ r, s.reservations.resource? id = some r ∧ r.Matches target)
    {hasRoom : ResourceId → Bool}
    (hholds : ∀ id r, s.reservations.resource? id = some r → hasRoom id → r.canHold amount)
    {d : Decision}
    (hd : d ∈ (ids.filter hasRoom).map fun id => Decision.reserve token i id amount) :
    task.Proposes s (.openCondition token i) d := by
  obtain ⟨id, hid, rfl⟩ := List.mem_map.mp hd
  obtain ⟨hid, hroom⟩ := List.mem_filter.mp hid
  obtain ⟨r, hr, hmatch⟩ := hids id hid
  exact .reserve hasks hr hmatch (hholds id r hr hroom)

/-- What is listed for a condition on units is what the rules propose for it. A resource with too
small a capacity is left out, and a new one is offered for a class only, within its limit. -/
theorem proposes_of_mem_resourceRepairs {token : TokenId} {i amount : Nat} {target : ObjectRef}
    (hasks : s.chronicle.Asks token i (.uses target amount)) {d : Decision}
    (hd : d ∈ task.resourceRepairs s token i target amount) :
    task.Proposes s (.openCondition token i) d := by
  unfold resourceRepairs at hd
  -- a name means one resource at most, and none is created for it
  cases target with
  | named name =>
    dsimp only at hd
    rw [List.append_nil] at hd
    refine proposes_of_mem_reserves hasks (fun id hid => ?_) (fun id r hr hroom => ?_) hd
    · exact ReservationBook.resource_of_find? (Option.mem_toList.mp hid)
    · rwa [hr] at hroom
  | anyOf className =>
    rcases List.mem_append.mp hd with hd | hd
    · refine proposes_of_mem_reserves hasks (fun id hid => ReservationBook.mem_ofClass.mp hid)
        (fun id r hr hroom => ?_) hd
      rwa [hr] at hroom
    · -- a new resource is like the first one of the class
      dsimp only at hd
      split at hd
      · next template htemplate =>
        split at hd
        · next hroom =>
          obtain ⟨hholds, hmay⟩ := Bool.and_eq_true_iff.mp hroom
          obtain rfl := List.mem_singleton.mp hd
          exact .createResource hasks htemplate hholds hmay
        · exact absurd hd List.not_mem_nil
      · exact absurd hd List.not_mem_nil

/-- What is listed for a condition on the predecessor is what the rules propose for it. -/
theorem proposes_of_mem_predecessorRepairs (hwf : s.chronicle.WellFormed task.model facts)
    {token : TokenId} {i : Nat} {state : String}
    (hasks : s.chronicle.Asks token i (.follows state)) {ds : List Decision}
    (h : predecessorRepairs s token i state = .ok ds) {d : Decision} (hd : d ∈ ds) :
    task.Proposes s (.openCondition token i) d := by
  obtain ⟨t, p?, j?, ht, -, hj, -, -, hmem⟩ := predecessorRepairs_eq_ok h
  rcases (hmem d).mp hd with ⟨p, u, -, hu, hstate, -, rfl⟩ | ⟨j, rfl, hadmits, rfl⟩
  · exact .join hasks hu hstate
  · obtain ⟨t', host, k, ht', hhost, hk, hjk⟩ := hwf.position?_eq_ok hj
    obtain rfl := Chronicle.token_inj ht ht'
    obtain rfl := Option.some.inj hjk
    exact .insertBefore hasks ht hhost hk hadmits

/-- What is listed for a condition on another timeline is what the rules propose for it. -/
theorem proposes_of_mem_supplierRepairs (hwf : s.chronicle.WellFormed task.model facts)
    {token : TokenId} {i : Nat} {target : ObjectRef} {state : String} {relation : Relation}
    {condition : Condition} (hcondition : condition.Beside target state relation)
    (hasks : s.chronicle.Asks token i condition) {ds : List Decision}
    (h : task.supplierRepairs s token i target state relation = .ok ds) {d : Decision}
    (hd : d ∈ ds) : task.Proposes s (.openCondition token i) d := by
  obtain ⟨created, hcreated, -, hmem⟩ := supplierRepairs_eq_ok hwf h
  -- a token that is there is linked, or one is inserted, or a timeline is created for one
  rcases (hmem d).mp hd with ⟨p, u, host, hu, hstate, hhost, hmatch, -, rfl⟩ |
    ⟨id, host, inserted, hhost, hmatch, hinserted, hd⟩ | hd
  · exact .link hcondition hasks hu hstate hhost hmatch
  · obtain ⟨_, -, -, hinsertions⟩ := insertions_eq_ok hinserted
    obtain ⟨-, p, hadmits, rfl⟩ := (hinsertions d).mp hd
    exact .insertSupplier hcondition hasks hhost hmatch hadmits
  · obtain ⟨className, n, rfl, hn, hmay, rfl⟩ := hcreated d hd
    obtain ⟨d, hd⟩ := exists_firstTimeline? (List.mem_of_head? hn)
    exact .createTimeline hcondition hasks hd hmay

/-- **Every repair of a flaw is proposed with cause.** `Proposes` has one rule for each kind of
repair, with the reasons for it as premises, so that later proofs need not look into the lists
again. -/
theorem proposes_of_mem_repairs (hwf : s.chronicle.WellFormed task.model facts) {flaw : Flaw}
    {ds : List Decision} (h : task.repairs s flaw = .ok ds) {d : Decision} (hd : d ∈ ds) :
    task.Proposes s flaw d := by
  cases flaw with
  | openGoal goal => exact proposes_of_mem_goalRepairs hwf h hd
  | openCondition token i =>
    -- a slot behind the conditions of the state asks for nothing
    rcases asks_of_conditionRepairs h with rfl | ⟨condition, hasks, h⟩
    · exact absurd hd List.not_mem_nil
    · cases condition with
      | uses target amount =>
        obtain rfl := Except.ok.inj h
        exact proposes_of_mem_resourceRepairs hasks hd
      | follows state => exact proposes_of_mem_predecessorRepairs hwf hasks h hd
      | metBy target state => exact proposes_of_mem_supplierRepairs hwf .metBy hasks h hd
      | during target state => exact proposes_of_mem_supplierRepairs hwf .during hasks h hd
  | conflict c =>
    -- only the orders of two members repair a conflict
    obtain ⟨before, after, rfl, hmembers⟩ := repairs_of_mem_orders h hd
    exact .order hmembers

/-- **All repairs of a flaw suit.** To suit is what carrying the decision out relies on, and it
stays true of a candidate until it is handed out. -/
theorem suits_of_mem_repairs (hwf : s.chronicle.WellFormed task.model facts) {flaw : Flaw}
    {ds : List Decision} (h : task.repairs s flaw = .ok ds) : ∀ d ∈ ds, d.Suits task s := by
  intro d hd
  -- each rule asks for what suits, and for more
  cases proposes_of_mem_repairs hwf h hd with
  | supportGoal hgoal ht htl hstate => exact ⟨_, _, hgoal, ht, htl, hstate⟩
  | insertGoal | order => trivial
  | reserve hasks hr hmatch hholds => exact ⟨_, _, hasks, hr, hmatch, hholds⟩
  | createResource hasks hfirst hholds => exact ⟨hasks, _, hfirst, hholds⟩
  | join hasks hu hstate => exact ⟨_, hasks, rfl, _, hu, hstate⟩
  | insertBefore hasks => exact ⟨_, hasks, rfl, rfl⟩
  | link hcondition hasks hu hstate hhost hmatch =>
    exact ⟨_, hasks, hcondition.relation?_eq, hcondition.supplies hu hstate hhost hmatch⟩
  | insertSupplier hcondition hasks hhost hmatch =>
    exact ⟨_, hasks, hcondition.relation?_eq, hcondition.wants hhost hmatch⟩
  | createTimeline hcondition hasks hfirst =>
    exact ⟨_, hasks, hcondition.relation?_eq, hcondition.eq_or_eq, _, hfirst⟩

/-- **All decisions proposed for a flaw are of the kind that repairs it.** -/
theorem repairs_of_mem_repairs (hwf : s.chronicle.WellFormed task.model facts) {flaw : Flaw}
    {ds : List Decision} (h : task.repairs s flaw = .ok ds) : ∀ d ∈ ds, d.Repairs flaw := by
  intro d hd
  cases proposes_of_mem_repairs hwf h hd with
  | supportGoal | insertGoal => rfl
  | reserve | createResource | join | insertBefore | link | insertSupplier | createTimeline =>
    exact ⟨rfl, rfl⟩
  | order hmembers => exact hmembers

/-! ### Looking ahead -/

/-- The timepoints of a token exist. -/
theorem contains_of_token {m : Model} (h : s.Tidy m facts) {id : TokenId} {t : Token}
    (ht : s.chronicle.token id = .ok t) :
    s.network.contains t.start ∧ s.network.contains t.stop := by
  rw [Network.contains_iff, Network.contains_iff, h.size_eq]
  exact h.chronicle.timepoints_lt ht

/-- The timepoints of a reservation exist. -/
theorem contains_of_reservation {m : Model} (h : s.Tidy m facts) {id : ReservationId}
    {r : Reservation} (hr : s.reservations.reservation? id = some r) :
    s.network.contains r.start ∧ s.network.contains r.stop := by
  obtain ⟨_, _, _, t, -, -, -, -, ht, hstart, hstop⟩ := h.exists_asks hr
  rw [hstart, hstop]
  exact contains_of_token h ht

/-- The question whether there is room for a constraint can be answered if its timepoints are there.
-/
theorem exists_hasRoom {c : Constraint} (hfirst : s.network.contains c.first)
    (hsecond : s.network.contains c.second) : ∃ b, hasRoom s c = .ok b :=
  ⟨_, Fault.bind_eq_ok.mpr ⟨(), Network.require_eq_ok.mpr hfirst,
    Fault.bind_eq_ok.mpr ⟨(), Network.require_eq_ok.mpr hsecond, rfl⟩⟩⟩

/-- Looking ahead finds everything that a decision that suits refers to. A decision that is not
tested for room is admitted at once; for the others the tokens and their timepoints are there to be
read. -/
theorem exists_admits (h : s.Tidy task.model facts) {d : Decision} (hd : d.Suits task s) :
    ∃ b, admits s d = .ok b := by
  cases d with
  | supportGoal | insertGoal | reserve | createResource | insertSupplier | createTimeline =>
    exact ⟨true, rfl⟩
  -- an order of reservations of which one is gone has no room
  | order before after =>
    simp only [admits]
    split
    · next b a hb ha =>
      exact exists_hasRoom (contains_of_reservation h hb).2 (contains_of_reservation h ha).1
    · exact ⟨false, rfl⟩
  | link token i supplier relation =>
    obtain ⟨condition, ⟨t, host, _, ht, hhost, -⟩, -, hsupplies⟩ := hd
    obtain ⟨u, hu⟩ := hsupplies.exists_token
    obtain ⟨hstart, hstop⟩ := contains_of_token h ht
    obtain ⟨hstart', hstop'⟩ := contains_of_token h hu
    -- the constraints of the relation are about timepoints of the two tokens
    cases relation with
    | metBy =>
      obtain ⟨b, hb⟩ := exists_hasRoom (c := .exactly u.stop t.start 0) hstop' hstart
      exact ⟨b, Fault.bind_eq_ok.mpr ⟨t, ht, Fault.bind_eq_ok.mpr ⟨u, hu, hb⟩⟩⟩
    | adjacent =>
      obtain ⟨p?, hp⟩ : ∃ p?, s.chronicle.predecessor? token = .ok p? :=
        ⟨_, Fault.bind_eq_ok.mpr ⟨t, ht, Fault.bind_eq_ok.mpr ⟨host, hhost, rfl⟩⟩⟩
      obtain ⟨b, hb⟩ : ∃ b, (if p? = some supplier then hasRoom s (.exactly u.stop t.start 0)
          else return false) = .ok b := by
        split
        · exact exists_hasRoom hstop' hstart
        · exact ⟨false, rfl⟩
      exact ⟨b, Fault.bind_eq_ok.mpr ⟨t, ht, Fault.bind_eq_ok.mpr ⟨u, hu,
        Fault.bind_eq_ok.mpr ⟨p?, hp, hb⟩⟩⟩⟩
    | during =>
      obtain ⟨room, hroom⟩ := exists_hasRoom (c := .precedes u.start t.start) hstart' hstart
      obtain ⟨b, hb⟩ : ∃ b, (if room then hasRoom s (.precedes t.stop u.stop)
          else return false) = .ok b := by
        split
        · exact exists_hasRoom hstop hstop'
        · exact ⟨false, rfl⟩
      exact ⟨b, Fault.bind_eq_ok.mpr ⟨t, ht, Fault.bind_eq_ok.mpr ⟨u, hu,
        Fault.bind_eq_ok.mpr ⟨room, hroom, hb⟩⟩⟩⟩

end Task

end TemporalPlanning
