import TemporalPlanning.Proofs.Search.CarryOut
import TemporalPlanning.Proofs.Search.FreshName
import TemporalPlanning.Proofs.Search.Repairs

/-!
# The steps of a decision

A decision is carried out in steps: a token is placed, a token is linked to a supplier, units are
reserved, a goal is served, two reservations are ordered, an object is created. `Task.Step` lists
what a step can do, with what makes it fit, and `Task.Steps` puts steps together. A decision that
suits is carried out in such steps (`PartialPlan.Tidy.carryOut_steps`), so that whatever every step
keeps, every decision keeps: a partial plan stays tidy (`PartialPlan.Tidy.apply`), and no support
and no reservation is taken away (`PartialPlan.Tidy.retains_apply`).

`Chronicle.Changes` and `ReservationBook.Changes` say what becomes of the timelines and of the
reservations in a step (`PartialPlan.Tidy.changes_step`). What steps keep of the timelines alone is
proved for these changes.
-/

namespace TemporalPlanning

namespace Task

/-- `task.Step s made s'`: a step of a decision leads from `s` to `s'` and makes the reservations
`made`. -/
inductive Step (task : Task) (s : PartialPlan) : List ReservationId → PartialPlan → Prop
  | place {s' : PartialPlan} {id : TimelineId} {state : String} {position : Nat} {token : TokenId}
      (hs : Edit.place id state position s = .done token s') : Step task s [] s'
  | linkTo {s' : PartialPlan} {consumer supplier : TokenId} {i : Nat} {relation : Relation}
      {condition : Condition} {u : Unit} (hasks : s.chronicle.Asks consumer i condition)
      (hrelation : condition.relation? = some relation)
      (hsupplies : s.chronicle.Supplies supplier condition)
      (hs : linkTo consumer i supplier relation s = .done u s') : Step task s [] s'
  | reserveFor {s' : PartialPlan} {id : TokenId} {i amount : Nat} {target : ObjectRef}
      {resource : ResourceId} {res : Resource} {reservation : ReservationId}
      (hasks : s.chronicle.Asks id i (.uses target amount))
      (hres : s.reservations.resource? resource = some res) (hmatch : res.Matches target)
      (hroom : res.canHold amount)
      (hs : reserveFor id i resource amount s = .done reservation s') : Step task s [reservation] s'
  | serveGoal {s' : PartialPlan} {g : Nat} {goal : GroundRef} {id : TokenId} {t : Token} {u : Unit}
      (hgoal : task.model.goals[g]? = some goal) (ht : s.chronicle.token id = .ok t)
      (htl : t.timeline = ⟨goal.timeline⟩) (hstate : t.state = goal.state)
      (hs : task.serveGoal g id s = .done u s') : Step task s [] s'
  | order {s' : PartialPlan} {before after : ReservationId} {b a : Reservation} {u : Unit}
      (hb : s.reservations.reservation? before = some b)
      (ha : s.reservations.reservation? after = some a)
      (hs : Edit.post (.precedes b.stop a.start) s = .done u s') : Step task s [] s'
  | addTimeline {s' : PartialPlan} {name className : String} {states : List StateTemplate}
      {id : TimelineId}
      (hnew : ({ name, className := some className, states, synthesized := true } :
        Timeline).Created task.model)
      (hname : ∀ id t, s.chronicle.timeline id = .ok t → t.name ≠ name)
      (hs : Edit.addTimeline name (some className) states true s = .done id s') : Step task s [] s'
  | addResource {s' : PartialPlan} {new : Resource} {id : ResourceId}
      (hnew : new.Created task.model)
      (hname : ∀ id r, s.reservations.resource? id = some r → r.name ≠ new.name)
      (hs : Edit.addResource new s = .done id s') : Step task s [] s'

/-- Steps one after the other, and the reservations that they make. -/
inductive Steps (task : Task) (s : PartialPlan) : List ReservationId → PartialPlan → Prop
  | refl : Steps task s [] s
  | tail {s₁ s' : PartialPlan} {made more : List ReservationId} (h : Steps task s made s₁)
      (hs : task.Step s₁ more s') : Steps task s (made ++ more) s'

variable {task : Task} {s s₁ s' : PartialPlan} {made more : List ReservationId}

/-- A resource with a fresh name is created for its class. -/
theorem created_freshResource {className : String} {d : ResourceDef}
    (hd : task.model.firstResource? className = some d) :
    (⟨task.freshName s className, className,
      (task.model.firstResource? className).bind (·.capacity), true⟩ : Resource).Created
        task.model := by
  obtain ⟨hobject, -, -⟩ := ne_of_not_isTaken (isTaken_freshName (s := s) className)
  exact ⟨hobject, _, d, rfl, hd, by rw [hd, Option.bind_some]⟩

/-- A timeline with a fresh name is created for its class. -/
theorem created_freshTimeline {className : String} {d : TimelineDef}
    (hd : task.model.firstTimeline? className = some d) :
    ({ name := task.freshName s className
       className := some className
       states := ((task.model.firstTimeline? className).map (·.states)).getD []
       synthesized := true } : Timeline).Created task.model := by
  obtain ⟨hobject, -, -⟩ := ne_of_not_isTaken (isTaken_freshName (s := s) className)
  exact ⟨rfl, hobject, className, _, d, rfl, rfl, hd, by rw [hd]; rfl⟩

theorem Step.steps (h : task.Step s made s') : task.Steps s made s' := .tail .refl h

/-- A step that makes no reservation comes before others. -/
theorem Steps.head (h : task.Step s [] s₁) (hs : task.Steps s₁ made s') : task.Steps s made s' := by
  induction hs with
  | refl => exact h.steps
  | tail _ hstep ih => exact .tail ih hstep

end Task

namespace PartialPlan

variable {task : Task} {facts : Nat → Nat} {s s' : PartialPlan} {made : List ReservationId}

/-! ### What steps keep -/

/-- A step keeps a partial plan tidy. Each of the seven kinds of steps has its lemma, and the
theorem lists them. -/
theorem Tidy.step (h : s.Tidy task.model facts) (hs : task.Step s made s') :
    s'.Tidy task.model facts := by
  cases hs with
  | place hs => exact h.place hs
  | linkTo hasks hrelation hsupplies hs => exact h.linkTo hasks hrelation hsupplies hs
  | reserveFor hasks hres hmatch _ hs => exact h.reserveFor hasks hres hmatch hs
  | serveGoal hgoal ht htl hstate hs => exact h.serveGoal hgoal ht htl hstate hs
  | order _ _ hs => exact h.post hs
  | addTimeline hnew hname hs => exact (h.addTimeline hnew hname hs).1
  | addResource _ _ hs => exact (h.addResource hs).1

theorem Tidy.steps (h : s.Tidy task.model facts) (hs : task.Steps s made s') :
    s'.Tidy task.model facts := by
  induction hs with
  | refl => exact h
  | tail _ hstep ih => exact ih.step hstep

/-- A step places a token or leaves the number of timepoints alone. A token brings its two
timepoints, and these are the only ones besides the origin. -/
theorem Tidy.size_step (h : s.Tidy task.model facts) (hs : task.Step s made s') :
    s'.network.size = s.network.size ∨ s'.network.size = s.network.size + 2 := by
  -- only a token brings timepoints, its start and its stop
  cases hs with
  | place hs =>
    obtain ⟨_, _, placed, -⟩ := Edit.place_footprint h.size_eq hs
    exact .inr placed.size_eq
  | linkTo _ _ _ hs =>
    obtain ⟨_, _, linked, -⟩ := Task.linkTo_footprint hs
    exact .inl linked.size_eq
  | reserveFor _ _ _ _ hs =>
    obtain ⟨_, reserved⟩ := Task.reserveFor_eq_done hs
    exact .inl (by rw [network, reserved.net_eq])
  | serveGoal _ _ _ _ hs =>
    obtain ⟨-, hnet, -⟩ := Task.serveGoal_eq_done hs
    exact .inl (by rw [network, hnet])
  -- an order is posted between timepoints that are there
  | order _ _ hs => exact .inl (Edit.post_footprint hs).1
  | addTimeline hnew hname hs =>
    obtain ⟨-, hnet, -⟩ := h.addTimeline hnew hname hs
    exact .inl (by rw [network, hnet])
  | addResource _ _ hs =>
    obtain ⟨-, hnet, -⟩ := h.addResource hs
    exact .inl (by rw [network, hnet])

theorem Tidy.size_step_le (h : s.Tidy task.model facts) (hs : task.Step s made s') :
    s'.network.size ≤ s.network.size + 2 := by
  rcases h.size_step hs with hsize | hsize <;> omega

/-- Steps leave timepoints where they are. -/
theorem Tidy.size_le_steps (h : s.Tidy task.model facts) (hs : task.Steps s made s') :
    s.network.size ≤ s'.network.size := by
  induction hs with
  | refl => exact le_rfl
  | tail hs hstep ih =>
    rcases (h.steps hs).size_step hstep with hsize | hsize <;> omega

/-! ### Decisions -/

/-- A token that was placed is there. -/
theorem Tidy.exists_placed (h : s.Tidy task.model facts) {id : TimelineId} {state : String}
    {position : Nat} {token : TokenId} (hs : Edit.place id state position s = .done token s') :
    s.chronicle.Grows s'.chronicle ∧
      ∃ t, s'.chronicle.token token = .ok t ∧ t.timeline = id ∧ t.state = state := by
  obtain ⟨_, _, placed, -⟩ := Edit.place_footprint h.size_eq hs
  refine ⟨placed.grows, ?_⟩
  rw [placed.chronicle_eq, placed.token_eq]
  exact ⟨_, Chronicle.token_enter_self, rfl, rfl⟩

/-- A new token that a condition wants, linked to the token with the condition. The new token has
been put where the condition wants it, so that it can be shown to supply what the condition asks
for. -/
theorem Tidy.placeAndLink_steps (h : s.Tidy task.model facts) {consumer supplier : TokenId}
    {i : Nat} {condition : Condition} {relation : Relation} {timeline : TimelineId}
    {state : String} {position : Nat} (hasks : s.chronicle.Asks consumer i condition)
    (hrelation : condition.relation? = some relation)
    (hwants : condition.Wants s.chronicle timeline state) {s₁ : PartialPlan} {u : Unit}
    (h₁ : Edit.place timeline state position s = .done supplier s₁)
    (h₂ : Task.linkTo consumer i supplier relation s₁ = .done u s') :
    task.Steps s [] s' ∧ s'.network.size ≤ s.network.size + 2 := by
  obtain ⟨hgrows, t, ht, rfl, rfl⟩ := h.exists_placed h₁
  -- the new token is what the condition wants, since it was made for it
  have hsupplies : s₁.chronicle.Supplies supplier condition := by
    cases condition with
    | uses target amount => exact hwants
    | follows source => exact ⟨t, ht, hwants⟩
    | metBy target wanted | during target wanted =>
      obtain ⟨hstate, g, hg, hmatch⟩ := hwants
      obtain ⟨g', hg', hname, hclass, -⟩ := hgrows.timeline t.timeline g hg
      exact ⟨t, g', ht, hstate, hg', hmatch.congr hname hclass⟩
  obtain ⟨_, _, linked, -⟩ := Task.linkTo_footprint h₂
  rw [linked.size_eq]
  exact ⟨.head (.place h₁) (Task.Step.linkTo (hasks.grows hgrows) hrelation hsupplies h₂).steps,
    h.size_step_le (.place h₁)⟩

/-- **A decision that suits is carried out in steps**, of which at most one places a token. Later
invariants are proved for single steps, of which there are seven kinds, and carry over to decisions
by this theorem alone. -/
theorem Tidy.carryOut_steps (h : s.Tidy task.model facts) {d : Decision} (hd : d.Suits task s)
    (hs : task.carryOut d s = .done made s') :
    task.Steps s made s' ∧ s'.network.size ≤ s.network.size + 2 := by
  have single : task.Step s made s' →
      task.Steps s made s' ∧ s'.network.size ≤ s.network.size + 2 :=
    fun hstep => ⟨hstep.steps, h.size_step_le hstep⟩
  -- `hd` says, decision by decision, what makes the steps fit
  cases d with
  | supportGoal goal token =>
    obtain ⟨g, t, hgoal, ht, htl, hstate⟩ := hd
    obtain ⟨h₁, rfl⟩ := Task.carryOut_supportGoal.mp hs
    exact single (.serveGoal hgoal ht htl hstate h₁)
  | insertGoal goal position =>
    obtain ⟨g, hgoal, token, s₁, h₁, h₂, rfl⟩ := Task.carryOut_insertGoal.mp hs
    -- the token that was placed has the state of the goal, on its timeline
    obtain ⟨-, t, ht, htl, hstate⟩ := h.exists_placed h₁
    obtain ⟨-, hnet, -⟩ := Task.serveGoal_eq_done h₂
    rw [PartialPlan.network_congr hnet]
    exact ⟨.head (.place h₁) (Task.Step.serveGoal hgoal ht htl hstate h₂).steps,
      h.size_step_le (.place h₁)⟩
  | reserve token i resource amount =>
    obtain ⟨target, r, hasks, hr, hmatch, hroom⟩ := hd
    obtain ⟨reservation, h₁, rfl⟩ := Task.carryOut_reserve.mp hs
    exact single (.reserveFor hasks hr hmatch hroom h₁)
  | createResource token i className amount =>
    obtain ⟨hasks, d, hd, hroom⟩ := hd
    obtain ⟨resource, s₁, h₁, reservation, h₂, rfl⟩ := Task.carryOut_createResource.mp hs
    obtain ⟨-, -, hname⟩ := Task.ne_of_not_isTaken (Task.isTaken_freshName className)
    obtain ⟨-, hnet, hchron, -, hresource⟩ := h.addResource h₁
    -- adding a resource does not alter what is asked for
    have hasks' : s₁.chronicle.Asks token i (.uses (.anyOf className) amount) := by
      rw [PartialPlan.chronicle, hchron]
      exact hasks
    refine ⟨.head (.addResource (Task.created_freshResource hd) hname h₁)
      (Task.Step.reserveFor hasks' hresource rfl ?_ h₂).steps, ?_⟩
    · -- the new resource can hold what the declaration that it copies can
      rw [Resource.canHold, hd, Option.bind_some]
      cases hsome : d.capacity with
      | none => rfl
      | some capacity =>
        rw [hsome] at hroom
        simpa using hroom
    · obtain ⟨_, reserved⟩ := Task.reserveFor_eq_done h₂
      rw [PartialPlan.network_congr (reserved.net_eq.trans hnet)]
      omega
  | link token i supplier relation =>
    obtain ⟨condition, hasks, hrelation, hsupplies⟩ := hd
    obtain ⟨h₁, rfl⟩ := Task.carryOut_link.mp hs
    exact single (.linkTo hasks hrelation hsupplies h₁)
  | insertSupplier token i timeline state position relation =>
    obtain ⟨condition, hasks, hrelation, hwants⟩ := hd
    obtain ⟨supplier, s₁, h₁, h₂, rfl⟩ := Task.carryOut_insertSupplier.mp hs
    exact h.placeAndLink_steps hasks hrelation hwants h₁ h₂
  | createTimeline token i className state relation =>
    obtain ⟨condition, hasks, hrelation, hcondition, d, hd⟩ := hd
    obtain ⟨timeline, s₁, h₁, supplier, s₂, h₂, h₃, rfl⟩ := Task.carryOut_createTimeline.mp hs
    obtain ⟨-, hname, -⟩ := Task.ne_of_not_isTaken (Task.isTaken_freshName className)
    have hnew := Task.created_freshTimeline (s := s) hd
    obtain ⟨htidy, hnet, -, hgrows, -, hhost⟩ := h.addTimeline hnew hname h₁
    -- the new timeline is of the class that the condition names, so that a token is wanted there
    have hwants : condition.Wants s₁.chronicle timeline state := by
      rcases hcondition with rfl | rfl
      · exact ⟨rfl, _, hhost, rfl⟩
      · exact ⟨rfl, _, hhost, rfl⟩
    obtain ⟨hsteps, hsize⟩ :=
      htidy.placeAndLink_steps (hasks.grows hgrows) hrelation hwants h₂ h₃
    rw [PartialPlan.network_congr hnet] at hsize
    exact ⟨.head (.addTimeline hnew hname h₁) hsteps, hsize⟩
  -- an order posts one constraint, and touches neither tokens nor reservations
  | order before after =>
    obtain ⟨b, a, hb, ha, h₁, rfl⟩ := Task.carryOut_order.mp hs
    exact single (.order hb ha h₁)

/-- What confirming a reservation keeps, confirming several of them keeps. Confirming is a loop of
its own after the capacities have been checked. -/
theorem of_commitAll {P : PartialPlan → Prop}
    (hcommit : ∀ id u s s', P s → Edit.commit id s = .done u s' → P s')
    {ids : List ReservationId} {u : Unit} (h : P s) (hs : Task.commitAll ids s = .done u s') :
    P s' := by
  induction ids generalizing s with
  | nil =>
    obtain ⟨-, rfl⟩ := Edit.pure_eq_done.mp hs
    exact h
  | cons id ids ih =>
    obtain ⟨_, s₁, h₁, h₂⟩ := Edit.bind_eq_done.mp hs
    exact ih (hcommit id _ s s₁ h h₁) h₂

/-- Confirming reservations changes nothing but their status. -/
theorem commitAll_eq_done {ids : List ReservationId} {u : Unit}
    (hs : Task.commitAll ids s = .done u s') : s'.net = s.net ∧ s'.chron = s.chron :=
  of_commitAll (P := fun s' => s'.net = s.net ∧ s'.chron = s.chron)
    (fun _ _ _ _ ⟨hnet, hchron⟩ hs =>
      ⟨(Edit.commit_eq_done hs).1.trans hnet, (Edit.commit_eq_done hs).2.1.trans hchron⟩)
    ⟨rfl, rfl⟩ hs

/-- Carrying out a decision with all that belongs to it: its steps, and then the reservations that
they made are confirmed. -/
theorem Tidy.apply_steps (h : s.Tidy task.model facts) {d : Decision} (hd : d.Suits task s)
    {u : Unit} (hs : task.apply d s = .done u s') :
    ∃ made s₁, task.Steps s made s₁ ∧ s₁.network.size ≤ s.network.size + 2 ∧
      s₁.reservations.checkCapacity s₁.network = .ok none ∧
      Task.commitAll made s₁ = .done u s' := by
  obtain ⟨made, s₁, h₁, hcapacity, hcommit⟩ := Task.apply_eq_done.mp hs
  obtain ⟨hsteps, hsize⟩ := h.carryOut_steps hd h₁
  exact ⟨made, s₁, hsteps, hsize, hcapacity, hcommit⟩

/-- **A decision that suits keeps a partial plan tidy.** -/
theorem Tidy.apply (h : s.Tidy task.model facts) {d : Decision} (hd : d.Suits task s) {u : Unit}
    (hs : task.apply d s = .done u s') : s'.Tidy task.model facts := by
  obtain ⟨made, s₁, hsteps, -, -, hcommit⟩ := h.apply_steps hd hs
  exact of_commitAll (fun _ _ _ _ h hs => h.commit hs) (h.steps hsteps) hcommit

end PartialPlan

/-! ### What a step changes -/

/-- What a step does to the timelines, with what it found. -/
inductive Chronicle.Changes (c : Chronicle) : Chronicle → Prop
  | same : Changes c c
  | enter {id : TimelineId} {host : Timeline} {position : Nat} (state : String) (n : Nat)
      (hhost : c.timeline id = .ok host) (htakes : c.Takes host position) :
      Changes c (c.enter (.planned id state c.tokens.size n) position)
  | linkTo {consumer : TokenId} {t : Token} {i : Nat} (supplier : TokenId) (relation : Relation)
      (ht : c.token consumer = .ok t) (hfree : t.supports[i]? = some none) :
      Changes c (c.linkTo consumer i supplier relation)
  | reserve {id : TokenId} {t : Token} {i : Nat} (resource : ResourceId)
      (reservation : ReservationId) (ht : c.token id = .ok t)
      (hfree : t.supports[i]? = some none) :
      Changes c (c.setSupport id i (some (.reservation resource reservation)))
  | serve {goal : Nat} (id : TokenId) (hfree : c.goalSupports[goal]? = some none) :
      Changes c (c.setGoalSupport goal (some id))
  | serveLast {goal : Nat} (id : TokenId) (timeline : TimelineId)
      (hfree : c.goalSupports[goal]? = some none) :
      Changes c ((c.setGoalSupport goal (some id)).setSealed timeline true)
  | addTimeline (name className : String) (states : List StateTemplate) :
      Changes c
        (c.addTimeline { name, className := some className, states, synthesized := true })

/-- What a step that makes the reservations `made` does to the book. -/
inductive ReservationBook.Changes (b : ReservationBook) :
    List ReservationId → ReservationBook → Prop
  | same : Changes b [] b
  | addReservation (r : Reservation) :
      Changes b [⟨b.reservations.size⟩] (b.addReservation r)
  | addResource (new : Resource) : Changes b [] (b.addResource new)

/-- A step makes one of the changes. It is the other half of the same division: facts about the
records need only be proved for these few changes. -/
theorem PartialPlan.Tidy.changes_step {task : Task} {facts : Nat → Nat} {s s' : PartialPlan}
    {made : List ReservationId} (h : s.Tidy task.model facts) (hs : task.Step s made s') :
    s.chronicle.Changes s'.chronicle ∧ s.reservations.Changes made s'.reservations := by
  -- each step changes the chronicle in one way, or the book, or both, or none of them
  cases hs with
  | place hs =>
    obtain ⟨_, _, placed, -⟩ := Edit.place_footprint h.size_eq hs
    rw [placed.chronicle_eq, PartialPlan.reservations_congr placed.book_eq]
    exact ⟨.enter _ _ placed.timeline_eq placed.takes, .same⟩
  | linkTo _ _ _ hs =>
    obtain ⟨_, _, linked, -⟩ := Task.linkTo_footprint hs
    rw [linked.chronicle_eq, PartialPlan.reservations_congr linked.book_eq]
    exact ⟨.linkTo _ _ linked.consumer_eq linked.free, .same⟩
  | reserveFor _ _ _ _ hs =>
    obtain ⟨_, reserved⟩ := Task.reserveFor_eq_done hs
    rw [reserved.chronicle_eq, reserved.reservations_eq, reserved.reservation_eq]
    exact ⟨.reserve _ _ reserved.token_eq reserved.free, .addReservation _⟩
  | serveGoal _ _ _ _ hs =>
    obtain ⟨hfree, -, hbook, hchron⟩ := Task.serveGoal_eq_done hs
    rw [PartialPlan.reservations_congr hbook]
    refine ⟨?_, .same⟩
    -- serving a goal seals its timeline if goals have to come last
    rcases hchron with hchron | ⟨-, timeline, hchron⟩ <;> rw [hchron]
    · exact .serve _ hfree
    · exact .serveLast _ timeline hfree
  | order _ _ hs =>
    obtain ⟨-, hbook, hchron⟩ := Edit.post_footprint hs
    rw [PartialPlan.chronicle_congr hchron, PartialPlan.reservations_congr hbook]
    exact ⟨.same, .same⟩
  | addTimeline hnew hname hs =>
    obtain ⟨-, -, hbook, hchron⟩ := Edit.addTimeline_footprint hs
    rw [hchron, PartialPlan.reservations_congr hbook]
    exact ⟨.addTimeline _ _ _, .same⟩
  | addResource _ _ hs =>
    obtain ⟨-, -, hchron, hbook⟩ := Edit.addResource_footprint hs
    rw [PartialPlan.chronicle_congr hchron, hbook]
    exact ⟨.same, .addResource _⟩

/-! ### What stays -/

/-- No goal loses its token. Only a goal that is open gets a token. -/
theorem Chronicle.Changes.goalSupports {c c' : Chronicle} (h : c.Changes c') {g : Nat}
    {id : TokenId} (hg : c.goalSupports[g]? = some (some id)) :
    c'.goalSupports[g]? = some (some id) := by
  -- a goal that is served now had no token before
  have other {goal : Nat} (hfree : c.goalSupports[goal]? = some none) : goal ≠ g := by
    rintro rfl
    exact absurd (hfree.symm.trans hg) (by simp)
  cases h with
  | serve _ hfree | serveLast _ _ hfree =>
    exact (Array.getElem?_setIfInBounds_ne (other hfree)).trans hg
  | linkTo =>
    rw [← Chronicle.alike_linkTo.goalSupports]
    exact hg
  | same | enter | reserve | addTimeline => exact hg

/-- No token loses a support. -/
theorem Chronicle.Changes.supportedBy {c c' : Chronicle} (h : c.Changes c') {id : TokenId}
    {i : Nat} {support : Support} (hs : c.SupportedBy id i support) :
    c'.SupportedBy id i support := by
  cases h with
  | enter => exact (Chronicle.supportedBy_enter (Token.isBlank_planned _ _ _ _)).mpr hs
  | linkTo _ _ ht hfree => exact (Chronicle.supportedBy_linkTo ht hfree).mpr (.inl hs)
  | reserve _ _ ht hfree => exact (Chronicle.supportedBy_setSupport ht hfree).mpr (.inl hs)
  | same | serve | serveLast | addTimeline => exact hs

theorem ReservationBook.Changes.grows {b b' : ReservationBook} {made : List ReservationId}
    (h : b.Changes made b') : b.Grows b' := by
  cases h with
  | same => exact .refl b
  | addReservation r => exact ReservationBook.grows_addReservation r
  | addResource new => exact ReservationBook.grows_addResource new

/-- The reservation that a step makes is there after it. -/
theorem ReservationBook.Changes.exists_of_mem {b b' : ReservationBook} {made : List ReservationId}
    (h : b.Changes made b') {id : ReservationId} (hid : id ∈ made) :
    ∃ r, b'.reservation? id = some r := by
  cases h with
  | addReservation r =>
    obtain rfl := List.mem_singleton.mp hid
    exact ⟨_, ReservationBook.reservation?_addReservation.mpr (.inr ⟨rfl, rfl⟩)⟩
  | same | addResource => exact absurd hid List.not_mem_nil

/-- The second partial plan has the supports and the reservations of the first one. -/
structure PartialPlan.Retains (s s' : PartialPlan) : Prop where
  goal : ∀ (g : Nat) id, s.chronicle.goalSupports[g]? = some (some id) →
    s'.chronicle.goalSupports[g]? = some (some id)
  support : ∀ id i support, s.chronicle.SupportedBy id i support →
    s'.chronicle.SupportedBy id i support
  reservation : ∀ id r, s.reservations.reservation? id = some r →
    ∃ status, s'.reservations.reservation? id = some { r with status }

namespace PartialPlan

variable {task : Task} {facts : Nat → Nat} {s s₁ s' : PartialPlan} {made : List ReservationId}

theorem Retains.refl (s : PartialPlan) : s.Retains s :=
  ⟨fun _ _ h => h, fun _ _ _ h => h, fun _ r h => ⟨r.status, h⟩⟩

theorem Retains.trans (h : s.Retains s₁) (h' : s₁.Retains s') : s.Retains s' where
  goal := fun g id hg => h'.goal g id (h.goal g id hg)
  support := fun id i support hs => h'.support id i support (h.support id i support hs)
  reservation := by
    intro id r hr
    obtain ⟨_, hr₁⟩ := h.reservation id r hr
    obtain ⟨status, hr'⟩ := h'.reservation id _ hr₁
    exact ⟨status, hr'⟩

/-- A step takes no support away. -/
theorem Tidy.retains_step (h : s.Tidy task.model facts) (hs : task.Step s made s') :
    s.Retains s' := by
  obtain ⟨hchron, hbook⟩ := h.changes_step hs
  exact ⟨fun _ _ => hchron.goalSupports, fun _ _ _ => hchron.supportedBy, hbook.grows.reservation⟩

/-- Steps retain what is supported: supports are only written into empty slots. -/
theorem Tidy.retains_steps (h : s.Tidy task.model facts) (hs : task.Steps s made s') :
    s.Retains s' := by
  induction hs with
  | refl => exact .refl _
  | tail hs hstep ih => exact ih.trans ((h.steps hs).retains_step hstep)

/-- The reservations that steps make are there when the steps are done. They are confirmed at the
end of the decision, which would be a fault if one were missing. -/
theorem Tidy.exists_reservation_of_steps (h : s.Tidy task.model facts)
    (hs : task.Steps s made s') :
    ∀ id ∈ made, ∃ r, s'.reservations.reservation? id = some r := by
  induction hs with
  | refl => simp
  | tail hs hstep ih =>
    intro id hid
    -- what was made before is still there, and what the step made is there as well
    rcases List.mem_append.mp hid with hold | hnew
    · obtain ⟨r, hr⟩ := ih id hold
      obtain ⟨status, hr'⟩ := ((h.steps hs).retains_step hstep).reservation id r hr
      exact ⟨_, hr'⟩
    · exact ((h.steps hs).changes_step hstep).2.exists_of_mem hnew

theorem retains_commitAll {u : Unit} (hs : Task.commitAll made s = .done u s') : s.Retains s' := by
  refine of_commitAll (P := s.Retains) (fun id u s₁ s₂ hretains hs => hretains.trans ?_)
    (.refl s) hs
  obtain ⟨hnet, hchron, -⟩ := Edit.commit_eq_done hs
  have hchronicle : s₂.chronicle = s₁.chronicle := PartialPlan.chronicle_congr hchron
  refine ⟨?_, ?_, (commit_grows hs).1.reservation⟩ <;> rw [hchronicle]
  · exact fun _ _ hg => hg
  · exact fun _ _ _ hsupport => hsupport

/-- **A decision takes no support away.** -/
theorem Tidy.retains_apply (h : s.Tidy task.model facts) {d : Decision} (hd : d.Suits task s)
    {u : Unit} (hs : task.apply d s = .done u s') : s.Retains s' := by
  obtain ⟨made, s₁, hsteps, -, -, hcommit⟩ := h.apply_steps hd hs
  exact (h.retains_steps hsteps).trans (retains_commitAll hcommit)

end PartialPlan

end TemporalPlanning
