import TemporalPlanning.Proofs.Effects
import TemporalPlanning.Proofs.Tidy

/-!
# Sound partial plans

A partial plan is sound (`PartialPlan.Sound`) if it is tidy, its network is steady, its book is well
formed, every solution of the network respects the chronicle, and no reservation takes more than
there is. Every step of a decision keeps a partial plan sound, provided that what the decision
proposes fits, and that a resource has room for the units that it is to give.
-/

namespace TemporalPlanning

/-- No reservation takes more than its resource can hold. -/
def ReservationBook.Held (b : ReservationBook) : Prop :=
  ∀ id r res, b.reservation? id = some r → b.resource? r.resource = some res →
    res.canHold r.amount

/-- A sound partial plan of a task, with `facts i` facts on the declared timeline `i`. -/
structure PartialPlan.Sound (task : Task) (facts : Nat → Nat) (s : PartialPlan) : Prop where
  ready : s.Ready task.model facts task.config.horizon
  book : s.reservations.WellFormed task.model
  /-- Every solution of the network respects the chronicle. -/
  respects : ∀ date, s.network.Fits date → s.chronicle.Respects date
  served : s.chronicle.AllServed s.reservations
  accounted : s.chronicle.Accounted s.reservations
  locked : s.chronicle.LockedForCause
  held : s.reservations.Held

namespace PartialPlan

variable {task : Task} {facts : Nat → Nat} {s s' : PartialPlan}

/-- A sound partial plan is tidy: of what makes it sound, the dates and the units that reservations
take are left out. -/
theorem Sound.tidy (h : s.Sound task facts) : s.Tidy task.model facts :=
  ⟨h.ready.size_eq, h.ready.chronicle, h.served, h.accounted, h.locked⟩

/-- What a tidy partial plan needs to be sound. -/
theorem Tidy.sound (h : s.Tidy task.model facts) (hsteady : s.network.Steady task.config.horizon)
    (hbook : s.reservations.WellFormed task.model)
    (hrespects : ∀ date, s.network.Fits date → s.chronicle.Respects date)
    (hheld : s.reservations.Held) : s.Sound task facts :=
  ⟨⟨hsteady, h.size_eq, h.chronicle⟩, hbook, hrespects, h.served, h.accounted, h.locked, hheld⟩

/-! ### Tokens -/

/-- Placing a token keeps a partial plan sound. The new constraints say just what a chronicle with
the new token asks of its dates. -/
theorem Sound.place (h : s.Sound task facts) (hm : task.model.WellFormed)
    (hsize : s.network.size + 1 < Network.sizeLimit) {id : TimelineId} {state : String}
    {position : Nat} {token : TokenId} (hs : Edit.place id state position s = .done token s') :
    s'.Sound task facts := by
  obtain ⟨host, template, placed, hsteady, hfits⟩ := Edit.place_eq_done h.ready hm hsize hs
  have hgrows := placed.grows
  have hres : s'.reservations = s.reservations := PartialPlan.reservations_congr placed.book_eq
  refine (h.tidy.place hs).sound hsteady (by rw [hres]; exact h.book) (fun date hdate => ?_)
    (by rw [hres]; exact h.held)
  -- dates that fit did so before, and they meet what was posted for the new token
  obtain ⟨hdate, hfit⟩ := (hfits date).mp hdate
  rw [placed.chronicle_eq] at hgrows ⊢
  exact (h.respects date hdate).enter h.ready.chronicle hm h.served placed.timeline_eq
    placed.takes.le_length hgrows (Token.isBlank_planned _ _ _ _) hfit.duration hfit.previous
    hfit.next

/-- Linking a token to a supplier that its condition means keeps a partial plan sound. The
constraints of the relation are posted, so that every remaining solution respects the new link as
well as the old ones. -/
theorem Sound.linkTo (h : s.Sound task facts) {consumer supplier : TokenId} {i : Nat}
    {relation : Relation} {condition : Condition}
    (hasks : s.chronicle.Asks consumer i condition)
    (hrelation : condition.relation? = some relation)
    (hsupplies : s.chronicle.Supplies supplier condition) {u : Unit}
    (hs : Task.linkTo consumer i supplier relation s = .done u s') : s'.Sound task facts := by
  have hwf := h.ready.chronicle
  obtain ⟨t, p, linked, hsteady, hfits⟩ := Task.linkTo_eq_done h.ready.steady hs
  have ht := linked.consumer_eq
  have hchron := linked.chronicle_eq
  have hres : s'.reservations = s.reservations := PartialPlan.reservations_congr linked.book_eq
  have halike : s.chronicle.Alike s'.chronicle := hchron ▸ Chronicle.alike_linkTo
  have hgrows : s.chronicle.Grows s'.chronicle := hchron ▸ Chronicle.grows_linkTo
  -- the book is left alone; what has to be shown is that solutions of the network obey the new link
  refine (h.tidy.linkTo hasks hrelation hsupplies hs).sound hsteady (by rw [hres]; exact h.book)
    (fun date hdate => ?_) (by rw [hres]; exact h.held)
  obtain ⟨hdate, hholds⟩ := (hfits date).mp hdate
  refine (h.respects date hdate).of_alike hwf halike hgrows ?_
  intro id k condition' relation' q t' p' hasks' hrelation' hsupport ht' hp'
  -- the new support is the only one that has to be looked at, and its relation was posted
  rw [hchron, Chronicle.supportedBy_linkTo ht linked.free] at hsupport
  refine hsupport.imp_right ?_
  rintro ⟨rfl, rfl, heq⟩
  obtain rfl := Support.token.inj heq
  -- the consumer has one condition in that place, so that the relation is the one that was posted
  obtain rfl := hasks.unique (hasks'.of_grows hwf hgrows ht)
  obtain rfl := Option.some.inj (hrelation.symm.trans hrelation')
  obtain ⟨v, hv, -, -, hstart, hstop, -⟩ := halike.symm.token ht'
  obtain ⟨w, hw, -, -, hstart', hstop', -⟩ := halike.symm.token hp'
  obtain rfl := Chronicle.token_inj ht hv
  obtain rfl := Chronicle.token_inj linked.supplier_eq hw
  exact hholds.congr ⟨hstart'.symm, hstop'.symm⟩ ⟨hstart.symm, hstop.symm⟩

/-! ### Reservations -/

/-- Reserving a resource that a condition means, and that has room, keeps a partial plan sound. The
network is untouched, and the room for the amount is what keeps each reservation within the capacity
of its resource. -/
theorem Sound.reserveFor (h : s.Sound task facts) {id : TokenId} {i amount : Nat}
    {target : ObjectRef} {resource : ResourceId} {res : Resource}
    (hasks : s.chronicle.Asks id i (.uses target amount))
    (hres : s.reservations.resource? resource = some res) (hmatch : res.Matches target)
    (hroom : res.canHold amount) {reservation : ReservationId}
    (hs : Task.reserveFor id i resource amount s = .done reservation s') :
    s'.Sound task facts := by
  obtain ⟨t, ht, hfree, rfl, hnet, hbook, hchron⟩ := Task.reserveFor_eq_done hs
  have hnetwork : s'.network = s.network := PartialPlan.network_congr hnet
  have halike : s.chronicle.Alike s'.chronicle := hchron ▸ Chronicle.alike_setSupport _ _ _
  have hgrows : s.chronicle.Grows s'.chronicle := hchron ▸ Chronicle.grows_setSupport _ _ _
  refine (h.tidy.reserveFor hasks hres hmatch hs).sound (by rw [hnetwork]; exact h.ready.steady) ?_
    (fun date hdate => ?_) fun id' r res' hr hres' => ?_
  · rw [hbook]
    exact ⟨h.book.declared, h.book.created, h.book.name_inj⟩
  · rw [hnetwork] at hdate
    refine (h.respects date hdate).of_alike h.ready.chronicle halike hgrows ?_
    intro id' k condition relation p t' u hasks' hrelation hs' ht' hu
    -- a reservation relates no tokens in time
    rw [hchron, Chronicle.supportedBy_setSupport ht hfree] at hs'
    exact .inl (hs'.resolve_right fun ⟨_, _, heq⟩ => absurd heq (by simp))
  · -- an old reservation fits as before, and there is room for the new one by assumption
    rw [show s'.reservations.resource? = s.reservations.resource? by rw [hbook]; rfl] at hres'
    rw [hbook] at hr
    rcases ReservationBook.reservation?_addReservation.mp hr with hold | ⟨rfl, rfl⟩
    · exact h.held id' r res' hold hres'
    · obtain rfl := Option.some.inj (hres.symm.trans hres')
      exact hroom

/-- Confirming a reservation keeps a partial plan sound. Network and chronicle stay as they are, and
of a reservation soundness never asks the status. -/
theorem Sound.commit (h : s.Sound task facts) {id : ReservationId} {u : Unit}
    (hs : Edit.commit id s = .done u s') : s'.Sound task facts := by
  obtain ⟨hnet, hchron, -⟩ := Edit.commit_eq_done hs
  obtain ⟨-, hresource, hreservation⟩ := commit_grows hs
  have hnetwork : s'.network = s.network := PartialPlan.network_congr hnet
  have hchronicle : s'.chronicle = s.chronicle := PartialPlan.chronicle_congr hchron
  -- no resource, token or constraint changes with the status of a reservation
  refine (h.tidy.commit hs).sound (by rw [hnetwork]; exact h.ready.steady) ⟨?_, ?_, ?_⟩
    (fun date hdate => ?_) fun id r res hr hres => ?_
  · rw [hresource]
    exact h.book.declared
  · rw [hresource]
    exact h.book.created
  · rw [hresource]
    exact h.book.name_inj
  · rw [hnetwork] at hdate
    rw [hchronicle]
    exact h.respects date hdate
  · -- the status does not matter for what a resource can hold
    obtain ⟨status, hr⟩ := hreservation id r hr
    rw [hresource] at hres
    exact h.held id { r with status } res hr hres

/-! ### Goals -/

/-- Serving a goal by a token of its timeline and state keeps a partial plan sound. -/
theorem Sound.serveGoal (h : s.Sound task facts) {g : Nat} {goal : GroundRef} {id : TokenId}
    {t : Token} (hgoal : task.model.goals[g]? = some goal) (ht : s.chronicle.token id = .ok t)
    (htl : t.timeline = ⟨goal.timeline⟩) (hstate : t.state = goal.state) {u : Unit}
    (hs : task.serveGoal g id s = .done u s') : s'.Sound task facts := by
  obtain ⟨-, hnet, hbook, hchron⟩ := Task.serveGoal_eq_done hs
  have hnetwork : s'.network = s.network := PartialPlan.network_congr hnet
  have hres : s'.reservations = s.reservations := PartialPlan.reservations_congr hbook
  refine (h.tidy.serveGoal hgoal ht htl hstate hs).sound (by rw [hnetwork]; exact h.ready.steady)
    (by rw [hres]; exact h.book) (fun date hdate => ?_) (by rw [hres]; exact h.held)
  rw [hnetwork] at hdate
  have hrespects : (s.chronicle.setGoalSupport g (some id)).Respects date :=
    (h.respects date hdate).setGoalSupport
  -- the last goal of a timeline may seal it, which says nothing about dates
  rcases hchron with hchron | ⟨-, timeline, hchron⟩ <;> rw [hchron]
  · exact hrespects
  · exact hrespects.setSealed (h.ready.chronicle.setGoalSupport hgoal ht htl hstate)

/-! ### Orders -/

/-- Posting a constraint keeps a partial plan sound. -/
theorem Sound.post (h : s.Sound task facts) {c : Constraint} (hc : c.Within Duration.limit)
    {u : Unit} (hs : Edit.post c s = .done u s') : s'.Sound task facts := by
  obtain ⟨hsteady, -, hbook, hchron, hfits⟩ := h.ready.steady.post hc hs
  have hres : s'.reservations = s.reservations := PartialPlan.reservations_congr hbook
  refine (h.tidy.post hs).sound hsteady (by rw [hres]; exact h.book) (fun date hdate => ?_)
    (by rw [hres]; exact h.held)
  rw [PartialPlan.chronicle_congr hchron]
  exact h.respects date ((hfits date).mp hdate).1

/-! ### New objects -/

/-- Creating a timeline for a class, under a new name, keeps a partial plan sound. -/
theorem Sound.addTimeline (h : s.Sound task facts) {name : String} {className : Option String}
    {states : List StateTemplate} {synthesized : Bool}
    (hnew : ({ name, className, states, synthesized } : Timeline).Created task.model)
    (hname : ∀ id t, s.chronicle.timeline id = .ok t → t.name ≠ name) {id : TimelineId}
    (hs : Edit.addTimeline name className states synthesized s = .done id s') :
    s'.Sound task facts ∧ s'.net = s.net ∧ s.chronicle.Grows s'.chronicle ∧
      s'.chronicle.timeline id = .ok { name, className, states, synthesized } := by
  obtain ⟨htidy, hnet, hbook, hgrows, hchron, htimeline⟩ := h.tidy.addTimeline hnew hname hs
  have hnetwork : s'.network = s.network := PartialPlan.network_congr hnet
  have hres : s'.reservations = s.reservations := PartialPlan.reservations_congr hbook
  refine ⟨htidy.sound (by rw [hnetwork]; exact h.ready.steady) (by rw [hres]; exact h.book)
    (fun date hdate => ?_) (by rw [hres]; exact h.held), hnet, hgrows, htimeline⟩
  rw [hnetwork] at hdate
  rw [hchron]
  exact (h.respects date hdate).addTimeline h.ready.chronicle rfl

/-- Creating a resource for a class, under a new name, keeps a partial plan sound. Nothing is
reserved on it yet, and under its own name it does not disturb the look-up of the others. -/
theorem Sound.addResource (h : s.Sound task facts) {new : Resource}
    (hnew : new.Created task.model)
    (hname : ∀ id r, s.reservations.resource? id = some r → r.name ≠ new.name) {id : ResourceId}
    (hs : Edit.addResource new s = .done id s') :
    s'.Sound task facts ∧ s'.net = s.net ∧ s'.chron = s.chron ∧
      s'.reservations.resource? id = some new := by
  obtain ⟨htidy, hnet, hchron, hres, hresource⟩ := h.tidy.addResource hs
  have hnetwork : s'.network = s.network := PartialPlan.network_congr hnet
  refine ⟨htidy.sound (by rw [hnetwork]; exact h.ready.steady)
    (by rw [hres]; exact h.book.addResource hnew hname) (fun date hdate => ?_)
    fun id r res hr hres' => ?_, hnet, hchron, hresource⟩
  · rw [hnetwork] at hdate
    rw [PartialPlan.chronicle_congr hchron]
    exact h.respects date hdate
  · rw [hres] at hr hres'
    -- a reservation is of a resource that was there before
    obtain ⟨_, _, res', _, -, -, hold, -⟩ := h.tidy.exists_asks hr
    obtain rfl := Option.some.inj
      (((ReservationBook.grows_addResource _).resource _ _ hold).symm.trans hres')
    exact h.held id r res' hr hold

end PartialPlan

end TemporalPlanning
