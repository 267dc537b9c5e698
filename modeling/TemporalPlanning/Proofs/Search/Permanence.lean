import TemporalPlanning.Proofs.Reservation.Overload
import TemporalPlanning.Proofs.Search.Agenda
import TemporalPlanning.Proofs.Search.Copies
import TemporalPlanning.Proofs.Search.Entailment
import TemporalPlanning.Proofs.Search.Reading

/-!
# Repairs are permanent

A flaw that was repaired does not come back, whatever is decided later. Supports of goals and
conditions are never taken away (`PartialPlan.Retains`). A conflict is repaired by an order of two
of its members; from then on every solution of the network keeps to that order, so that the two
neither can overlap nor share an instant of a schedule, and no conflict contains them both
(`PartialPlan.Ordered.not_mem_conflict`). Hence no two frames of a search are for the same flaw
(`Task.Branch.nodup_flaws`).
-/

namespace TemporalPlanning

/-! ### What a repair achieves -/

/-- In every solution of the network one reservation ends before another one starts. -/
def PartialPlan.Ordered (s : PartialPlan) (before after : ReservationId) : Prop :=
  ∃ b a, s.reservations.reservation? before = some b ∧ s.reservations.reservation? after = some a ∧
    ∀ date, s.network.Fits date → date b.stop ≤ date a.start

namespace Task

variable {task : Task} {facts : Nat → Nat} {s s' : PartialPlan}

/-- Carrying a decision out makes it the last step to check the capacities and to confirm. -/
theorem exists_carryOut_of_apply {d : Decision} {u : Unit} (hs : task.apply d s = .done u s') :
    ∃ made s₁, task.carryOut d s = .done made s₁ ∧ s'.net = s₁.net ∧ s'.chron = s₁.chron ∧
      s₁.Retains s' := by
  obtain ⟨made, s₁, h₁, -, hcommit⟩ := apply_eq_done.mp hs
  obtain ⟨hnet, hchron⟩ := PartialPlan.commitAll_eq_done hcommit
  exact ⟨made, s₁, h₁, hnet, hchron, PartialPlan.retains_commitAll hcommit⟩

theorem goalSupport_of_serveGoal {goal : Nat} {id : TokenId} {u : Unit}
    (hs : task.serveGoal goal id s = .done u s') :
    s'.chronicle.goalSupports[goal]? = some (some id) := by
  obtain ⟨hfree, -, -, hchron⟩ := serveGoal_eq_done hs
  have hlt := (Array.getElem?_eq_some_iff.mp hfree).1
  rcases hchron with hchron | ⟨-, timeline, hchron⟩ <;> rw [hchron] <;>
    exact Array.getElem?_setIfInBounds_self_of_lt hlt

/-- A repair of an open goal serves it. Both kinds of repair end with recording the token of the
goal. -/
theorem goalSupport_of_apply {goal : Nat} {d : Decision} (hd : d.Repairs (.openGoal goal))
    {u : Unit} (hs : task.apply d s = .done u s') :
    ∃ id, s'.chronicle.goalSupports[goal]? = some (some id) := by
  obtain ⟨made, s₁, hs, -, -, hretains⟩ := exists_carryOut_of_apply hs
  -- what the decision leaves behind before the capacities are checked is kept
  suffices ∃ id, s₁.chronicle.goalSupports[goal]? = some (some id) from
    this.imp fun id hid => hretains.goal goal id hid
  cases d with
  | supportGoal goal' token =>
    obtain rfl := hd
    exact ⟨token, goalSupport_of_serveGoal (carryOut_supportGoal.mp hs).1⟩
  | insertGoal goal' position =>
    obtain rfl := hd
    obtain ⟨g, -, token, s₂, -, hserve, -⟩ := carryOut_insertGoal.mp hs
    exact ⟨token, goalSupport_of_serveGoal hserve⟩
  -- no other decision repairs an open goal
  | reserve | createResource | link | insertSupplier | createTimeline | order => exact hd.elim

/-- A link supports the condition that it is for. -/
theorem supportedBy_of_linkTo {consumer supplier : TokenId} {i : Nat} {relation : Relation}
    {u : Unit} (hs : linkTo consumer i supplier relation s = .done u s') :
    s'.chronicle.SupportedBy consumer i (.token supplier) := by
  obtain ⟨_, _, linked, -⟩ := linkTo_footprint hs
  rw [linked.chronicle_eq]
  exact (Chronicle.supportedBy_linkTo linked.consumer_eq linked.free).mpr (.inr ⟨rfl, rfl, rfl⟩)

/-- A reservation supports the condition that it is for. -/
theorem supportedBy_of_reserveFor {id : TokenId} {i amount : Nat} {resource : ResourceId}
    {reservation : ReservationId} (hs : reserveFor id i resource amount s = .done reservation s') :
    s'.chronicle.SupportedBy id i (.reservation resource reservation) := by
  obtain ⟨_, reserved⟩ := reserveFor_eq_done hs
  rw [reserved.chronicle_eq]
  exact (Chronicle.supportedBy_setSupport reserved.token_eq reserved.free).mpr
    (.inr ⟨rfl, rfl, rfl⟩)

/-- A repair of an open condition supports it. Five kinds of decisions repair an open condition, and
each of them ends with filling its slot. -/
theorem supportedBy_of_apply {id : TokenId} {i : Nat} {d : Decision}
    (hd : d.Repairs (.openCondition id i)) {u : Unit} (hs : task.apply d s = .done u s') :
    ∃ support, s'.chronicle.SupportedBy id i support := by
  obtain ⟨made, s₁, hs, -, -, hretains⟩ := exists_carryOut_of_apply hs
  -- what is carried out supports the condition; confirming the reservations does not take that away
  suffices ∃ support, s₁.chronicle.SupportedBy id i support from
    this.imp fun support hsupport => hretains.support id i support hsupport
  cases d with
  | reserve token i' resource amount =>
    obtain ⟨rfl, rfl⟩ := hd
    obtain ⟨_, hreserve, -⟩ := carryOut_reserve.mp hs
    exact ⟨_, supportedBy_of_reserveFor hreserve⟩
  | createResource token i' className amount =>
    obtain ⟨rfl, rfl⟩ := hd
    obtain ⟨_, _, -, _, hreserve, -⟩ := carryOut_createResource.mp hs
    exact ⟨_, supportedBy_of_reserveFor hreserve⟩
  | link token i' supplier relation =>
    obtain ⟨rfl, rfl⟩ := hd
    exact ⟨_, supportedBy_of_linkTo (carryOut_link.mp hs).1⟩
  | insertSupplier token i' timeline state position relation =>
    obtain ⟨rfl, rfl⟩ := hd
    obtain ⟨_, _, -, hlink, -⟩ := carryOut_insertSupplier.mp hs
    exact ⟨_, supportedBy_of_linkTo hlink⟩
  -- whatever had to be created before, the link comes last
  | createTimeline token i' className state relation =>
    obtain ⟨rfl, rfl⟩ := hd
    obtain ⟨_, _, -, _, _, -, hlink, -⟩ := carryOut_createTimeline.mp hs
    exact ⟨_, supportedBy_of_linkTo hlink⟩
  | supportGoal | insertGoal | order => exact hd.elim

/-- An order keeps two reservations in order. The order is posted as a constraint between the end of
the one and the start of the other. -/
theorem ordered_of_apply (h : s.Sound task facts) {before after : ReservationId} {u : Unit}
    (hs : task.apply (.order before after) s = .done u s') : s'.Ordered before after := by
  obtain ⟨made, s₁, hs, hnet, -, hretains⟩ := exists_carryOut_of_apply hs
  obtain ⟨b, a, hb, ha, hpost, -⟩ := carryOut_order.mp hs
  obtain ⟨-, -, hbook, -, hfits⟩ := h.ready.steady.post (Network.within_precedes _ _) hpost
  rw [← PartialPlan.reservations_congr hbook] at hb ha
  obtain ⟨_, hb'⟩ := hretains.reservation before b hb
  obtain ⟨_, ha'⟩ := hretains.reservation after a ha
  -- committing leaves the network alone, so its dates are those of the posted constraint
  refine ⟨_, _, hb', ha', fun date hdate => ?_⟩
  rw [PartialPlan.network, hnet] at hdate
  exact Constraint.holds_precedes.mp ((hfits date).mp hdate).2

end Task

namespace PartialPlan

variable {task : Task} {facts : Nat → Nat} {s s' : PartialPlan} {before after : ReservationId}

/-- Reservations stay in order as long as solutions are only taken away. -/
theorem Ordered.of_retains (h : s.Ordered before after) (hretains : s.Retains s')
    (hfits : ∀ date, s'.network.Fits date → s.network.Fits date) : s'.Ordered before after := by
  obtain ⟨b, a, hb, ha, hle⟩ := h
  obtain ⟨_, hb'⟩ := hretains.reservation before b hb
  obtain ⟨_, ha'⟩ := hretains.reservation after a ha
  exact ⟨_, _, hb', ha', fun date hdate => hle date (hfits date hdate)⟩

/-- Reservations that are in order cannot overlap. To overlap, each must be able to end after the
other begins, and no solution lets the first one do so. -/
theorem Ordered.canOverlap (h : s.Ordered before after) (hsound : s.Sound task facts)
    {b a : Reservation} (hb : s.reservations.reservation? before = some b)
    (ha : s.reservations.reservation? after = some a) :
    b.canOverlap s.network a ≠ .ok true ∧ a.canOverlap s.network b ≠ .ok true := by
  obtain ⟨b', a', hb', ha', hle⟩ := h
  obtain rfl := Option.some.inj (hb.symm.trans hb')
  obtain rfl := Option.some.inj (ha.symm.trans ha')
  have hbefore := hsound.tidy.presentable.dated before b hb
  have hafter := hsound.tidy.presentable.dated after a ha
  -- every solution puts one before the other, so the network leaves no room for more
  have hnot : s.network.canBeAfter a.start b.stop = false := by
    rw [← Bool.not_eq_true, hsound.ready.steady.closed.canBeAfter_iff
      hsound.ready.steady.exists_fits hafter.1 hbefore.2]
    rintro ⟨date, hdate, hlt⟩
    exact absurd (hle date hdate) (not_le.mpr hlt)
  -- an overlap asks for room on both sides, so one is enough to exclude it either way
  rw [hbefore.canOverlap_eq hafter, hafter.canOverlap_eq hbefore, hnot]
  simp

/-- A conflict lists each of its members once. -/
theorem Sound.nodup_members (h : s.Sound task facts) {found : List Conflict}
    (hfound : s.reservations.conflicts s.network (task.schedule s) = .ok found) {c : Conflict}
    (hc : c ∈ found) : c.members.Nodup := by
  obtain ⟨date, hdate, -, hschedule⟩ := Task.exists_fits_schedule task h.ready.steady
  rw [hschedule] at hfound
  obtain ⟨r, capacity, es, -, -, hes, hmembers, -⟩ :=
    ReservationBook.competes_of_mem_conflicts hdate hfound hc
  exact hmembers ▸ hes.nodup

/-- **No conflict contains two reservations that are in order.** Members of a conflict can overlap
pairwise if there are two of them, and all overlap under the schedule if there are more; neither is
possible for an ordered pair. -/
theorem Ordered.not_mem_conflict (h : s.Ordered before after) (hsound : s.Sound task facts)
    (hne : before ≠ after) {found : List Conflict}
    (hfound : s.reservations.conflicts s.network (task.schedule s) = .ok found) {c : Conflict}
    (hc : c ∈ found) : ¬ (before ∈ c.members ∧ after ∈ c.members) := by
  rintro ⟨hbefore, hafter⟩
  obtain ⟨date, hdate, -, hschedule⟩ := Task.exists_fits_schedule task hsound.ready.steady
  rw [hschedule] at hfound
  obtain ⟨r, capacity, es, -, -, hes, hmembers, -⟩ :=
    ReservationBook.competes_of_mem_conflicts hdate hfound hc
  -- the members of a conflict are competitors for one resource
  rw [hmembers] at hbefore hafter
  obtain ⟨⟨_, b⟩, hb, rfl⟩ := List.mem_map.mp hbefore
  obtain ⟨⟨_, a⟩, ha, rfl⟩ := List.mem_map.mp hafter
  have hb' := hes.reservation? _ hb
  have ha' := hes.reservation? _ ha
  obtain ⟨hoverlap, hoverlap'⟩ := h.canOverlap hsound hb' ha'
  -- the test is of two reservations in the order of their creation, which may be either
  have hdated := hsound.tidy.presentable.dated
  obtain ⟨x, hx⟩ := (hdated _ _ hb').exists_canOverlap (hdated _ _ ha')
  obtain ⟨y, hy⟩ := (hdated _ _ ha').exists_canOverlap (hdated _ _ hb')
  -- the two are a pair of competitors in one order or the other
  have hpairwise : es.Pairwise fun e f => ∀ x y, e.2.canOverlap s.network f.2 = .ok x →
      f.2.canOverlap s.network e.2 = .ok y → x = true ∨ y = true :=
    hes.canOverlap.imp fun hoverlap x _ hx _ => .inl (hoverlap x hx)
  have : Std.Symm fun e f : ReservationId × Reservation => ∀ x y,
      e.2.canOverlap s.network f.2 = .ok x → f.2.canOverlap s.network e.2 = .ok y →
        x = true ∨ y = true := ⟨fun _ _ h x y hx hy => (h y x hy hx).symm⟩
  rcases hpairwise.forall hb ha (fun heq => hne (Prod.mk.inj heq).1) x y hx hy with rfl | rfl
  · exact hoverlap hx
  · exact hoverlap' hy

end PartialPlan

namespace Task

variable {task : Task} {s s₁ s' : PartialPlan}

/-! ### Whatever is decided later -/

/-- Repairs lead on from `s`: each is proposed for some flaw, the look-ahead finds room for it, and
it can be carried out. -/
inductive Onward (task : Task) (s : PartialPlan) : PartialPlan → Prop
  | refl : Onward task s s
  | apply {s₁ s' : PartialPlan} {flaw : Flaw} {ds : List Decision} {d : Decision}
      (h : Onward task s s₁) (hds : task.repairs s₁ flaw = .ok ds) (hd : d ∈ ds)
      (hadmits : admits s₁ d = .ok true) (hs : task.apply d s₁ = .done () s') : Onward task s s'

/-- What is reached from a reachable partial plan is reachable. -/
theorem Onward.reachable (h : task.Onward s s') (hs : task.Reachable s) : task.Reachable s' := by
  induction h with
  | refl => exact hs
  | apply _ hds hd hadmits happly ih => exact ih.apply hds hd hadmits happly

/-- Supports are permanent. -/
theorem Onward.retains (h : task.Onward s s') (hs : task.Reachable s)
    (hm : task.model.WellFormed) : s.Retains s' := by
  induction h with
  | refl => exact .refl s
  | apply h hds hd _ happly ih =>
    have htidy := (h.reachable hs).tidy hm
    exact ih.trans (htidy.retains_apply (suits_of_mem_repairs htidy.chronicle hds _ hd) happly)

/-- Solutions are only taken away. A partial plan that is reached later has more timepoints and more
constraints. -/
theorem Onward.fits (h : task.Onward s s') (hs : task.Reachable s) (hm : task.model.WellFormed)
    (hhorizon : ∀ k, task.config.horizon = some k → 0 ≤ k ∧ k ≤ Network.horizonLimit)
    (hsize : s'.network.size ≤ Network.sizeLimit) {date : Timepoint → Int}
    (hdate : s'.network.Fits date) : s.network.Fits date ∧ s.network.size ≤ s'.network.size := by
  induction h with
  | refl => exact ⟨hdate, le_rfl⟩
  -- backwards from the last decision: its bound on the size carries over to the earlier states
  | apply h hds hd _ happly ih =>
    have hreachable := h.reachable hs
    have htidy := hreachable.tidy hm
    have hsuits := suits_of_mem_repairs htidy.chronicle hds _ hd
    have hle := (htidy.size_apply hsuits happly).1
    have hsound := (hreachable.sound hm hhorizon (hle.trans hsize)).1
    obtain ⟨hfits, hle'⟩ := ih (hle.trans hsize) (hsound.fits_of_apply hm hsuits happly hsize hdate)
    exact ⟨hfits, hle'.trans hle⟩

/-- A repair of an open flaw of `s` that is accepted, and further repairs, lead to `s'`. -/
def Leads (task : Task) (s : PartialPlan) (flaw : Flaw) (d : Decision) (s' : PartialPlan) : Prop :=
  ∃ flaws ds s₁, task.openFlaws s = .ok flaws ∧ flaw ∈ flaws ∧ task.repairs s flaw = .ok ds ∧
    d ∈ ds ∧ admits s d = .ok true ∧ task.apply d s = .done () s₁ ∧ task.Onward s₁ s'

variable {flaw : Flaw} {d : Decision}

theorem Leads.reachable (h : task.Leads s flaw d s') (hs : task.Reachable s) :
    task.Reachable s' := by
  obtain ⟨_, ds, s₁, -, -, hds, hd, hadmits, happly, honward⟩ := h
  exact honward.reachable (hs.apply hds hd hadmits happly)

/-- What is supported before a repair is supported by the same after it, and further on. -/
theorem Leads.retains (h : task.Leads s flaw d s') (hs : task.Reachable s)
    (hm : task.model.WellFormed) : s.Retains s' := by
  obtain ⟨_, ds, s₁, -, -, hds, hd, hadmits, happly, honward⟩ := h
  have htidy := hs.tidy hm
  exact (htidy.retains_apply (suits_of_mem_repairs htidy.chronicle hds _ hd) happly).trans
    (honward.retains (hs.apply hds hd hadmits happly) hm)

/-- The members of a conflict that a repair has ordered stay in order. The constraint between the
two was posted when the decision was applied, and no later decision takes solutions back in. -/
theorem Leads.ordered {before after : ReservationId}
    (h : task.Leads s flaw (.order before after) s') (hs : task.Reachable s)
    (hm : task.model.WellFormed)
    (hhorizon : ∀ k, task.config.horizon = some k → 0 ≤ k ∧ k ≤ Network.horizonLimit)
    (hsize : s'.network.size ≤ Network.sizeLimit) :
    s'.Ordered before after ∧ before ≠ after ∧ ∃ c, flaw = .conflict c ∧
      before ∈ c.members ∧ after ∈ c.members := by
  have hsound' := ((h.reachable hs).sound hm hhorizon hsize).1
  obtain ⟨flaws, ds, s₁, hflaws, hflaw, hds, hd, hadmits, happly, honward⟩ := h
  have htidy := hs.tidy hm
  have hsuits := suits_of_mem_repairs htidy.chronicle hds _ hd
  have hreachable := hs.apply hds hd hadmits happly
  -- a later network has a solution, which fits all earlier ones
  obtain ⟨date, hdate⟩ := hsound'.ready.steady.exists_fits
  have hle := (honward.fits hreachable hm hhorizon hsize hdate).2
  have hsound := (hs.sound hm hhorizon
    (((htidy.size_apply hsuits happly).1.trans hle).trans hsize)).1
  -- the order holds once it is decided, and what comes after only takes dates away
  refine ⟨(ordered_of_apply hsound happly).of_retains (honward.retains hreachable hm)
    fun date hdate => (honward.fits hreachable hm hhorizon hsize hdate).1, ?_⟩
  have hrepairs := repairs_of_mem_repairs htidy.chronicle hds _ hd
  cases flaw with
  | openGoal | openCondition => exact hrepairs.elim
  | conflict c =>
    obtain ⟨found, hfound, hc⟩ := (mem_openFlaws hflaws).mp hflaw
    have hnodup := hsound.nodup_members hfound hc
    rcases hrepairs with hsub | hsub
    · exact ⟨by simpa using hnodup.sublist hsub, c, rfl, hsub.subset (by simp),
        hsub.subset (by simp)⟩
    · exact ⟨by simpa [eq_comm] using hnodup.sublist hsub, c, rfl, hsub.subset (by simp),
        hsub.subset (by simp)⟩

/-- A flaw that was repaired is not open later. Goals and conditions stay supported, and an ordered
pair never conflicts again; these are the three kinds of flaws. -/
theorem Leads.not_open (h : task.Leads s flaw d s') (hs : task.Reachable s)
    (hm : task.model.WellFormed)
    (hhorizon : ∀ k, task.config.horizon = some k → 0 ≤ k ∧ k ≤ Network.horizonLimit)
    (hsize : s'.network.size ≤ Network.sizeLimit) {flaws' : List Flaw}
    (hflaws' : task.openFlaws s' = .ok flaws') : flaw ∉ flaws' := by
  intro hopen
  have hopen := (mem_openFlaws hflaws').mp hopen
  obtain ⟨flaws, ds, s₁, hflaws, hflaw, hds, hd, hadmits, happly, honward⟩ := id h
  have hretains := honward.retains (hs.apply hds hd hadmits happly) hm
  have hrepairs := repairs_of_mem_repairs (hs.tidy hm).chronicle hds _ hd
  -- goals and conditions keep their supports; the members of a conflict keep their order
  cases flaw with
  | openGoal goal =>
    obtain ⟨id, hid⟩ := goalSupport_of_apply hrepairs happly
    have hnone := Chronicle.goalSupport?_eq_ok.mp hopen.2
    rw [hretains.goal goal id hid] at hnone
    exact absurd hnone (by simp)
  | openCondition id i =>
    obtain ⟨support, hsupport⟩ := supportedBy_of_apply hrepairs happly
    obtain ⟨t, ht, hslot⟩ := hretains.support id i support hsupport
    obtain ⟨t', ht', hnone⟩ := hopen
    obtain rfl := Chronicle.token_inj ht ht'
    exact absurd (hslot.symm.trans hnone) (by simp)
  -- a conflict is repaired by orders only
  | conflict c =>
    cases d with
    | order before after =>
      obtain ⟨hordered, hne, c', heq, hmembers⟩ := h.ordered hs hm hhorizon hsize
      obtain rfl := Flaw.conflict.inj heq
      obtain ⟨found, hfound, hc⟩ := hopen
      exact hordered.not_mem_conflict ((h.reachable hs).sound hm hhorizon hsize).1 hne hfound hc
        hmembers
    | supportGoal | insertGoal | reserve | createResource | link | insertSupplier
    | createTimeline => exact hrepairs.elim

/-! ### The frames of a search -/

/-- The frames of a search lead from one to the next, the newest first. -/
structure Branch (task : Task) (stack : List Attempt) : Prop where
  reachable : ∀ a ∈ stack, task.Reachable a.made ∧ task.nextFlaw a.made = .ok (some a.frame.flaw)
  leads : stack.Pairwise fun a b => ∃ d, task.Leads b.made b.frame.flaw d a.made

/-- Another decision is taken from the newest frame. -/
theorem Branch.next {a : Attempt} {outer : List Attempt} (h : task.Branch (a :: outer))
    (d : Decision) (cs : Candidates) : task.Branch (a.next d cs :: outer) := by
  obtain ⟨hfirst, houter⟩ := List.forall_mem_cons.mp h.reachable
  exact ⟨List.forall_mem_cons.mpr ⟨hfirst, houter⟩, List.pairwise_cons.mpr
    (List.pairwise_cons.mp h.leads)⟩

/-- The frames that a search keeps are a branch of reachable partial plans. Each frame was made at a
partial plan to which the decisions of the frames below have led, with the flaw that was selected
there. -/
theorem Visits.branch (hm : task.model.WellFormed) {root : List String} {n : Nat}
    {stack : List Attempt} (h : task.Visits root n s stack) : task.Branch stack := by
  induction h with
  | start hs _ hflaw hcs =>
    exact ⟨List.forall_mem_singleton.mpr ⟨.start hs, hflaw⟩, List.pairwise_singleton _ _⟩
  -- giving a frame up only shortens the branch
  | giveUp _ _ _ ih => exact ⟨(List.forall_mem_cons.mp ih.reachable).2, ih.leads.tail⟩
  | stuck _ _ _ _ ih => exact ih.next _ _
  | @done n s s₁ s₂ a outer d cs cs' flaw h hundo hnext happly hflaw hcs ih =>
    obtain ⟨hmade, hbelongs, -⟩ := h.resumes hm
    obtain rfl := Except.ok.inj (hundo.symm.trans hmade)
    obtain ⟨hreachable, hflawA⟩ := ih.reachable a List.mem_cons_self
    obtain ⟨hremaining, hadmits⟩ := (Candidates.next_mem hnext).2 d rfl
    -- the decision is one of those that the frame was made with
    have hd : d ∈ a.frame.candidates.all := by
      obtain ⟨left, hall, hleft⟩ := hbelongs.left
      have hd : d ∈ left := ((Fault.mem_filter hleft).2 d).mpr ⟨hremaining, hadmits⟩
      exact (((Fault.mem_filter hall).2 d).mp (List.mem_append_right _ hd)).1
    obtain ⟨flaws, hflaws⟩ : ∃ flaws, task.openFlaws a.made = .ok flaws :=
      exists_openFlaws hbelongs.tidy.presentable
    have hleads : task.Leads a.made a.frame.flaw d s₂ := ⟨flaws, _, s₂, hflaws,
      mem_openFlaws_of_nextFlaw hflawA hflaws, hbelongs.repairs, hd, hadmits, happly, .refl⟩
    have hbranch := ih.next d cs
    refine ⟨List.forall_mem_cons.mpr
      ⟨⟨hreachable.apply hbelongs.repairs hd hadmits happly, hflaw⟩, hbranch.reachable⟩,
      List.pairwise_cons.mpr ⟨List.forall_mem_cons.mpr ⟨⟨d, hleads⟩, fun b hb => ?_⟩,
        hbranch.leads⟩⟩
    -- an outer frame leads here by way of the newest one
    obtain ⟨d', flaws', ds', s', hflaws', hflaw', hds', hd', hadmits', happly', honward⟩ :=
      (List.pairwise_cons.mp ih.leads).1 b hb
    exact ⟨d', flaws', ds', s', hflaws', hflaw', hds', hd', hadmits', happly',
      honward.apply hbelongs.repairs hd hadmits happly⟩

/-- No two frames are for the same flaw. On the way from one frame to the next its flaw was
repaired, and a repaired flaw does not come back. -/
theorem Branch.nodup_flaws {stack : List Attempt} (h : task.Branch stack)
    (hm : task.model.WellFormed)
    (hhorizon : ∀ k, task.config.horizon = some k → 0 ≤ k ∧ k ≤ Network.horizonLimit)
    (hsize : ∀ a ∈ stack, a.made.chronicle.tokens.size < 2 ^ 19) :
    (stack.map fun a => a.frame.flaw).Nodup := by
  rw [List.Nodup, List.pairwise_map]
  refine h.leads.imp_of_mem ?_
  rintro a b ha hb ⟨d, hleads⟩ heq
  obtain ⟨hreachable, hflaw⟩ := h.reachable a ha
  obtain ⟨flaws, hflaws⟩ : ∃ flaws, task.openFlaws a.made = .ok flaws :=
    exists_openFlaws (hreachable.tidy hm).presentable
  -- the flaw of the earlier frame is closed where the later one's flaw is open
  refine hleads.not_open (h.reachable b hb).1 hm hhorizon (hreachable.size_le hm (hsize a ha))
    hflaws ?_
  rw [← heq]
  exact mem_openFlaws_of_nextFlaw hflaw hflaws

/-- **Repairs are permanent.** What is repaired and what is supported is not open later, and no
conflict contains again two reservations that were ordered. **No branch repeats a flaw**: the frames
of a search are for different ones. -/
theorem repairs_permanent {problem : Problem} (hload : Model.load problem = .ok task.model)
    (hhorizon : ∀ k, task.config.horizon = some k → 0 ≤ k ∧ k ≤ 2 ^ 60) :
    (∀ s flaw d s', task.Reachable s → task.Leads s flaw d s' →
      s'.chronicle.tokens.size < 2 ^ 19 → ∃ flaws', task.openFlaws s' = .ok flaws' ∧
        flaw ∉ flaws' ∧
        (∀ goal id, s.chronicle.goalSupport? goal = .ok (some id) →
          Flaw.openGoal goal ∉ flaws') ∧
        (∀ id i support, s.chronicle.SupportedBy id i support →
          Flaw.openCondition id i ∉ flaws') ∧
        ∀ before after, d = .order before after → ∀ c, Flaw.conflict c ∈ flaws' →
          ¬ (before ∈ c.members ∧ after ∈ c.members)) ∧
      ∀ root n s stack, task.Visits root n s stack →
        (∀ a ∈ stack, a.made.chronicle.tokens.size < 2 ^ 19) →
          (stack.map fun a => a.frame.flaw).Nodup := by
  obtain ⟨hm, -⟩ := Model.wellFormed_of_load hload
  -- the first half is about one repair, and the second about the frames of the search
  refine ⟨fun s flaw d s' hs h htokens => ?_,
    fun root n s stack h htokens => (h.branch hm).nodup_flaws hm hhorizon htokens⟩
  have hs' := h.reachable hs
  have hsize := hs'.size_le hm htokens
  have hretains := h.retains hs hm
  obtain ⟨flaws', hflaws'⟩ : ∃ flaws', task.openFlaws s' = .ok flaws' :=
    exists_openFlaws (hs'.tidy hm).presentable
  refine ⟨flaws', hflaws', h.not_open hs hm hhorizon hsize hflaws', fun goal id hid hopen => ?_,
    fun id i support hsupport hopen => ?_, ?_⟩
  · -- a goal with a support is not open, neither is a condition
    have hnone := Chronicle.goalSupport?_eq_ok.mp ((mem_openFlaws hflaws').mp hopen).2
    rw [hretains.goal goal id (Chronicle.goalSupport?_eq_ok.mp hid)] at hnone
    exact absurd hnone (by simp)
  · obtain ⟨t, ht, hslot⟩ := hretains.support id i support hsupport
    obtain ⟨t', ht', hnone⟩ := (mem_openFlaws hflaws').mp hopen
    obtain rfl := Chronicle.token_inj ht ht'
    exact absurd (hslot.symm.trans hnone) (by simp)
  · -- reservations in a conflict may overlap, and those of an ordered pair may not
    rintro before after rfl c hopen
    obtain ⟨hordered, hne, -⟩ := h.ordered hs hm hhorizon hsize
    obtain ⟨found, hfound, hc⟩ := (mem_openFlaws hflaws').mp hopen
    exact hordered.not_mem_conflict (hs'.sound hm hhorizon hsize).1 hne hfound hc

end Task

/-- Two lamps that share a battery. -/
def lamps : Problem where
  resources := [{ className := "Battery", name := some "battery", capacity := some 1 }]
  timelines := [
    { className := "Lamp", name := some "left", states := [
      { name := "On", conditions := [.uses (.named "battery") 1] }] },
    { className := "Lamp", name := some "right", states := [
      { name := "On", conditions := [.uses (.named "battery") 1] }] }]
  goals := [⟨"left", "On"⟩, ⟨"right", "On"⟩]

/-- The task to turn both lamps on. -/
def lampsTask : Task where
  model := {
    resources := [⟨"battery", "Battery", some 1⟩]
    timelines := [
      ⟨"left", some "Lamp", [{ name := "On", conditions := [.uses (.named "battery") 1] }]⟩,
      ⟨"right", some "Lamp", [{ name := "On", conditions := [.uses (.named "battery") 1] }]⟩]
    facts := []
    goals := [⟨0, "On"⟩, ⟨1, "On"⟩]
    openClasses := []
    names := [("right", .timeline 1), ("left", .timeline 0), ("battery", .resource 0)] }
  config := { maxDecisions := 10 }

/-- The search for the lamps has a frame for each goal. The second frame is made at the partial plan
in which the first lamp is on. -/
theorem visits_lamps : ∃ (root : List String) (s : PartialPlan) (a b : Task.Attempt),
    lampsTask.Visits root 9 s [a, b] ∧ a.frame.flaw = .openGoal 1 ∧ b.frame.flaw = .openGoal 0 ∧
      a.made.chronicle.tokens.size = 1 ∧ b.made.chronicle.tokens.size = 0 := by
  obtain ⟨s₀, s₁, root, cs, cs', cs'', hs₀, hroot, hflaw₀, hcs, hnext, hs₁, hflaw₁, hcs'', hsize₁,
      hsize₀⟩ :
      ∃ (s₀ s₁ : PartialPlan) (root : List String) (cs cs' cs'' : Candidates),
        lampsTask.start = .done () s₀ ∧ lampsTask.describeOpenFlaws s₀ = .ok root ∧
        lampsTask.nextFlaw s₀ = .ok (some (.openGoal 0)) ∧
        Candidates.ofFlaw lampsTask s₀ (.openGoal 0) = .ok cs ∧
        cs.next s₀ = .ok (some (.insertGoal 0 0), cs') ∧
        lampsTask.apply (.insertGoal 0 0) s₀ = .done () s₁ ∧
        lampsTask.nextFlaw s₁ = .ok (some (.openGoal 1)) ∧
        Candidates.ofFlaw lampsTask s₁ (.openGoal 1) = .ok cs'' ∧
        s₁.chronicle.tokens.size = 1 ∧ s₀.chronicle.tokens.size = 0 :=
    ⟨_, _, _, _, _, _, rfl, rfl, rfl, rfl, rfl, rfl, rfl, rfl, rfl, rfl⟩
  -- the frame of the first goal stays below that of the second one
  have hvisits := Task.Visits.done (.start hs₀ hroot hflaw₀ hcs)
    (PartialPlan.Extends.refl s₀).undoTo_mark hnext hs₁ hflaw₁ hcs''
  exact ⟨root, s₁, _, _, hvisits, rfl, rfl, hsize₁, hsize₀⟩

/-- Once both lamps are on and have the battery reserved, they are in conflict, until one of them is
decided to come first. -/
theorem leads_lamps : ∃ s s' : PartialPlan, lampsTask.Reachable s ∧
    lampsTask.Leads s (.conflict ⟨⟨0⟩, [⟨0⟩, ⟨1⟩]⟩) (.order ⟨0⟩ ⟨1⟩) s' ∧
      s'.chronicle.tokens.size = 2 := by
  obtain ⟨s₀, s₁, s₂, s₃, s, s', hs₀, hs₁, hs₂, hs₃, hs, hs', hds₀, hds₁, hds₂, hds₃, hds, hadmits,
      hflaws, hsize⟩ :
      ∃ s₀ s₁ s₂ s₃ s s' : PartialPlan, lampsTask.start = .done () s₀ ∧
        lampsTask.apply (.insertGoal 0 0) s₀ = .done () s₁ ∧
        lampsTask.apply (.insertGoal 1 0) s₁ = .done () s₂ ∧
        lampsTask.apply (.reserve ⟨0⟩ 0 ⟨0⟩ 1) s₂ = .done () s₃ ∧
        lampsTask.apply (.reserve ⟨1⟩ 0 ⟨0⟩ 1) s₃ = .done () s ∧
        lampsTask.apply (.order ⟨0⟩ ⟨1⟩) s = .done () s' ∧
        lampsTask.repairs s₀ (.openGoal 0) = .ok [.insertGoal 0 0] ∧
        lampsTask.repairs s₁ (.openGoal 1) = .ok [.insertGoal 1 0] ∧
        lampsTask.repairs s₂ (.openCondition ⟨0⟩ 0) = .ok [.reserve ⟨0⟩ 0 ⟨0⟩ 1] ∧
        lampsTask.repairs s₃ (.openCondition ⟨1⟩ 0) = .ok [.reserve ⟨1⟩ 0 ⟨0⟩ 1] ∧
        lampsTask.repairs s (.conflict ⟨⟨0⟩, [⟨0⟩, ⟨1⟩]⟩) =
          .ok [.order ⟨0⟩ ⟨1⟩, .order ⟨1⟩ ⟨0⟩] ∧
        Task.admits s (.order ⟨0⟩ ⟨1⟩) = .ok true ∧
        lampsTask.openFlaws s = .ok [.conflict ⟨⟨0⟩, [⟨0⟩, ⟨1⟩]⟩] ∧
        s'.chronicle.tokens.size = 2 :=
    ⟨_, _, _, _, _, _, rfl, rfl, rfl, rfl, rfl, rfl, rfl, rfl, rfl, rfl, rfl, rfl, rfl, rfl⟩
  -- four decisions lead to the conflict, each the only repair of its flaw
  have hreachable : lampsTask.Reachable s :=
    .apply (.apply (.apply (.apply (.start hs₀) hds₀ (by simp) rfl hs₁) hds₁ (by simp) rfl hs₂)
      hds₂ (by simp) rfl hs₃) hds₃ (by simp) rfl hs
  exact ⟨s, s', hreachable,
    ⟨_, _, s', hflaws, by simp, hds, by simp, hadmits, hs', .refl⟩, hsize⟩

/-- The conflict of the lamps is settled once and for all, and so is the first goal when the frame
for the second one is made. -/
theorem repairs_permanent_lamps : ∃ (s s' here : PartialPlan) (root : List String)
    (a b : Task.Attempt) (flaws' : List Flaw), Model.load lamps = .ok lampsTask.model ∧
      lampsTask.Leads s (.conflict ⟨⟨0⟩, [⟨0⟩, ⟨1⟩]⟩) (.order ⟨0⟩ ⟨1⟩) s' ∧
      lampsTask.openFlaws s' = .ok flaws' ∧ Flaw.conflict ⟨⟨0⟩, [⟨0⟩, ⟨1⟩]⟩ ∉ flaws' ∧
      lampsTask.Visits root 9 here [a, b] ∧ [a.frame.flaw, b.frame.flaw].Nodup := by
  have hload : Model.load lamps = .ok lampsTask.model := rfl
  obtain ⟨s, s', hreachable, hleads, hsize⟩ := leads_lamps
  obtain ⟨root, here, a, b, hvisits, -, -, hsizeA, hsizeB⟩ := visits_lamps
  obtain ⟨hpermanent, hnodup⟩ := Task.repairs_permanent hload (by simp [lampsTask])
  obtain ⟨flaws', hflaws', hclosed, -⟩ :=
    hpermanent s _ _ s' hreachable hleads (by rw [hsize]; decide)
  exact ⟨s, s', here, root, a, b, flaws', hload, hleads, hflaws', hclosed, hvisits,
    hnodup root 9 here _ hvisits (by simp [hsizeA, hsizeB])⟩

end TemporalPlanning
