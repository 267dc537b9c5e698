import TemporalPlanning.Proofs.Search.Following
import TemporalPlanning.Proofs.Search.Agenda

/-!
# Decisions that agree with a solution

A decision agrees with a solution that a partial plan is part of (`Decision.Agrees`) if what it
creates has a place in the solution, and if the dates and the bindings of the solution are as it
says. There is room for such a decision (`PartialPlan.EmbedsIn.admits_ne`), and carrying it out
leads to a partial plan that is part of the solution, too (`PartialPlan.EmbedsIn.apply_leads`).
-/

namespace TemporalPlanning

/-- A token of a plan is related to a token in time. -/
def Relation.Relates (date : Timepoint → Int) (consumer : Token) (supplier : PlanToken) :
    Relation → Prop
  | .adjacent | .metBy => supplier.stop = date consumer.start
  | .during => supplier.start ≤ date consumer.start ∧ date consumer.stop ≤ supplier.stop

/-- A relation to a place of the solution holds of the token that mirrors the place. -/
theorem Relation.Relates.holds {date : Timepoint → Int} {consumer supplier : Token}
    {pt : PlanToken} {relation : Relation} (h : relation.Relates date consumer pt)
    (hmirrors : pt.Mirrors date supplier) : relation.Holds date supplier consumer := by
  cases relation with
  | adjacent | metBy => exact hmirrors.stop.symm.trans h
  | during => exact ⟨hmirrors.start ▸ h.1, hmirrors.stop ▸ h.2⟩

/-- A decision agrees with a solution that a partial plan is part of. -/
def Decision.Agrees (task : Task) (p : Plan) (s : PartialPlan) (place : TokenId → Nat)
    (date : Timepoint → Int) : Decision → Prop
  | .supportGoal _ _ => True
  | .insertGoal goal position => ∃ g k pt, task.model.goals[goal]? = some g ∧
      s.Fills p place ⟨g.timeline⟩ g.state position k pt
  | .reserve token i resource _ => ∃ t host pt r, s.chronicle.token token = .ok t ∧
      s.chronicle.timeline t.timeline = .ok host ∧ p.At host.name (place token) pt ∧
      s.reservations.resource? resource = some r ∧ pt.bindings[i]? = some (.named r.name)
  | .link token _ supplier relation => ∃ t u, s.chronicle.token token = .ok t ∧
      s.chronicle.token supplier = .ok u ∧ relation.Holds date u t ∧
      (relation = .adjacent →
        s.chronicle.predecessor? token = .ok (some supplier) ∧ place token = place supplier + 1)
  | .insertSupplier token _ timeline state position relation => ∃ t k pt,
      s.chronicle.token token = .ok t ∧ s.Fills p place timeline state position k pt ∧
      relation.Relates date t pt ∧ (relation = .adjacent → place token = k + 1)
  | .order before after => ∃ b a, s.reservations.reservation? before = some b ∧
      s.reservations.reservation? after = some a ∧ date b.stop ≤ date a.start
  -- a solution has declared objects only
  | .createResource _ _ _ _ | .createTimeline _ _ _ _ _ => False

namespace Task

variable {task : Task} {s : PartialPlan} {horizon : Option Int} {date : Timepoint → Int}

/-- There is room for what some solution of the network obeys. -/
theorem hasRoom_ne_false (h : s.network.Steady horizon) (hdate : s.network.Fits date)
    {c : Constraint} (hholds : c.Holds date) : hasRoom s c ≠ .ok false := by
  intro hroom
  obtain ⟨_, hfirst, hroom⟩ := Fault.bind_eq_ok.mp hroom
  obtain ⟨_, hsecond, hroom⟩ := Fault.bind_eq_ok.mp hroom
  rw [Network.require_eq_ok] at hfirst hsecond
  have hadmits := (h.closed.admits_iff h.exists_fits hfirst hsecond).mpr ⟨date, hdate, hholds⟩
  rw [Fault.pure_eq_ok, hadmits] at hroom
  exact absurd hroom (by simp)

end Task

namespace PartialPlan

variable {task : Task} {s : PartialPlan} {p : Plan} {place : TokenId → Nat}
  {date : Timepoint → Int} {d : Decision}

/-- There is room for decisions that agree with a solution. Only links and orders are tested for
room; the constraints that are tested hold of the dates of the solution, so that the network cannot
exclude them. -/
theorem EmbedsIn.admits_ne (h : s.EmbedsIn task.model p place date)
    (hs : s.Sound task task.factCount) (hagrees : d.Agrees task p s place date) :
    Task.admits s d ≠ .ok false := by
  have hsteady := hs.ready.steady
  cases d with
  | link token i supplier relation =>
    obtain ⟨t, u, ht, hu, hholds, hadjacent⟩ := hagrees
    intro hroom
    obtain ⟨t', ht', hroom⟩ := Fault.bind_eq_ok.mp hroom
    obtain ⟨u', hu', hroom⟩ := Fault.bind_eq_ok.mp hroom
    obtain rfl := Chronicle.token_inj ht ht'
    obtain rfl := Chronicle.token_inj hu hu'
    -- the dates of the solution meet what the link would post
    have hall := Relation.holds_constraints.mpr hholds
    -- a direct predecessor has to be next to its consumer besides
    cases relation with
    | adjacent =>
      obtain ⟨p?, hpredecessor, hroom⟩ := Fault.bind_eq_ok.mp hroom
      obtain rfl := Except.ok.inj ((hadjacent rfl).1.symm.trans hpredecessor)
      rw [if_pos rfl] at hroom
      exact Task.hasRoom_ne_false hsteady h.fits (hall _ List.mem_cons_self) hroom
    | metBy =>
      exact Task.hasRoom_ne_false hsteady h.fits (hall _ List.mem_cons_self) hroom
    | during =>
      -- the second constraint is only asked when there is room for the first one
      obtain ⟨hstart, hall⟩ := List.forall_mem_cons.mp hall
      obtain ⟨first, hfirst, hroom⟩ := Fault.bind_eq_ok.mp hroom
      cases first with
      | true => exact Task.hasRoom_ne_false hsteady h.fits (hall _ List.mem_cons_self) hroom
      | false => exact Task.hasRoom_ne_false hsteady h.fits hstart hfirst
  | order before after =>
    obtain ⟨b, a, hb, ha, hle⟩ := hagrees
    rw [Task.admits, hb, ha]
    exact Task.hasRoom_ne_false hsteady h.fits (Constraint.holds_precedes.mpr hle)
  -- the look-ahead passes the others untested, and a solution creates no objects
  | supportGoal goal token => exact fun hroom => absurd (Except.ok.inj hroom) (by simp)
  | insertGoal goal position => exact fun hroom => absurd (Except.ok.inj hroom) (by simp)
  | reserve token i resource amount => exact fun hroom => absurd (Except.ok.inj hroom) (by simp)
  | insertSupplier token i timeline state position relation =>
    exact fun hroom => absurd (Except.ok.inj hroom) (by simp)
  | createResource token i className amount => exact hagrees.elim
  | createTimeline token i className state relation => exact hagrees.elim

/-- Carrying out a decision that agrees with a solution leads on within it: what the decision adds
has a place in the solution, and dates that the solution gives. -/
theorem EmbedsIn.carryOut_leads (h : s.EmbedsIn task.model p place date)
    (hs : s.Sound task task.factCount) (hm : task.model.WellFormed)
    (hp : p.Solves task.model task.config.horizon) (hfinal : task.config.finalGoals = false)
    (hsize : s.network.size + 1 < Network.sizeLimit) (hsuits : d.Suits task s)
    (hagrees : d.Agrees task p s place date) :
    (task.carryOut d).Leads s fun _ s' =>
      ∃ place' date', s'.EmbedsIn task.model p place' date' := by
  have hsteady := hs.ready.steady
  cases d with
  | supportGoal goal token =>
    exact (h.serveGoal hfinal).bind fun _ s' h' => .pure ⟨_, _, h'⟩
  | insertGoal goal position =>
    -- the token of the goal is placed first, and then noted as its support
    obtain ⟨g, k, pt, hg, hfills⟩ := hagrees
    refine .congr (Edit.query_bind_apply (Fault.require_eq_ok.mpr hg)) ?_
    refine .congr Edit.place_bind_apply ?_
    refine (h.place_leads hs hm hp hsize hfills).bind fun token s₁ ⟨_, _, _, h₁, _⟩ => ?_
    exact (h₁.serveGoal hfinal).bind fun _ s' h' => .pure ⟨_, _, h'⟩
  | reserve token i resource amount =>
    obtain ⟨t, host, pt, r, ht, hhost, hbound⟩ := hagrees
    refine (h.reserveFor fun t' host' ht' hhost' => ?_).bind fun _ s' h' => .pure ⟨_, _, h'⟩
    obtain rfl := Chronicle.token_inj ht ht'
    obtain rfl := Chronicle.timeline_inj hhost hhost'
    exact ⟨pt, r, hbound⟩
  | link token i supplier relation =>
    obtain ⟨t, u, ht, hu, hholds, hadjacent⟩ := hagrees
    obtain ⟨condition, hasks, hrelation, -⟩ := hsuits
    refine (h.linkTo hsteady (fun t' u' ht' hu' => ?_) fun state hfollows => ?_).bind
      fun _ s' h' => .pure ⟨_, _, h'.1⟩
    · obtain rfl := Chronicle.token_inj ht ht'
      obtain rfl := Chronicle.token_inj hu hu'
      exact hholds
    · obtain rfl := hasks.unique hfollows
      exact (hadjacent (Option.some.inj hrelation).symm).2
  | insertSupplier token i timeline state position relation =>
    obtain ⟨t, k, pt, ht, hfills, hrelates, hadjacent⟩ := hagrees
    obtain ⟨condition, hasks, hrelation, -⟩ := hsuits
    have hwf := hs.ready.chronicle
    refine .congr Edit.place_bind_apply ?_
    refine (h.place_leads hs hm hp hsize hfills).bind ?_
    rintro _ s₁ ⟨rfl, hsteady₁, hgrows, h₁, n, hchron⟩
    -- the dates of the consumer are the old ones, those of the new token are the solution's
    obtain ⟨hplace, hstart, hstop⟩ := datesWith_token place k date pt hwf ht
    refine (h₁.linkTo hsteady₁ (fun t' u ht' hu => ?_) fun state' hfollows => ?_).bind
      fun _ s' h' => .pure ⟨_, _, h'.1⟩
    · rw [hchron] at ht' hu
      obtain rfl := Chronicle.token_inj (Chronicle.token_enter.mpr (.inl ht)) ht'
      obtain rfl := Chronicle.token_inj Chronicle.token_enter_self hu
      obtain ⟨-, -, -, -, -, hstate⟩ := hfills
      have hrelates' : relation.Relates (datesWith date s.chronicle.tokens.size pt) t pt := by
        cases relation with
        | adjacent | metBy => exact hrelates.trans hstart.symm
        | during => exact ⟨hrelates.1.trans hstart.symm.le, hstop.le.trans hrelates.2⟩
      exact hrelates'.holds ⟨hstate, datesWith_start.symm, datesWith_stop.symm⟩
    · obtain rfl := hasks.unique (hfollows.of_grows hwf hgrows ht)
      rw [hplace, Function.update_self]
      exact hadjacent (Option.some.inj hrelation).symm
  | order before after =>
    -- an order is a constraint between two dates, which the dates of the solution obey
    obtain ⟨b, a, hb, ha, hle⟩ := hagrees
    refine .congr (Edit.query_bind_apply (congrArg Except.ok hb)) ?_
    refine .congr (Edit.query_bind_apply (congrArg Except.ok ha)) ?_
    exact (h.post hsteady (Network.within_precedes _ _) (Constraint.holds_precedes.mpr hle)).bind
      fun _ s' h' => .pure ⟨_, _, h'⟩
  | createResource token i className amount => exact hagrees.elim
  | createTimeline token i className state relation => exact hagrees.elim

/-- **A decision that agrees with a solution leads on within it**: no resource is overloaded. The
places and the dates of the new partial plan may be larger than before, but on the old tokens and
timepoints they agree with the given ones. -/
theorem EmbedsIn.apply_leads (h : s.EmbedsIn task.model p place date)
    (hs : s.Sound task task.factCount) (hm : task.model.WellFormed)
    (hp : p.Solves task.model task.config.horizon) (hfinal : task.config.finalGoals = false)
    (hsize : s.network.size + 1 < Network.sizeLimit) (hsuits : d.Suits task s)
    (hagrees : d.Agrees task p s place date) :
    (task.apply d).Leads s fun _ s' => ∃ place' date', s'.EmbedsIn task.model p place' date' := by
  have hcarry := h.carryOut_leads hs hm hp hfinal hsize hsuits hagrees
  refine Edit.Leads.bind (Q := fun _ s₁ => s₁.Sound task task.factCount ∧
    ∃ place' date', s₁.EmbedsIn task.model p place' date') ⟨hcarry.1, fun reserved s₁ h₁ =>
      ⟨(hs.carryOut hm hsize hsuits h₁).1, hcarry.2 reserved s₁ h₁⟩⟩ ?_
  rintro reserved s₁ ⟨hs₁, place', date', h₁⟩
  refine Edit.Leads.bind (Q := fun _ s' => s' = s₁)
    ⟨fun why s' hstuck => ?_, fun _ s' hdone => ?_⟩ ?_
  · -- an overload would be one of the solution's too, whose usages are within the capacities
    exact (h₁.fitting hs₁ hm hp).checkCapacity_ne hs₁.ready.steady hs₁.tidy.presentable.dated
      h₁.fits (Edit.check_eq_stuck.mp hstuck).1
  · exact (Edit.check_eq_done.mp hdone).2.symm
  · -- committing changes neither the chronicle nor the network
    rintro _ _ rfl
    exact (h₁.commitAll reserved).mono fun _ s' h' => ⟨place', date', h'⟩

end PartialPlan

end TemporalPlanning
