import Mathlib.Data.List.Nodup
import TemporalPlanning.Proofs.Plan.Verify
import TemporalPlanning.Proofs.Reservation.Capacity
import TemporalPlanning.Proofs.Search.Reading
import TemporalPlanning.Proofs.Search.Solved

/-!
# Plans of the search are verified

Verification has nothing to say about a plan of the search (`Problem.violations_of_solve`), and all
dates lie within the horizon. For the resources, what verification finds in the bindings of the plan
is matched with the reservations of the partial plan (`forall₂_resourceUses`), no two of which are
the same (`PartialPlan.Sound.nodup_taken`); that their capacity is kept was made sure before the
plan was read off.
-/

namespace TemporalPlanning

/-! ### What the tokens take -/

namespace PartialPlan

variable (s : PartialPlan)

/-- The reservation that a support stands for. -/
def reservedBy : Option Support → Option (ReservationId × Reservation)
  | some (.reservation _ id) => (s.reservations.reservation? id).map (id, ·)
  | _ => none

/-- The reservations of a token, in the order of its conditions. -/
def takenBy (id : TokenId) : List (ReservationId × Reservation) :=
  match s.chronicle.token id with
  | .ok t => t.supports.filterMap s.reservedBy
  | .error _ => []

/-- The reservations of all tokens, timeline by timeline. -/
def taken : List (ReservationId × Reservation) :=
  s.chronicle.timelines.toList.flatMap fun host => host.sequence.flatMap s.takenBy

variable {s} {task : Task} {facts : Nat → Nat}

/-- What a support has reserved is a live reservation; a supplying token has reserved nothing. A
slot that is empty has reserved nothing either. -/
theorem reservedBy_eq_some {support? : Option Support} {e : ReservationId × Reservation} :
    s.reservedBy support? = some e ↔ (∃ resource, support? = some (.reservation resource e.1)) ∧
      s.reservations.reservation? e.1 = some e.2 := by
  obtain ⟨id, r⟩ := e
  unfold reservedBy
  split
  · next resource id' =>
    simp only [Option.map_eq_some_iff, Prod.mk.injEq, Option.some.injEq, Support.reservation.injEq]
    constructor
    · rintro ⟨r', hr', rfl, rfl⟩
      exact ⟨⟨resource, rfl, rfl⟩, hr'⟩
    · rintro ⟨⟨resource', rfl, rfl⟩, hr⟩
      exact ⟨r, hr, rfl, rfl⟩
  · -- a token or nothing has reserved nothing
    next hother =>
    constructor
    · exact fun h => absurd h (by simp)
    · rintro ⟨⟨resource, rfl⟩, -⟩
      exact absurd rfl (hother resource id)

/-- What a token has taken supports a condition of it, and is live. The list goes through the slots
of the token in order. -/
theorem exists_supportedBy_of_mem_takenBy {id : TokenId} {e : ReservationId × Reservation}
    (h : e ∈ s.takenBy id) :
    (∃ i resource, s.chronicle.SupportedBy id i (.reservation resource e.1)) ∧
      s.reservations.reservation? e.1 = some e.2 := by
  unfold takenBy at h
  split at h
  · next t ht =>
    obtain ⟨support?, hmem, he⟩ := List.mem_filterMap.mp h
    obtain ⟨⟨resource, rfl⟩, hr⟩ := reservedBy_eq_some.mp he
    obtain ⟨i, hi, heq⟩ := List.mem_iff_getElem.mp hmem
    exact ⟨⟨i, resource, t, ht, by rw [List.getElem?_eq_getElem hi, heq]⟩, hr⟩
  · exact absurd h List.not_mem_nil

/-- What the tokens take are reservations of the book. -/
theorem mem_on_of_mem_taken {e : ReservationId × Reservation} (h : e ∈ s.taken) :
    e ∈ s.reservations.on e.2.resource := by
  obtain ⟨host, -, h⟩ := List.mem_flatMap.mp h
  obtain ⟨id, -, h⟩ := List.mem_flatMap.mp h
  exact ReservationBook.mem_on.mpr ⟨(exists_supportedBy_of_mem_takenBy h).2, rfl⟩

theorem nodup_takenBy (h : s.chronicle.Accounted s.reservations) (id : TokenId) :
    (s.takenBy id).Nodup := by
  unfold takenBy
  split
  · next t ht =>
    rw [List.Nodup, List.pairwise_filterMap, List.pairwise_iff_getElem]
    rintro i j hi hj hlt e he _ he' rfl
    obtain ⟨⟨resource, hi'⟩, -⟩ := reservedBy_eq_some.mp he
    obtain ⟨⟨resource', hj'⟩, -⟩ := reservedBy_eq_some.mp he'
    -- no two conditions share a reservation
    have := (h.unshared id id i j resource resource' e.1
      ⟨t, ht, by rw [List.getElem?_eq_getElem hi, hi']⟩
      ⟨t, ht, by rw [List.getElem?_eq_getElem hj, hj']⟩).2
    omega
  · exact List.nodup_nil

/-- Different tokens take different reservations. -/
theorem disjoint_takenBy (h : s.chronicle.Accounted s.reservations) {id id' : TokenId}
    (hne : id ≠ id') : List.Disjoint (s.takenBy id) (s.takenBy id') := by
  intro e he he'
  obtain ⟨⟨i, resource, hi⟩, -⟩ := exists_supportedBy_of_mem_takenBy he
  obtain ⟨⟨i', resource', hi'⟩, -⟩ := exists_supportedBy_of_mem_takenBy he'
  exact hne (h.unshared _ _ _ _ _ _ _ hi hi').1

/-- No two timelines share a token. A token stands on the timeline that it names, and there only
once. -/
theorem nodup_sequences {m : Model} (h : s.chronicle.WellFormed m facts) :
    (s.chronicle.timelines.toList.flatMap (·.sequence)).Nodup := by
  have hlookup : ∀ (i : Nat) (hi : i < s.chronicle.timelines.toList.length),
      s.chronicle.timeline ⟨i⟩ = .ok s.chronicle.timelines.toList[i] := by
    intro i hi
    exact Chronicle.timeline_eq_ok_iff_toList.mpr (List.getElem?_eq_getElem hi)
  rw [List.nodup_flatMap]
  constructor
  · -- within a timeline tokens are distinct
    intro host hhost
    obtain ⟨i, hi, rfl⟩ := List.mem_iff_getElem.mp hhost
    exact (h.sequence _ _ (hlookup i hi)).1
  · rw [List.pairwise_iff_getElem]
    intro i j hi hj hlt id hid hid'
    obtain ⟨t, ht, htl⟩ := (h.sequence _ _ (hlookup i hi)).2 id hid
    obtain ⟨t', ht', htl'⟩ := (h.sequence _ _ (hlookup j hj)).2 id hid'
    obtain rfl := Chronicle.token_inj ht ht'
    -- a token knows its timeline, and so stands on one only
    have := TimelineId.mk.inj (htl.symm.trans htl')
    omega

/-- No reservation is taken twice. -/
theorem Sound.nodup_taken (h : s.Sound task facts) : s.taken.Nodup := by
  rw [taken, ← List.flatMap_assoc, List.nodup_flatMap]
  exact ⟨fun id _ => nodup_takenBy h.accounted id,
    List.Pairwise.imp (fun hne => disjoint_takenBy h.accounted hne)
      (nodup_sequences h.ready.chronicle)⟩

end PartialPlan

variable {task : Task} {s : PartialPlan} {date : Timepoint → Int} {p : Plan}

/-! ### What verification finds -/

/-- A usage of a plan is that of a reservation of a partial plan. -/
def PartialPlan.Explains (s : PartialPlan) (date : Timepoint → Int)
    (e : ReservationId × Reservation) (use : String × Usage) : Prop :=
  (∃ r, s.reservations.resource? e.2.resource = some r ∧ r.name = use.1) ∧ e.2.usage date = use.2

/-- A condition that asks for units, and no other, has a reservation. The two sides are the
reservation in the partial plan and the use in the plan that explains it. -/
theorem rel_reservedBy (h : s.Sound task task.factCount) {id : TokenId} {t : Token}
    {pt : PlanToken} (ht : pt.Reads s date id t) {i : Nat} {condition : Condition}
    {support : Support} {name : String} (hasks : s.chronicle.Asks id i condition)
    (hsupport : s.chronicle.SupportedBy id i support) (hname : support.Names s name) :
    Option.Rel (s.Explains date) (s.reservedBy (some support))
      (pt.useOf (condition, .named name)) := by
  have hserves := h.served id i condition support hasks hsupport
  -- by the kind of the condition, and then of what supports it
  cases condition with
  | uses target amount =>
    cases support with
    | token q => exact hserves.elim
    | reservation resource reservation =>
      -- the reservation has the timepoints of the token and the amount of the condition
      obtain ⟨-, t', r, ht', hr, rfl, -, hstart, hstop, hamount⟩ := hserves
      obtain rfl := Chronicle.token_inj ht.token ht'
      rw [PartialPlan.reservedBy, hr]
      refine .some ⟨hname, ?_⟩
      simp only [Reservation.usage, Usage.mk.injEq]
      exact ⟨by rw [hstart, ht.start], by rw [hstop, ht.stop], hamount⟩
  | follows state =>
    cases support with
    | reservation resource reservation => exact hserves.elim
    | token q => exact .none
  | metBy target state | during target state =>
    cases support with
    | reservation resource reservation => exact hserves.elim
    | token q => exact .none

/-- The usages of a token of the plan are its reservations. They are listed in the order of the
conditions on both sides, so that they can be compared one by one. -/
theorem forall₂_uses (h : p.ReadOff task s date) {id : TokenId} {t : Token} {pt : PlanToken}
    (ht : pt.Reads s date id t) {host : Timeline}
    (hhost : s.chronicle.timeline t.timeline = .ok host)
    {d : TimelineDef} (hstates : d.states = host.states) :
    List.Forall₂ (s.Explains date) (s.takenBy id) (match d.template? pt.state with
      | none => []
      | some state => pt.uses state) := by
  have hwf := h.sound.ready.chronicle
  have htaken : s.takenBy id = t.supports.filterMap s.reservedBy := by
    rw [PartialPlan.takenBy, ht.token]
  have htemplate : d.template? pt.state = host.template? t.state := by
    rw [TimelineDef.template?, hstates, ht.state, Timeline.template?]
  rw [htaken, htemplate]
  cases horigin : t.origin with
  | fact =>
    -- a fact has no supports, and hence no bindings
    have hnone := (hwf.fact id t host ht.token hhost horigin).1
    have hbindings : pt.bindings = [] :=
      List.length_eq_zero_iff.mp (ht.length.trans (by rw [hnone]; rfl))
    rw [hnone]
    cases host.template? t.state with
    | none => exact .nil
    | some template =>
      simp only [PlanToken.uses, hbindings, List.zip_nil_right]
      exact .nil
  | planned =>
    obtain ⟨template, htemplate, hlength⟩ := hwf.planned id t host ht.token hhost horigin
    rw [htemplate]
    dsimp only
    -- conditions, supports and bindings are gone through in step, by their index
    rw [PlanToken.uses_eq_filterMap]
    refine List.rel_filterMap (R := fun support? (pair : Condition × ObjectRef) => ∃ i : Nat,
      t.supports[i]? = some support? ∧ template.conditions[i]? = some pair.1 ∧
        pt.bindings[i]? = some pair.2) ?_ ?_
    · rintro support? ⟨condition, binding⟩ ⟨i, hsupport, hcondition, hbinding⟩
      obtain ⟨support, rfl⟩ := Option.ne_none_iff_exists'.mp fun hnone =>
        h.closed id t ht.token (hnone ▸ List.mem_of_getElem? hsupport)
      obtain ⟨name, hname, hnames⟩ := ht.bindings i support hsupport
      obtain rfl := Option.some.inj (hname.symm.trans hbinding)
      exact rel_reservedBy h.sound ht ⟨t, host, template, ht.token, hhost, htemplate, hcondition⟩
        ⟨t, ht.token, hsupport⟩ hnames
    · rw [List.forall₂_iff_get]
      constructor
      · rw [List.length_zip, ht.length, hlength, min_self]
      · intro i hi hi'
        rw [List.length_zip, lt_inf_iff] at hi'
        refine ⟨i, List.getElem?_eq_getElem hi, ?_, ?_⟩
        · simp [hi'.1]
        · simp [hi'.2]

/-- **The usages that verification finds are the reservations of the partial plan.** Both lists go
through the tokens timeline by timeline, and through the conditions of each token. -/
theorem forall₂_resourceUses (hm : task.model.WellFormed) (h : p.ReadOff task s date) :
    List.Forall₂ (s.Explains date) s.taken (p.resourceUses task.model) := by
  have hwf := h.sound.ready.chronicle
  have hhosts : ∀ host ∈ s.chronicle.timelines.toList,
      ∃ tl, s.chronicle.timeline tl = .ok host := fun host => Chronicle.mem_timelines.mp
  -- entries and timelines are matched first, then their tokens, then the conditions
  refine List.rel_flatMap ((List.forall₂_and_left _ _).mpr ⟨hhosts, h.entries⟩) ?_
  rintro host e ⟨⟨tl, hhost⟩, hereads⟩
  obtain ⟨d, hd, -, hstates⟩ := hwf.timelineTemplate? hm hhost
  dsimp only
  rw [hereads.name, hd]
  refine List.rel_flatMap
    ((List.forall₂_and_left _ _).mpr ⟨(hwf.sequence tl host hhost).2, hereads.tokens⟩) ?_
  rintro id pt ⟨⟨t, ht, rfl⟩, t', ht'⟩
  obtain rfl := Chronicle.token_inj ht ht'.token
  exact forall₂_uses h ht' hhost hstates

/-- The usages of a resource in a plan are among the usages of its reservations. It is enough for
the verifier, whose peak can only be smaller for fewer usages. -/
theorem subperm_usagesOf (hm : task.model.WellFormed) (h : p.ReadOff task s date) {id : ResourceId}
    {r : Resource} (hr : s.reservations.resource? id = some r) :
    (p.usagesOf task.model r.name).Subperm (s.reservations.usages date id) := by
  -- names tell the resources apart, so filtering by name is filtering by number
  have hiff : ∀ ⦃e use⦄, s.Explains date e use →
      (decide (e.2.resource = id) = true ↔ (use.1 == r.name) = true) := by
    rintro e use ⟨⟨r', hr', hname⟩, -⟩
    rw [decide_eq_true_iff, beq_iff_eq, ← hname]
    constructor
    · rintro rfl
      rw [Option.some.inj (hr.symm.trans hr')]
    · exact h.sound.book.name_inj _ _ _ _ hr' hr
  have husages : List.Forall₂ Eq
      ((s.taken.filter fun e => decide (e.2.resource = id)).map fun e => e.2.usage date)
      (p.usagesOf task.model r.name) :=
    List.rel_map (fun e use he => he.2) (List.rel_filter @hiff (forall₂_resourceUses hm h))
  -- what is used of this name is what has been taken of this resource, in the same order
  rw [List.forall₂_eq_eq_eq] at husages
  rw [← husages]
  refine subperm_map _ (List.subperm_of_subset ?_ fun e he => ?_)
  · exact List.Nodup.filter _ h.sound.nodup_taken
  · obtain ⟨htaken, hid⟩ := List.mem_filter.mp he
    obtain rfl := of_decide_eq_true hid
    exact PartialPlan.mem_on_of_mem_taken htaken

/-! ### Nothing is found -/

/-- Every entry follows the declaration of its timeline. Durations, classes and order come from
dates that the chronicle respects, and facts and planned tokens are told apart by their places. -/
theorem Plan.ReadOff.obeys_entry (hm : task.model.WellFormed) (h : p.ReadOff task s date)
    {e : PlanTimeline} (he : e ∈ p.timelines) : e.Obeys task.model := by
  have hwf := h.sound.ready.chronicle
  have hrespects := h.sound.respects date h.fits
  obtain ⟨tl, host, hhost, hereads⟩ := exists_timeline h.entries he
  obtain ⟨d, hd, hclass, hstates⟩ := hwf.timelineTemplate? hm hhost
  refine ⟨d, by rw [hereads.name]; exact hd, fun pt hpt => ?_, ?_⟩
  · obtain ⟨k, hk⟩ := List.mem_iff_getElem?.mp hpt
    obtain ⟨host', id, t, hereads', ht, hhost', -⟩ := exists_read hwf h.entries he hk
    have htl := hwf.name_inj _ _ _ _ hhost hhost' (hereads.name.symm.trans hereads'.name)
    -- the token stands on the timeline of the entry, whose name no other one has
    obtain rfl := Chronicle.timeline_inj hhost (htl ▸ hhost')
    have htemplate : d.template? pt.state = host.template? t.state := by
      rw [TimelineDef.template?, hstates, ht.state, Timeline.template?]
    constructor
    · intro hsome
      rw [htemplate]
      -- a fact has a declared state, if its timeline has a class; a planned token has a template
      cases horigin : t.origin with
      | fact => exact (hwf.fact id t host ht.token hhost' horigin).2 (hclass ▸ hsome)
      | planned =>
        obtain ⟨template, htemplate, -⟩ := hwf.planned id t host ht.token hhost' horigin
        rw [htemplate]
        rfl
    · rw [TimelineDef.durationOf, htemplate, PlanToken.duration, ht.start, ht.stop]
      exact hrespects.duration id t host ht.token hhost'
  · rw [List.pairwise_iff_getElem]
    intro i j hi hj hlt
    obtain ⟨id, t, hid, ht⟩ := hereads.exists_token (List.getElem?_eq_getElem hi)
    obtain ⟨id', t', hid', ht'⟩ := hereads.exists_token (List.getElem?_eq_getElem hj)
    -- tokens of one timeline are ordered in time as they stand
    have := hrespects.ordered tl host i j id id' t t' hhost hlt hid hid' ht.token ht'.token
    have hlate : ¬date t'.start < date t.stop := by omega
    rw [PlanToken.overlaps, ht.stop, ht'.start, decide_eq_false hlate, Bool.and_false]

/-- No resource that the plan binds is unknown or overloaded. Without conflicts under the schedule
the reservations stay within the capacity at every start, and so do the usages of the plan. -/
theorem Plan.ReadOff.peak_le (hm : task.model.WellFormed) (h : p.ReadOff task s date)
    {use : String × Usage} (huse : use ∈ p.resourceUses task.model) :
    ∃ d, task.model.resourceTemplate? use.1 = some d ∧
      ∀ capacity, d.capacity = some capacity →
        Usage.peak (p.usagesOf task.model use.1) ≤ capacity := by
  obtain ⟨k, hk, rfl⟩ := List.mem_iff_getElem.mp huse
  have hall := forall₂_resourceUses hm h
  obtain ⟨⟨r, hr, hname⟩, -⟩ := hall.get (hall.length_eq ▸ hk) hk
  obtain ⟨d, hd, -, hcapacity⟩ := h.sound.book.resourceTemplate? hm hr
  simp only [List.get_eq_getElem] at hname
  rw [← hname]
  refine ⟨d, hd, fun capacity hsome => Usage.peak_le_iff.mpr fun u hu => ?_⟩
  -- no more is in use in the plan than by the reservations, which do not conflict
  have hsub := subperm_usagesOf hm h hr
  refine (Usage.total_le_of_subperm hsub).trans ?_
  obtain ⟨e, he, rfl⟩ := List.mem_map.mp (hsub.subset hu)
  refine ReservationBook.total_le_of_conflicts h.fits h.unopposed hr (hcapacity ▸ hsome)
    (fun f hf => ?_) he
  obtain ⟨hf, hid⟩ := ReservationBook.mem_on.mp hf
  -- each reservation alone is within the capacity
  have hheld := h.sound.held f.1 f.2 r hf (hid ▸ hr)
  rw [Resource.canHold, ← hcapacity, hsome] at hheld
  exact of_decide_eq_true hheld

/-- Every goal has its token. The entry that the goal's name leads to is the one of its timeline, as
the names of the entries are distinct. -/
theorem Plan.ReadOff.tokensOf_ne_nil (h : p.ReadOff task s date) {g : GroundRef}
    (hg : g ∈ task.model.goals) {d : TimelineDef}
    (hd : task.model.timelines[g.timeline]? = some d) : p.tokensOf d.name g.state ≠ [] := by
  have hwf := h.sound.ready.chronicle
  obtain ⟨i, hi, rfl⟩ := List.mem_iff_getElem.mp hg
  obtain ⟨id, hid⟩ := h.goals i hi
  obtain ⟨t, ht, htl, hstate⟩ := hwf.goals i _ id (List.getElem?_eq_getElem hi)
    (Chronicle.goalSupport?_eq_ok.mp hid)
  obtain ⟨host, k, hhost, hk⟩ := hwf.exists_place ht
  obtain ⟨host', hhost', hname, -⟩ := hwf.declared _ d hd
  rw [htl] at hhost
  obtain rfl := Chronicle.timeline_inj hhost hhost'
  -- the first entry of the name is that of the timeline
  have hsome : (p.timeline? d.name).isSome := by
    obtain ⟨e, he, hereads⟩ := exists_entry h.entries hhost
    exact Plan.isSome_timeline?_iff.mpr ⟨e, he, hereads.name.trans hname⟩
  obtain ⟨e, hfind⟩ := Option.isSome_iff_exists.mp hsome
  obtain ⟨he, hename⟩ := Plan.of_timeline?_eq_some hfind
  obtain ⟨tl, host', hhost', hereads⟩ := exists_timeline h.entries he
  have heq := hwf.name_inj _ _ _ _ hhost hhost' (hname.trans (hename.symm.trans hereads.name))
  obtain rfl := Chronicle.timeline_inj hhost (heq ▸ hhost')
  -- the token that serves the goal is shown there, in the state of the goal
  obtain ⟨pt, t', hpt, hread⟩ := hereads.exists_planToken hk
  obtain rfl := Chronicle.token_inj ht hread.token
  rw [Plan.tokensOf, hfind]
  refine List.ne_nil_of_mem (List.mem_filter.mpr ⟨List.mem_of_getElem? hpt, ?_⟩)
  rw [hread.state, hstate]
  exact beq_self_eq_true _

/-- A plan that was read off obeys the model. -/
theorem Plan.ReadOff.obeys (hm : task.model.WellFormed) (h : p.ReadOff task s date) :
    p.Obeys task.model where
  entries := fun _ he => h.obeys_entry hm he
  resources := fun _ huse => h.peak_le hm huse
  goals := fun _ hg _ hd => h.tokensOf_ne_nil hg hd

/-! ### Dates -/

/-- A plan that was read off keeps within the horizon. Every timepoint of the partial plan has its
window, and the dates of the plan respect it. -/
theorem Plan.ReadOff.within (h : p.ReadOff task s date) : p.Within task.config.horizon := by
  have hwf := h.sound.ready.chronicle
  intro e he pt hpt
  obtain ⟨k, hk⟩ := List.mem_iff_getElem?.mp hpt
  obtain ⟨host, id, t, -, ht, -, -⟩ := exists_read hwf h.entries he hk
  obtain ⟨hstart, hstop⟩ := hwf.timepoints_lt ht.token
  rw [← h.sound.ready.size_eq, ← Network.contains_iff] at hstart hstop
  replace hstart := h.sound.ready.steady.window h.fits hstart
  replace hstop := h.sound.ready.steady.window h.fits hstop
  -- the windows are about the distance from the origin, which is at 0
  rw [h.origin, sub_zero] at hstart hstop
  rw [ht.start, ht.stop]
  exact List.forall_mem_cons.mpr ⟨hstart, List.forall_mem_singleton.mpr hstop⟩

/-- **Every plan of the search passes verification**, and it keeps within the horizon. -/
theorem Problem.violations_of_solve {problem : Problem} {config : Config} {clock : Clock}
    {m : Model} (hload : Model.load problem = .ok m)
    (hhorizon : ∀ h, config.horizon = some h → 0 ≤ h ∧ h ≤ 2 ^ 60)
    (hsize : problem.facts.length + config.maxDecisions < 2 ^ 19)
    (hsolve : problem.solve config clock = .ok (.ok p)) :
    p.violations m = [] ∧ p.Within config.horizon := by
  obtain ⟨hm, s, date, h⟩ := Problem.exists_readOff_of_solve hload hhorizon hsize hsolve
  exact ⟨Plan.violations_eq_nil_iff.mpr (h.obeys hm), h.within⟩

/-- Verification has nothing to say about the lantern. -/
theorem violations_lanternPlan :
    ∃ m, Model.load lantern = .ok m ∧ lantern.facts.length + 20 < 2 ^ 19 ∧
      lantern.solve { maxDecisions := 20 } .stopped = .ok (.ok lanternPlan) ∧
      lanternPlan.violations m = [] ∧ lanternPlan.Within none := by
  obtain ⟨m, hload⟩ := exists_load_lantern
  exact ⟨m, hload, by decide, solve_lantern,
    Problem.violations_of_solve hload (by simp) (by decide) solve_lantern⟩

end TemporalPlanning
