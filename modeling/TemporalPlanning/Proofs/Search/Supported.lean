import TemporalPlanning.Proofs.Search.Reading

/-!
# Plans of the search are supported

Whatever the search has gone through, the plan that it ends with supports all its tokens
(`Problem.supported_of_solve`): what was noted down as the support of a condition fits the
condition, and the dates of the plan respect it.
-/

namespace TemporalPlanning

variable {task : Task} {s : PartialPlan} {date : Timepoint → Int} {p : Plan}

/-- What matches a reference in the chronicle is meant by it in the model. -/
theorem meansTimeline_of_matches (hm : task.model.WellFormed) (h : s.Sound task task.factCount)
    {id : TimelineId} {host : Timeline} (hhost : s.chronicle.timeline id = .ok host)
    {target : ObjectRef} (hmatch : host.Matches target) :
    task.model.MeansTimeline host.name target := by
  cases target with
  | named name => exact hmatch
  | anyOf className =>
    obtain ⟨d, hd, hclass, -⟩ := h.ready.chronicle.timelineTemplate? hm hhost
    exact ⟨d, hd, hclass.trans hmatch⟩

theorem meansResource_of_matches (hm : task.model.WellFormed) (h : s.Sound task task.factCount)
    {id : ResourceId} {r : Resource} (hr : s.reservations.resource? id = some r)
    {target : ObjectRef} (hmatch : r.Matches target) :
    task.model.MeansResource r.name target := by
  cases target with
  | named name => exact hmatch
  | anyOf className =>
    obtain ⟨d, hd, hclass, -⟩ := h.book.resourceTemplate? hm hr
    exact ⟨d, hd, hclass.trans hmatch⟩

/-- A supplier became a token of the plan, of the timeline that supports the condition. All tokens
of a timeline are read into its entry, so that none that supplies something can be lost. -/
theorem exists_supplier (hm : task.model.WellFormed) (h : p.ReadOff task s date)
    {target : ObjectRef} {state name : String} {q : TokenId}
    (hsupplies : ∃ u host, s.chronicle.token q = .ok u ∧ u.state = state ∧
      s.chronicle.timeline u.timeline = .ok host ∧ host.Matches target)
    (hname : (Support.token q).Names s name) :
    task.model.MeansTimeline name target ∧ ∃ f ∈ p.timelines, f.name = name ∧
      ∃ v ∈ f.tokens, v.state = state ∧ ∃ u, v.Reads s date q u := by
  obtain ⟨u, host, hu, hstate, hhost, hmatch⟩ := hsupplies
  obtain ⟨u', host', hu', hhost', rfl⟩ := hname
  obtain rfl := Chronicle.token_inj hu hu'
  obtain rfl := Chronicle.timeline_inj hhost hhost'
  -- the timeline of the supplier is an entry of the plan, and the supplier is one of its tokens
  obtain ⟨f, hf, hfreads⟩ := exists_entry h.entries hhost
  obtain ⟨host', j, hhost', hj⟩ := h.sound.ready.chronicle.exists_place hu
  obtain rfl := Chronicle.timeline_inj hhost hhost'
  obtain ⟨v, u', hv, hvreads⟩ := hfreads.exists_planToken hj
  obtain rfl := Chronicle.token_inj hu hvreads.token
  exact ⟨meansTimeline_of_matches hm h.sound hhost hmatch, f, hf, hfreads.name, v,
    List.mem_of_getElem? hv, hvreads.state.trans hstate, _, hvreads⟩

/-- What serves a condition in a partial plan supports it in the plan that is read off. The cases
are the kinds of conditions: a resource by its name, the predecessor by its place in the entry, a
supplier by its state and its dates. -/
theorem supports_of_serves (hm : task.model.WellFormed) (h : p.ReadOff task s date) {id : TokenId}
    {t : Token} {i : Nat} {condition : Condition} {support : Support}
    (hasks : s.chronicle.Asks id i condition)
    (hsupport : s.chronicle.SupportedBy id i support) {e : PlanTimeline} {k : Nat}
    {pt : PlanToken} {host : Timeline} (ht : pt.Reads s date id t)
    (hhost : s.chronicle.timeline t.timeline = .ok host) (he : e.Reads s date host)
    (hk : host.sequence[k]? = some id) {name : String} (hname : support.Names s name) :
    p.Supports task.model e k pt name condition := by
  have hwf := h.sound.ready.chronicle
  have hserves := h.sound.served id i condition support hasks hsupport
  have hlinked := (h.sound.respects date h.fits).linked id i condition
  cases condition with
  | uses target amount =>
    cases support with
    | token q => exact hserves.elim
    | reservation resource reservation =>
      -- the resource that is bound is the one of the reservation
      obtain ⟨⟨r, hr, hmatch⟩, -⟩ := hserves
      obtain ⟨r', hr', rfl⟩ := hname
      obtain rfl := Option.some.inj (hr.symm.trans hr')
      exact meansResource_of_matches hm h.sound hr hmatch
  | follows state =>
    cases support with
    | reservation resource reservation => exact hserves.elim
    | token q =>
      obtain ⟨hbefore, -, u, hu, hstate⟩ := hserves
      -- both tokens are on the timeline of the later one
      obtain ⟨j, u', rfl, hj, hu', htl⟩ :=
        hwf.place_of_standsBefore ht.token hhost hk hbefore
      obtain rfl := Chronicle.token_inj hu hu'
      obtain ⟨u', g, hu', hg, rfl⟩ := hname
      obtain rfl := Chronicle.token_inj hu hu'
      rw [htl] at hg
      obtain rfl := Chronicle.timeline_inj hhost hg
      obtain ⟨v, u', hv, hvreads⟩ := he.exists_planToken hj
      obtain rfl := Chronicle.token_inj hu hvreads.token
      refine ⟨he.name.symm, j, v, rfl, hv, hvreads.state.trans hstate, ?_⟩
      rw [hvreads.stop, ht.start]
      exact hlinked .adjacent q t u hasks rfl hsupport ht.token hu
  | metBy target state =>
    cases support with
    | reservation resource reservation => exact hserves.elim
    | token q =>
      obtain ⟨hmeans, f, hf, hfname, v, hv, hstate, u, hvreads⟩ :=
        exists_supplier hm h hserves hname
      refine ⟨hmeans, f, hf, hfname, v, hv, hstate, ?_⟩
      -- the one stops where the other starts, by the constraint of the link
      rw [hvreads.stop, ht.start]
      exact hlinked .metBy q t u hasks rfl hsupport ht.token hvreads.token
  | during target state =>
    cases support with
    | reservation resource reservation => exact hserves.elim
    | token q =>
      obtain ⟨hmeans, f, hf, hfname, v, hv, hstate, u, hvreads⟩ :=
        exists_supplier hm h hserves hname
      refine ⟨hmeans, f, hf, hfname, v, hv, hstate, ?_⟩
      -- the supplier is on from before until after, by the two constraints of the link
      rw [hvreads.start, hvreads.stop, ht.start, ht.stop]
      exact hlinked .during q t u hasks rfl hsupport ht.token hvreads.token

/-- A plan that was read off is supported. At the end no slot is empty, so that each binding of the
plan comes from a support, and each support serves its condition. -/
theorem Plan.ReadOff.supported (hm : task.model.WellFormed) (h : p.ReadOff task s date) :
    p.Supported task.model := by
  have hwf := h.sound.ready.chronicle
  intro e he k pt hprefix hpt
  obtain ⟨host, id, t, hereads, ht, hhost, hk⟩ := exists_read hwf h.entries he hpt
  -- behind the facts there are planned tokens only
  rw [hereads.name, factPrefix_eq hm h.sound hhost] at hprefix
  have hplanned : t.origin = .planned := by
    have hfirst := hwf.facts_first _ host k id t hhost hk ht.token
    cases horigin : t.origin with
    | fact =>
      have := hfirst.mpr horigin
      omega
    | planned => rfl
  obtain ⟨template, htemplate, hlength⟩ := hwf.planned id t host ht.token hhost hplanned
  obtain ⟨d, hd, -, hstates⟩ := hwf.timelineTemplate? hm hhost
  refine ⟨d, template, by rw [hereads.name]; exact hd, ?_, ht.length.trans hlength,
    fun i condition hcondition => ?_⟩
  · rw [ht.state, TimelineDef.template?, hstates]
    exact htemplate
  · have hlt : i < t.supports.length :=
      hlength.symm ▸ (List.getElem?_eq_some_iff.mp hcondition).1
    -- no condition is open any more when a plan is read off
    obtain ⟨support, hsupport⟩ := Option.ne_none_iff_exists'.mp fun hnone =>
      h.closed id t ht.token (hnone ▸ List.getElem_mem hlt)
    have hslot : t.supports[i]? = some (some support) := by
      rw [List.getElem?_eq_getElem hlt, hsupport]
    obtain ⟨name, hname, hnames⟩ := ht.bindings i support hslot
    exact ⟨name, hname, supports_of_serves hm h
      ⟨t, host, template, ht.token, hhost, htemplate, hcondition⟩ ⟨t, ht.token, hslot⟩ ht hhost
      hereads hk hnames⟩

/-- **Every plan of the search is supported.** -/
theorem Problem.supported_of_solve {problem : Problem} {config : Config} {clock : Clock}
    {m : Model} (hload : Model.load problem = .ok m)
    (hhorizon : ∀ h, config.horizon = some h → 0 ≤ h ∧ h ≤ 2 ^ 60)
    (hsize : problem.facts.length + config.maxDecisions < 2 ^ 19)
    (hsolve : problem.solve config clock = .ok (.ok p)) : p.Supported m := by
  obtain ⟨hm, s, date, h⟩ := Problem.exists_readOff_of_solve hload hhorizon hsize hsolve
  exact h.supported hm

/-- The lantern is lit at night, which begins when the day ends, with the one bulb that there is. -/
theorem supported_lanternPlan :
    ∃ m, Model.load lantern = .ok m ∧ lantern.facts.length + 20 < 2 ^ 19 ∧
      lantern.solve { maxDecisions := 20 } .stopped = .ok (.ok lanternPlan) ∧
      lanternPlan.Supported m := by
  obtain ⟨m, hload⟩ := exists_load_lantern
  exact ⟨m, hload, by decide, solve_lantern,
    Problem.supported_of_solve hload (by simp) (by decide) solve_lantern⟩

end TemporalPlanning
