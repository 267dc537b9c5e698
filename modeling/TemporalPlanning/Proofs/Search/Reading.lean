import TemporalPlanning.Proofs.Network.Schedule
import TemporalPlanning.Proofs.Search.Agenda
import TemporalPlanning.Proofs.Search.Solved
import TemporalPlanning.Search.Extract

/-!
# Reading off a plan

The entries of an extracted plan are the timelines of the partial plan, with the states of their
tokens (`Task.shows_of_extract`). If the network is steady, they have the dates of one solution of
it (`Task.exists_reads_of_extract`): in a partial plan without open conditions a token has a binding
for each condition of its state, and the binding names what supports the condition
(`PlanToken.Reads`).
-/

namespace TemporalPlanning

/-- The name of what a support stands for. -/
def Support.Names (s : PartialPlan) (name : String) : Support → Prop
  | .reservation resource _ => ∃ r, s.reservations.resource? resource = some r ∧ r.name = name
  | .token supplier => ∃ u host, s.chronicle.token supplier = .ok u ∧
      s.chronicle.timeline u.timeline = .ok host ∧ host.name = name

/-- A token of a plan is a token of a partial plan, with dates and names for what it has noted
down. -/
structure PlanToken.Reads (s : PartialPlan) (date : Timepoint → Int) (id : TokenId) (t : Token)
    (p : PlanToken) : Prop where
  token : s.chronicle.token id = .ok t
  state : p.state = t.state
  start : p.start = date t.start
  stop : p.stop = date t.stop
  length : p.bindings.length = t.supports.length
  bindings : ∀ (i : Nat) support, t.supports[i]? = some (some support) →
    ∃ name, p.bindings[i]? = some (.named name) ∧ support.Names s name

/-- An entry of a plan is a timeline of a partial plan. -/
structure PlanTimeline.Reads (s : PartialPlan) (date : Timepoint → Int) (host : Timeline)
    (e : PlanTimeline) : Prop where
  name : e.name = host.name
  tokens : List.Forall₂ (fun id p => ∃ t, PlanToken.Reads s date id t p) host.sequence e.tokens

/-- The state of a token. -/
def Chronicle.state? (c : Chronicle) (id : TokenId) : Option String :=
  c.tokens[id.index]?.map (·.state)

/-- An entry of a plan shows a timeline of a chronicle: its name, and the states of its tokens. -/
structure PlanTimeline.Shows (c : Chronicle) (host : Timeline) (e : PlanTimeline) : Prop where
  name : e.name = host.name
  states : host.sequence.map c.state? = e.tokens.map fun t => some t.state

namespace Task

variable {task : Task} {s : PartialPlan} {horizon : Option Int}

/-- What a token is read off as: its state, the dates that the schedule has for its timepoints, and
a binding for each of its supports, in their order. -/
theorem tokenAt_eq_ok {schedule : List Int} {id : TokenId} {p : PlanToken}
    (h : tokenAt s schedule id = .ok p) :
    ∃ t, s.chronicle.token id = .ok t ∧ p.state = t.state ∧
      Reservation.dateOf schedule t.start = .ok p.start ∧
      Reservation.dateOf schedule t.stop = .ok p.stop ∧
      (t.supports.filterMap fun support => support).mapM (bindingOf s) = .ok p.bindings := by
  obtain ⟨t, ht, h⟩ := Fault.bind_eq_ok.mp h
  obtain ⟨start, hstart, h⟩ := Fault.bind_eq_ok.mp h
  obtain ⟨stop, hstop, h⟩ := Fault.bind_eq_ok.mp h
  obtain ⟨bindings, hbindings, h⟩ := Fault.bind_eq_ok.mp h
  obtain rfl := Except.ok.inj h
  exact ⟨t, ht, rfl, hstart, hstop, hbindings⟩

/-- Each timeline gets an entry, and each of its tokens a token in it. No timeline and no token is
left out, and their order is kept. -/
theorem extract_eq_ok {p : Plan} (h : task.extract s = .ok p) :
    List.Forall₂ (fun host e => e.name = host.name ∧
        List.Forall₂ (fun id q => tokenAt s (task.schedule s) id = .ok q) host.sequence e.tokens)
      s.chronicle.timelines.toList p.timelines := by
  obtain ⟨entries, hentries, h⟩ := Fault.bind_eq_ok.mp h
  obtain rfl := Except.ok.inj h
  refine (Fault.mapM_eq_ok.mp hentries).imp fun host e he => ?_
  obtain ⟨tokens, htokens, he⟩ := Fault.bind_eq_ok.mp he
  obtain rfl := Except.ok.inj he
  exact ⟨rfl, Fault.mapM_eq_ok.mp htokens⟩

/-- **An extracted plan shows the timelines of the partial plan**, whatever the dates are. -/
theorem shows_of_extract {p : Plan} (hp : task.extract s = .ok p) :
    List.Forall₂ (PlanTimeline.Shows s.chronicle) s.chronicle.timelines.toList p.timelines := by
  refine (extract_eq_ok hp).imp fun host e ⟨hname, htokens⟩ => ⟨hname, ?_⟩
  refine (congrFun₂ List.forall₂_eq_eq_eq _ _).mp ?_
  rw [List.forall₂_map_left_iff, List.forall₂_map_right_iff]
  refine htokens.imp fun id q hq => ?_
  obtain ⟨t, ht, hstate, -⟩ := tokenAt_eq_ok hq
  rw [Chronicle.state?, Chronicle.token_eq_ok.mp ht, hstate]
  rfl

/-- The dates of a plan are a solution of the network that begins at 0. -/
theorem exists_fits_schedule (task : Task) (h : s.network.Steady horizon) :
    ∃ date, s.network.Fits date ∧ date .origin = 0 ∧
      task.schedule s = s.network.timepoints.map date := by
  unfold schedule
  split
  · exact h.fits_earliestSchedule
  · exact h.fits_midpointSchedule

/-- A binding is by name, and it is the name of what supports the condition. -/
theorem names_of_bindingOf {support : Support} {target : ObjectRef}
    (h : bindingOf s support = .ok target) :
    ∃ name, target = .named name ∧ support.Names s name := by
  cases support with
  | reservation resource reservation =>
    obtain ⟨r, hr, h⟩ := Fault.bind_eq_ok.mp h
    obtain rfl := Except.ok.inj h
    exact ⟨r.name, rfl, r, Fault.require_eq_ok.mp hr, rfl⟩
  | token supplier =>
    obtain ⟨u, hu, h⟩ := Fault.bind_eq_ok.mp h
    obtain ⟨host, hhost, h⟩ := Fault.bind_eq_ok.mp h
    obtain rfl := Except.ok.inj h
    exact ⟨host.name, rfl, u, host, hu, hhost, rfl⟩

/-- Without an open slot the supports are all there. -/
theorem eq_map_some_of_none_notMem {supports : List (Option Support)} (h : none ∉ supports) :
    supports = (supports.filterMap fun support => support).map some := by
  induction supports with
  | nil => rfl
  | cons support supports ih =>
    rw [List.mem_cons, not_or] at h
    obtain ⟨support, rfl⟩ := Option.ne_none_iff_exists'.mp (Ne.symm h.1)
    rw [show (some support :: supports).filterMap (fun support => support) =
      support :: supports.filterMap fun support => support from rfl, List.map_cons, ← ih h.2]

/-- A token without open condition is read off. Supports are read in the order of the conditions, so
that with none missing the bindings line up with the conditions. -/
theorem reads_of_tokenAt {date : Timepoint → Int} {id : TokenId} {p : PlanToken}
    (closed : ∀ id t, s.chronicle.token id = .ok t → none ∉ t.supports)
    (h : tokenAt s (s.network.timepoints.map date) id = .ok p) :
    ∃ t, PlanToken.Reads s date id t p := by
  obtain ⟨t, ht, hstate, hstart, hstop, hbindings⟩ := tokenAt_eq_ok h
  -- without open conditions the bindings stand at the places of the supports
  have hall := eq_map_some_of_none_notMem (closed id t ht)
  have hforall := Fault.mapM_eq_ok.mp hbindings
  refine ⟨t, ht, hstate, (Reservation.dateOf_eq_ok.mp hstart).2,
    (Reservation.dateOf_eq_ok.mp hstop).2, ?_, fun i support hi => ?_⟩
  · rw [hall, List.length_map]
    exact hforall.length_eq.symm
  · rw [hall, List.getElem?_map, Option.map_eq_some_iff] at hi
    obtain ⟨support', hi, heq⟩ := hi
    obtain rfl := Option.some.inj heq
    obtain ⟨hlt, rfl⟩ := List.getElem?_eq_some_iff.mp hi
    have hlt' : i < p.bindings.length := hforall.length_eq ▸ hlt
    -- the two lists run in step, so the binding at a place is that of its support
    obtain ⟨name, hname, hnames⟩ := names_of_bindingOf (hforall.get hlt hlt')
    exact ⟨name, by rw [List.getElem?_eq_getElem hlt']; exact congrArg some hname, hnames⟩

/-- **An extracted plan lists the timelines of the partial plan**, with the dates of a solution. -/
theorem exists_reads_of_extract (h : s.network.Steady horizon)
    (closed : ∀ id t, s.chronicle.token id = .ok t → none ∉ t.supports) {p : Plan}
    (hp : task.extract s = .ok p) :
    ∃ date, s.network.Fits date ∧ date .origin = 0 ∧
      task.schedule s = s.network.timepoints.map date ∧
      List.Forall₂ (PlanTimeline.Reads s date) s.chronicle.timelines.toList p.timelines := by
  obtain ⟨date, hdate, horigin, hschedule⟩ := exists_fits_schedule task h
  refine ⟨date, hdate, horigin, hschedule, (extract_eq_ok hp).imp fun host e ⟨hname, htokens⟩ =>
    ⟨hname, htokens.imp fun id p hp => reads_of_tokenAt closed ?_⟩⟩
  rwa [← hschedule]

/-! ### Without flaws -/

/-- What it means that no flaw is left. Goals have tokens, slots are filled, and the schedule
overloads no resource. -/
theorem of_nextFlaw_eq_none (h : task.nextFlaw s = .ok none) :
    (∀ g < task.model.goals.length, ∃ token, s.chronicle.goalSupport? g = .ok (some token)) ∧
      (∀ id t, s.chronicle.token id = .ok t → none ∉ t.supports) ∧
      s.reservations.conflicts s.network (task.schedule s) = .ok [] := by
  obtain ⟨goals, hgoals, ⟨-, hsome⟩ | ⟨rfl, hconditions, flaws, hflaws, hhead⟩⟩ := nextFlaw_eq_ok h
  · -- the first two lists would have given a flaw
    exact absurd rfl hsome
  · refine ⟨fun g => exists_goalSupport?_of_openGoals_eq_nil hgoals, fun id t ht hnone => ?_, ?_⟩
    · obtain ⟨i, hi⟩ := List.mem_iff_getElem?.mp hnone
      exact List.eq_nil_iff_forall_not_mem.mp hconditions _
        (mem_openConditions.mpr ⟨id, i, ⟨t, ht, hi⟩, rfl⟩)
    · obtain ⟨found, hfound, rfl⟩ := Fault.map_eq_ok.mp hflaws
      rw [hfound, List.map_eq_nil_iff.mp (List.head?_eq_none_iff.mp hhead)]

end Task

variable {s : PartialPlan} {date : Timepoint → Int} {p : Plan}

/-! ### Entries and timelines -/

/-- The entry of a timeline stands at its place. -/
theorem Chronicle.exists_getElem?_of_forall₂ {c : Chronicle} {R : Timeline → PlanTimeline → Prop}
    {entries : List PlanTimeline} (h : List.Forall₂ R c.timelines.toList entries) {id : TimelineId}
    {host : Timeline} (hhost : c.timeline id = .ok host) :
    ∃ e, entries[id.index]? = some e ∧ R host e := by
  rw [Chronicle.timeline_eq_ok_iff_toList] at hhost
  obtain ⟨hlt, rfl⟩ := List.getElem?_eq_some_iff.mp hhost
  have hlt' : id.index < entries.length := h.length_eq ▸ hlt
  exact ⟨_, List.getElem?_eq_getElem hlt', h.get hlt hlt'⟩

/-- The entry of a timeline. -/
theorem exists_entry (hreads : List.Forall₂ (PlanTimeline.Reads s date)
    s.chronicle.timelines.toList p.timelines) {id : TimelineId} {host : Timeline}
    (hhost : s.chronicle.timeline id = .ok host) :
    ∃ e ∈ p.timelines, PlanTimeline.Reads s date host e := by
  obtain ⟨e, he, hereads⟩ := Chronicle.exists_getElem?_of_forall₂ hreads hhost
  exact ⟨e, List.mem_of_getElem? he, hereads⟩

/-- Tokens of a timeline in order have their states in order in its entry. With it, an order among
tokens becomes an order among the states of the plan. -/
theorem PlanTimeline.Shows.sublist {c : Chronicle} {host : Timeline} {e : PlanTimeline}
    (h : e.Shows c host) {l : List TokenId} (hl : l.Sublist host.sequence) :
    (l.filterMap c.state?).Sublist (e.tokens.map (·.state)) := by
  have hstates : host.sequence.filterMap c.state? = e.tokens.map (·.state) := by
    calc host.sequence.filterMap c.state?
        = (host.sequence.map c.state?).filterMap id := by rw [List.filterMap_map]; rfl
      _ = (e.tokens.map fun t => some t.state).filterMap id := by rw [h.states]
      _ = e.tokens.map (·.state) := by rw [List.filterMap_map, ← List.filterMap_eq_map]; rfl
  rw [← hstates]
  exact hl.filterMap _

/-- The last token of a timeline has its state at the end of the entry. -/
theorem PlanTimeline.Shows.getLast? {c : Chronicle} {host : Timeline} {e : PlanTimeline}
    (h : e.Shows c host) {id : TokenId} (hlast : host.tail? = some id) {t : Token}
    (ht : c.token id = .ok t) : e.tokens.getLast?.map (·.state) = some t.state := by
  have hstates := congrArg List.getLast? h.states
  rw [List.getLast?_map, List.getLast?_map, show host.sequence.getLast? = some id from hlast,
    Option.map_some, Chronicle.state?, Chronicle.token_eq_ok.mp ht] at hstates
  obtain ⟨q, hq, heq⟩ := Option.map_eq_some_iff.mp hstates.symm
  rw [hq]
  exact heq

/-- The timeline of an entry. -/
theorem exists_timeline (hreads : List.Forall₂ (PlanTimeline.Reads s date)
    s.chronicle.timelines.toList p.timelines) {e : PlanTimeline} (he : e ∈ p.timelines) :
    ∃ id host, s.chronicle.timeline id = .ok host ∧ PlanTimeline.Reads s date host e := by
  obtain ⟨i, hlt', rfl⟩ := List.mem_iff_getElem.mp he
  have hlt : i < s.chronicle.timelines.toList.length := hreads.length_eq ▸ hlt'
  refine ⟨⟨i⟩, _, ?_, hreads.get hlt hlt'⟩
  rw [Chronicle.timeline_eq_ok_iff_toList, List.getElem?_eq_getElem hlt]
  rfl

/-- A token of an entry and the token that it was read off, at one place. -/
theorem PlanTimeline.Reads.exists_token {host : Timeline} {e : PlanTimeline}
    (h : e.Reads s date host) {k : Nat} {t : PlanToken} (ht : e.tokens[k]? = some t) :
    ∃ id u, host.sequence[k]? = some id ∧ t.Reads s date id u := by
  obtain ⟨hlt', rfl⟩ := List.getElem?_eq_some_iff.mp ht
  have hlt : k < host.sequence.length := h.tokens.length_eq ▸ hlt'
  obtain ⟨u, hu⟩ := h.tokens.get hlt hlt'
  exact ⟨_, u, List.getElem?_eq_getElem hlt, hu⟩

/-- What a token of a plan was read off. The place of the token in its entry is its place in the
sequence. -/
theorem exists_read {m : Model} {facts : Nat → Nat} (hwf : s.chronicle.WellFormed m facts)
    (hreads : List.Forall₂ (PlanTimeline.Reads s date) s.chronicle.timelines.toList p.timelines)
    {e : PlanTimeline} (he : e ∈ p.timelines) {k : Nat} {pt : PlanToken}
    (hk : e.tokens[k]? = some pt) : ∃ host id t, e.Reads s date host ∧ pt.Reads s date id t ∧
      s.chronicle.timeline t.timeline = .ok host ∧ host.sequence[k]? = some id := by
  obtain ⟨tl, host, hhost, hereads⟩ := exists_timeline hreads he
  obtain ⟨id, t, hid, ht⟩ := hereads.exists_token hk
  obtain ⟨t', ht', rfl⟩ := (hwf.sequence tl host hhost).2 id (List.mem_of_getElem? hid)
  obtain rfl := Chronicle.token_inj ht.token ht'
  exact ⟨host, id, t, hereads, ht, hhost, hid⟩

/-- The place of a token in the entry of its timeline. -/
theorem PlanTimeline.Reads.exists_planToken {host : Timeline} {e : PlanTimeline}
    (h : e.Reads s date host) {k : Nat} {id : TokenId} (hk : host.sequence[k]? = some id) :
    ∃ t u, e.tokens[k]? = some t ∧ t.Reads s date id u := by
  obtain ⟨hlt, rfl⟩ := List.getElem?_eq_some_iff.mp hk
  have hlt' : k < e.tokens.length := h.tokens.length_eq ▸ hlt
  obtain ⟨u, hu⟩ := h.tokens.get hlt hlt'
  exact ⟨_, u, List.getElem?_eq_getElem hlt', hu⟩

/-! ### Plans of the search -/

/-- A plan was read off a sound partial plan without flaws, with the dates of a solution. -/
structure Plan.ReadOff (task : Task) (s : PartialPlan) (date : Timepoint → Int) (p : Plan) :
    Prop where
  sound : s.Sound task task.factCount
  goals : ∀ g < task.model.goals.length, ∃ token, s.chronicle.goalSupport? g = .ok (some token)
  closed : ∀ id t, s.chronicle.token id = .ok t → none ∉ t.supports
  unopposed : s.reservations.conflicts s.network (s.network.timepoints.map date) = .ok []
  fits : s.network.Fits date
  origin : date .origin = 0
  entries : List.Forall₂ (PlanTimeline.Reads s date) s.chronicle.timelines.toList p.timelines

/-- **Every plan of the search was read off** a sound partial plan without flaws. All that is proved
about plans of the search starts from here: the partial plan is known to be sound, and the plan
repeats it. -/
theorem Problem.exists_readOff_of_solve {problem : Problem} {config : Config} {clock : Clock}
    {m : Model} (hload : Model.load problem = .ok m)
    (hhorizon : ∀ h, config.horizon = some h → 0 ≤ h ∧ h ≤ 2 ^ 60)
    (hsize : problem.facts.length + config.maxDecisions < 2 ^ 19)
    (hsolve : problem.solve config clock = .ok (.ok p)) :
    m.WellFormed ∧ ∃ s date, p.ReadOff ⟨m, config⟩ s date := by
  obtain ⟨hm, hrange, hrun⟩ := Problem.run_of_solve hload hhorizon hsize
  rw [hrun] at hsolve
  obtain ⟨s, hsound, hflaw, hp⟩ := Task.exists_solved hm hrange hsolve
  obtain ⟨hgoals, hclosed, hconflicts⟩ := Task.of_nextFlaw_eq_none hflaw
  obtain ⟨date, hdate, horigin, hschedule, hreads⟩ :=
    Task.exists_reads_of_extract hsound.ready.steady hclosed hp
  -- the conflicts were looked for under the schedule that the plan is read with
  rw [hschedule] at hconflicts
  exact ⟨hm, s, date, hsound, hgoals, hclosed, hconflicts, hdate, horigin, hreads⟩

end TemporalPlanning
