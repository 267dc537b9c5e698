import TemporalPlanning.Proofs.Search.Agreement
import TemporalPlanning.Proofs.Search.Reading

/-!
# A solution guides the search

Whatever flaw is repaired next in a partial plan that is part of a solution, some repair agrees with
the solution (`PartialPlan.EmbedsIn.exists_agrees`). What a goal or a condition needs has its place
in the solution: either a token has it already, or it falls into a gap. Reservations that exceed a
capacity together are not active all at once in a solution, so that two of them come in order.
-/

namespace TemporalPlanning

namespace Task

variable {task : Task} {facts : Nat → Nat} {s : PartialPlan}

/-! ### What is listed -/

/-- The flaws that are repaired. Each of them comes with what the repairs are computed from. -/
theorem nextFlaw_eq_some {flaw : Flaw} (h : task.nextFlaw s = .ok (some flaw)) :
    (∃ goal, flaw = .openGoal goal ∧ goal < task.model.goals.length) ∨
      (∃ token i t, flaw = .openCondition token i ∧ s.chronicle.token token = .ok t ∧
        t.supports[i]? = some none) ∨
      ∃ c cs, flaw = .conflict c ∧ c ∈ cs ∧
        s.reservations.conflicts s.network (task.schedule s) = .ok cs := by
  -- a goal or a condition if one is open, and a conflict only otherwise
  obtain ⟨goals, hgoals, ⟨hhead, -⟩ | ⟨-, -, flaws, hflaws, hhead⟩⟩ := nextFlaw_eq_ok h
  · rcases List.mem_append.mp (List.mem_of_head? hhead) with hmem | hmem
    · obtain ⟨goal, ⟨hgoal, -⟩, rfl⟩ := (mem_openGoals hgoals).mp hmem
      exact .inl ⟨goal, rfl, hgoal⟩
    · obtain ⟨id, i, ⟨t, ht, hi⟩, rfl⟩ := mem_openConditions.mp hmem
      exact .inr (.inl ⟨id, i, t, rfl, ht, hi⟩)
  · obtain ⟨cs, hcs, rfl⟩ := Fault.map_eq_ok.mp hflaws
    obtain ⟨c, hc, rfl⟩ := List.mem_map.mp (List.mem_of_head? hhead)
    exact .inr (.inr ⟨c, cs, rfl, hc, hcs⟩)

/-- If goals are reached in any order and need not come last, each token of the right state is
proposed, and each place at which the timeline admits one. Under other settings the floor of the
goal or the end of the timeline rules some of them out. -/
theorem mem_goalRepairs (hwf : s.chronicle.WellFormed task.model facts)
    (hfree : task.config.goalOrdering = .free) (hfinal : task.config.finalGoals = false)
    {goal : Nat} {g : GroundRef} (hg : task.model.goals[goal]? = some g) {ds : List Decision}
    (h : task.goalRepairs s goal = .ok ds) :
    (∀ q t, s.chronicle.token q = .ok t → t.timeline = ⟨g.timeline⟩ → t.state = g.state →
      .supportGoal goal q ∈ ds) ∧
    ∀ host position, s.chronicle.timeline ⟨g.timeline⟩ = .ok host →
      s.chronicle.Takes host position →
        ∃ b, s.chronicle.admitsState ⟨g.timeline⟩ g.state position = .ok b ∧
          (b = true → .insertGoal goal position ∈ ds) := by
  obtain ⟨g', host, floor, hg', hhost, hfloor, hmem⟩ := goalRepairs_eq_ok hwf h
  obtain rfl := Option.some.inj (hg.symm.trans hg')
  -- goals in any order leave no floor
  rw [goalFloor, hfree] at hfloor
  obtain rfl := Except.ok.inj hfloor
  -- and goals that need not be final may be served anywhere
  have hany : task.config.finalGoals → False := by
    rw [hfinal]
    exact Bool.noConfusion
  constructor
  · intro q u hu htl hstate
    obtain ⟨host', j, hhost', hj⟩ := hwf.exists_place hu
    obtain rfl := Chronicle.timeline_inj hhost (htl ▸ hhost')
    exact (hmem _).mpr (.inl ⟨q, u, j, hu, htl, hstate, hj, rfl, fun h => (hany h).elim, rfl⟩)
  · intro host' position hhost' htakes
    obtain ⟨b, hb⟩ := Chronicle.exists_admitsState hhost (hwf.exists_of_mem hhost) g.state position
    refine ⟨b, hb, ?_⟩
    rintro rfl
    exact (hmem _).mpr (.inr ⟨position, hb, rfl, fun h => (hany h).elim, rfl⟩)

/-- Each matching resource with enough units is proposed. The other repair, a new resource of the
class, never agrees with a solution and is not needed here. -/
theorem mem_resourceRepairs (hbook : s.reservations.WellFormed task.model) {token : TokenId}
    {i amount : Nat} {target : ObjectRef} {id : ResourceId} {r : Resource}
    (hr : s.reservations.resource? id = some r) (hmatch : r.Matches target)
    (hroom : r.canHold amount) :
    .reserve token i id amount ∈ task.resourceRepairs s token i target amount := by
  refine List.mem_append_left _ (List.mem_map.mpr ⟨id, List.mem_filter.mpr ⟨?_, ?_⟩, rfl⟩)
  swap
  · rw [hr]
    exact hroom
  cases target with
  | named name =>
    obtain ⟨id', hid'⟩ := ReservationBook.find?_isSome hr hmatch
    obtain ⟨r', hr', hname⟩ := ReservationBook.resource_of_find? hid'
    -- a name is looked up as the first resource that has it, and there is only one
    obtain rfl := hbook.name_inj _ _ _ _ hr hr' (Eq.trans hmatch hname.symm)
    exact Option.mem_toList.mpr hid'
  | anyOf className => exact ReservationBook.mem_ofClass.mpr ⟨r, hr, hmatch⟩

/-- The repairs of a condition that a token asks for are those for the condition. -/
theorem conditionRepairs_eq {token : TokenId} {i : Nat} {condition : Condition}
    (hasks : s.chronicle.Asks token i condition) :
    task.conditionRepairs s token i = task.repairsFor s token i condition := by
  obtain ⟨t, host, template, ht, hhost, htemplate, hi⟩ := hasks
  have htemplate? : s.chronicle.template? token = .ok (some template) := by
    rw [← htemplate]
    exact Fault.bind_eq_ok.mpr ⟨t, ht, Fault.bind_eq_ok.mpr ⟨host, hhost, rfl⟩⟩
  rw [conditionRepairs, htemplate?]
  simp only [bind, Except.bind, Option.bind_some, hi]
  cases condition <;> rfl

/-- Both orders of two reservations are proposed. Whether there is room for an order is tested
later, when it is handed out. -/
theorem mem_orders {ids : List ReservationId} {ds : List Decision} (h : orders s ids = .ok ds)
    {a b : ReservationId} (hab : [a, b].Sublist ids) :
    ∃ here, ordersOf s a b = .ok here ∧ ∀ d ∈ here, d ∈ ds := by
  induction ids generalizing ds with
  | nil => exact absurd (List.sublist_nil.mp hab) (by simp)
  | cons id rest ih =>
    obtain ⟨here, hhere, h⟩ := Fault.bind_eq_ok.mp h
    obtain ⟨others, hothers, h⟩ := Fault.bind_eq_ok.mp h
    obtain rfl := Except.ok.inj h
    -- the pair stands among the others, or its first member is the head of the list
    rcases List.sublist_cons_iff.mp hab with hab | ⟨l, heq, hl⟩
    · obtain ⟨found, hfound, hmem⟩ := ih hothers hab
      exact ⟨found, hfound, fun d hd => List.mem_append_right _ (hmem d hd)⟩
    · obtain ⟨rfl, rfl⟩ := List.cons.inj heq
      obtain ⟨found, hmem, hfound⟩ :=
        (Fault.mem_mapM hhere).1 b (List.singleton_sublist.mp hl)
      exact ⟨found, hfound, fun d hd => List.mem_append_left _ (List.mem_flatten.mpr ⟨_, hmem, hd⟩)⟩

end Task

namespace PartialPlan

variable {task : Task} {s : PartialPlan} {p : Plan} {place : TokenId → Nat}
  {date : Timepoint → Int} {id : TimelineId} {host : Timeline} {position k : Nat} {pt : PlanToken}

/-! ### Taken places and gaps -/

/-- A token of the solution is in the partial plan already, or its place falls into a gap. -/
theorem EmbedsIn.taken_or_gap {m : Model} {facts : Nat → Nat} {horizon : Option Int}
    (h : s.EmbedsIn m p place date) (hwf : s.chronicle.WellFormed m facts) (hm : m.WellFormed)
    (hp : p.Solves m horizon) (hhost : s.chronicle.timeline id = .ok host)
    (hpt : p.At host.name k pt) :
    (∃ q t, s.chronicle.token q = .ok t ∧ t.timeline = id ∧ place q = k ∧ pt.Mirrors date t) ∨
      ((∀ q ∈ host.sequence, place q ≠ k) ∧ ∃ position, Gap place host.sequence position k) := by
  by_cases htaken : ∃ q ∈ host.sequence, place q = k
  · -- the token at this place mirrors the plan's token, which is the only one there
    obtain ⟨q, hq, rfl⟩ := htaken
    obtain ⟨t, ht, rfl⟩ := (hwf.sequence id host hhost).2 q hq
    obtain ⟨qt, hqt, hmirrors⟩ := h.token q t host ht hhost
    obtain rfl := hp.at_inj hm hpt hqt
    exact .inl ⟨q, t, ht, rfl, rfl, hmirrors⟩
  · push Not at htaken
    exact .inr ⟨htaken, (h.increasing id host hhost).exists_gap htaken⟩

/-- The search admits a token of the solution in its gap. The state in front of the gap is that of
the solution's token there, and the solution's chain shows that the new state may follow. -/
theorem EmbedsIn.admitsState_of_gap (h : s.EmbedsIn task.model p place date)
    (hs : s.Sound task task.factCount) (hm : task.model.WellFormed) {horizon : Option Int}
    (hp : p.Solves task.model horizon) (hhost : s.chronicle.timeline id = .ok host)
    (hclass : host.className.isSome) (hgap : Gap place host.sequence position k)
    (hpt : p.At host.name k pt) {b : Bool}
    (hb : s.chronicle.admitsState id pt.state position = .ok b) : b = true := by
  obtain ⟨host', hhost', -, hadmitted⟩ := Chronicle.admitsState_eq_ok hb
  obtain rfl := Chronicle.timeline_inj hhost hhost'
  obtain ⟨previous, hprevious, hiff⟩ := hadmitted (h.takes hs hhost hgap)
  exact hiff.mpr (h.canFollow_of_gap hs hm hp hhost hclass hgap hpt hprevious)

/-- A solution has a token for each goal. The verifier has looked for it under the name of the
goal's timeline. -/
theorem exists_token_of_goal {m : Model} {horizon : Option Int} (hp : p.Solves m horizon)
    {g : GroundRef} (hg : g ∈ m.goals) {d : TimelineDef} (hd : m.timelines[g.timeline]? = some d) :
    ∃ k pt, p.At d.name k pt ∧ pt.state = g.state := by
  -- a verified plan has a token for the goal, under the name of its timeline
  have hne := (Plan.violations_eq_nil_iff.mp hp.verified).goals g hg d hd
  obtain ⟨pt, hmem⟩ := List.exists_mem_of_ne_nil _ hne
  unfold Plan.tokensOf at hmem
  split at hmem
  · next e he =>
    have he : p.timelines.find? (fun e => e.name == d.name) = some e := he
    obtain ⟨hmem, hstate⟩ := List.mem_filter.mp hmem
    obtain ⟨k, hk⟩ := List.mem_iff_getElem?.mp hmem
    exact ⟨k, pt, ⟨e, List.mem_of_find?_eq_some he, by simpa using List.find?_some he, hk⟩,
      eq_of_beq hstate⟩
  · exact absurd hmem List.not_mem_nil

/-- **Some repair of an open goal agrees with the solution.** The solution has a token for the goal:
either the partial plan has it too, and it can serve, or its place is a gap, where a new one can be
inserted. -/
theorem EmbedsIn.exists_agrees_goal (h : s.EmbedsIn task.model p place date)
    (hs : s.Sound task task.factCount) (hm : task.model.WellFormed)
    (hp : p.Solves task.model task.config.horizon) (hfree : task.config.goalOrdering = .free)
    (hfinal : task.config.finalGoals = false) {goal : Nat}
    (hgoal : goal < task.model.goals.length) {ds : List Decision}
    (hds : task.goalRepairs s goal = .ok ds) : ∃ d ∈ ds, d.Agrees task p s place date := by
  have hwf := hs.ready.chronicle
  have hg : task.model.goals[goal]? = some task.model.goals[goal] := List.getElem?_eq_getElem hgoal
  obtain ⟨d, hd, hclass⟩ := hm.goals _ (List.getElem_mem hgoal)
  obtain ⟨host, hhost, hname, hclass', -⟩ := hwf.declared _ d hd
  rw [← hclass'] at hclass
  obtain ⟨k, pt, hpt, hstate⟩ := exists_token_of_goal hp (List.getElem_mem hgoal) hd
  rw [← hname] at hpt
  obtain ⟨hexisting, hplaces⟩ := Task.mem_goalRepairs hwf hfree hfinal hg hds
  rcases h.taken_or_gap hwf hm hp hhost hpt with ⟨q, t, ht, htl, -, hmirrors⟩ | ⟨-, position, hgap⟩
  · -- the token is there and serves the goal
    exact ⟨_, hexisting q t ht htl (hmirrors.state.symm.trans hstate), trivial⟩
  · -- its place falls into a gap, where it is admitted
    obtain ⟨b, hb, hmem⟩ := hplaces host position hhost (h.takes hs hhost hgap)
    have hadmitted := h.admitsState_of_gap hs hm hp hhost hclass hgap hpt (hstate ▸ hb)
    exact ⟨_, hmem hadmitted, _, k, pt, hg, host, hhost, hclass, hgap, hpt, hstate⟩

/-! ### Conditions -/

/-- A token lacks support for a condition, and the token of the solution in its place has it. -/
structure Lacks (task : Task) (p : Plan) (s : PartialPlan) (place : TokenId → Nat)
    (date : Timepoint → Int) (q : TokenId) (i : Nat) (condition : Condition) (t : Token)
    (host : Timeline) (pt : PlanToken) (bound : String) : Prop where
  token : s.chronicle.token q = .ok t
  hosted : s.chronicle.timeline t.timeline = .ok host
  unsupported : t.supports[i]? = some none
  asks : s.chronicle.Asks q i condition
  mirrors : pt.Mirrors date t
  planned : ∃ template, host.template? t.state = some template ∧
    p.Planned task.model host.name (place q) pt template ∧
    template.conditions[i]? = some condition
  binding : pt.bindings[i]? = some (.named bound)
  supports : ∃ e ∈ p.timelines, e.name = host.name ∧ e.tokens[place q]? = some pt ∧
    p.Supports task.model e (place q) pt bound condition
  beside : p.SupportsBeside task.model host.name (place q) pt bound condition

variable {q : TokenId} {i : Nat} {t : Token} {bound : String} {ds : List Decision}

/-- What a token asks for in an open slot, the solution supports in its place: there is a token of
the solution, and an object that it binds. -/
theorem EmbedsIn.exists_lacks (h : s.EmbedsIn task.model p place date)
    (hs : s.Sound task task.factCount) (hm : task.model.WellFormed)
    (hp : p.Solves task.model task.config.horizon) (hplain : p.Plain task.model)
    (ht : s.chronicle.token q = .ok t) (hopen : t.supports[i]? = some none) :
    ∃ condition host pt bound, Lacks task p s place date q i condition t host pt bound := by
  have hwf := hs.ready.chronicle
  have horigin := origin_of_supports hs ht hopen
  obtain ⟨host, hhost, -⟩ := hwf.placed q t ht
  obtain ⟨template, htemplate, hlength⟩ := hwf.planned q t host ht hhost horigin
  obtain ⟨pt, template', htemplate', hplanned, hmirrors⟩ := h.exists_planned hs hm ht horigin hhost
  obtain rfl := Option.some.inj (htemplate.symm.trans htemplate')
  -- a token has as many places for supports as its state has conditions
  have hlt : i < template.conditions.length := by
    rw [← hlength]
    exact (List.getElem?_eq_some_iff.mp hopen).1
  have hi : template.conditions[i]? = some template.conditions[i] := List.getElem?_eq_getElem hlt
  obtain ⟨e, he, hname, hk, bound, hbinding, hsupports⟩ := hp.exists_binding hplanned hi
  exact ⟨_, host, pt, bound, ht, hhost, hopen, ⟨t, host, template, ht, hhost, htemplate, hi⟩,
    hmirrors, ⟨template, htemplate, hplanned, hi⟩, hbinding, ⟨e, he, hname, hk, hsupports⟩,
    hplain.beside _ _ _ _ hplanned i _ _ hi hbinding⟩

/-- Units of the resource that the solution binds can be reserved. The resource is one that the
reference means and that has room for the amount, so that it is among those listed. -/
theorem EmbedsIn.exists_agrees_uses (hs : s.Sound task task.factCount) (hm : task.model.WellFormed)
    (hp : p.Solves task.model task.config.horizon) {target : ObjectRef} {amount : Nat}
    (hlacks : Lacks task p s place date q i (.uses target amount) t host pt bound) :
    ∃ d ∈ task.resourceRepairs s q i target amount, d.Agrees task p s place date := by
  obtain ⟨template, -, ⟨hpt, -, d, hd, htemplate⟩, hi⟩ := hlacks.planned
  -- what the solution binds is declared, and found in the book under the same number
  have huse := Plan.mem_resourceUses hd hpt htemplate hi hlacks.binding
  obtain ⟨n, hn⟩ := Option.isSome_iff_exists.mp (hp.declared _ huse)
  obtain ⟨r, hr, rfl⟩ := hm.resourceIndex?_eq.mp hn
  have hr' := hs.book.declared n r hr
  have htemplate' := hm.resourceTemplate?_eq hr
  refine ⟨_, Task.mem_resourceRepairs hs.book hr' ?_ ?_,
    t, host, pt, _, hlacks.token, hlacks.hosted, hpt, hr', hlacks.binding⟩
  · obtain ⟨_, _, _, _, hmeans⟩ := hlacks.supports
    cases target with
    | named name => exact hmeans
    | anyOf className =>
      obtain ⟨r', hr', hclass⟩ := hmeans
      obtain rfl := Option.some.inj (htemplate'.symm.trans hr')
      exact hclass
  · cases hcapacity : r.capacity with
    | none => rfl
    | some capacity =>
      -- the solution takes no more units than there are
      have hle : amount ≤ capacity := hlacks.beside r capacity htemplate' hcapacity
      simpa [Resource.canHold] using hle

/-- A token that lacks a predecessor is not locked: it has no other condition on the predecessor. -/
theorem Lacks.unlocked {state : String}
    (h : Lacks task p s place date q i (.follows state) t host pt bound)
    (hs : s.Sound task task.factCount) (hplain : p.Plain task.model) : t.locked = false := by
  by_contra hlocked
  rw [Bool.not_eq_false] at hlocked
  have ht := h.token
  -- a locked token has a condition on its predecessor that is supported
  obtain ⟨i', state', r, hasks', u, hu, hslot⟩ :=
    hs.locked q t ht (origin_of_supports hs ht h.unsupported) hlocked
  obtain rfl := Chronicle.token_inj ht hu
  obtain ⟨template, htemplate, hplanned, hi⟩ := h.planned
  obtain ⟨t', host', template', ht', hhost', htemplate', hi'⟩ := hasks'
  obtain rfl := Chronicle.token_inj ht ht'
  obtain rfl := Chronicle.timeline_inj h.hosted hhost'
  obtain rfl := Option.some.inj (htemplate.symm.trans htemplate')
  -- a plain solution has one such condition at most, and so it is the one that is open
  obtain rfl := hplain.once _ _ _ _ hplanned i i' _ _ hi hi'
  exact absurd (h.unsupported.symm.trans hslot) (by simp)

/-- The predecessor can be the one that the solution has. If the partial plan has that token, it is
the one directly before and can be joined, unless a lock stands in the way, which `Plain` rules out;
otherwise a new one is inserted. -/
theorem EmbedsIn.exists_agrees_follows (h : s.EmbedsIn task.model p place date)
    (hs : s.Sound task task.factCount) (hm : task.model.WellFormed)
    (hp : p.Solves task.model task.config.horizon) (hplain : p.Plain task.model) {state : String}
    (hlacks : Lacks task p s place date q i (.follows state) t host pt bound)
    (hds : Task.predecessorRepairs s q i state = .ok ds) :
    ∃ d ∈ ds, d.Agrees task p s place date := by
  have hwf := hs.ready.chronicle
  have ht := hlacks.token
  have hhost := hlacks.hosted
  have hincreasing := h.increasing _ _ hhost
  obtain ⟨template, htemplate, -⟩ := hlacks.planned
  obtain ⟨e, he, hname, -, -, j, u, hplace, hu, rfl, hstop⟩ := hlacks.supports
  have hat : p.At host.name j u := ⟨e, he, hname, hu⟩
  obtain ⟨t', p?, n?, ht', hpredecessor, hposition, -, hadmits, hmem⟩ :=
    Task.predecessorRepairs_eq_ok hds
  obtain rfl := Chronicle.token_inj ht ht'
  obtain ⟨t', host', n, ht', hhost', hn, rfl⟩ := hwf.position?_eq_ok hposition
  obtain rfl := Chronicle.token_inj ht ht'
  obtain rfl := Chronicle.timeline_inj hhost hhost'
  -- the place before the token's own is that of another token, or nobody's yet
  rcases h.taken_or_gap hwf hm hp hhost hat with ⟨r, v, hv, htl, rfl, hmirrors⟩ | ⟨hfree, -⟩
  · -- the token in the place before is the predecessor
    obtain ⟨host', hhost', hr⟩ := hwf.placed r v hv
    rw [htl] at hhost'
    obtain rfl := Chronicle.timeline_inj hhost hhost'
    obtain ⟨l, hl⟩ := List.mem_iff_getElem?.mp hr
    obtain rfl := hincreasing.eq_succ hl hn hplace
    obtain ⟨t', host', n', ht', hhost', hn', rfl⟩ := hwf.predecessor?_eq_ok hpredecessor
    obtain rfl := Chronicle.token_inj ht ht'
    obtain rfl := Chronicle.timeline_inj hhost hhost'
    obtain rfl := Chronicle.place_unique (hwf.sequence _ _ hhost).1 hn hn'
    have hbefore : Chronicle.before? host.sequence (l + 1) = some r := hl
    refine ⟨_, (hmem _).mpr (.inl ⟨r, v, hbefore, hv, hmirrors.state.symm,
      hlacks.unlocked hs hplain, rfl⟩), t, v, ht, hv, ?_,
      fun _ => ⟨by rw [hpredecessor, hbefore], hplace⟩⟩
    show date v.stop = date t.start
    rw [← hmirrors.stop, ← hlacks.mirrors.start]
    exact hstop
  · -- the place before falls into the gap in front of the token
    have hgap := hincreasing.gap_before hn hplace hfree
    have hclass := h.isSome_className hs hm hhost htemplate
    obtain ⟨b, hb⟩ := hadmits n rfl
    have hadmitted := h.admitsState_of_gap hs hm hp hhost hclass hgap hat hb
    refine ⟨_, (hmem _).mpr (.inr ⟨n, rfl, hadmitted ▸ hb, rfl⟩), t, j, u, ht,
      ⟨host, hhost, hclass, hgap, hat, rfl⟩, ?_, fun _ => hplace⟩
    exact hstop.trans hlacks.mirrors.start

/-- The timeline that a solution binds is one that the condition means. A solution binds declared
objects only, so that the timeline of this name is there from the beginning. -/
theorem exists_host_of_bound {facts : Nat → Nat} (hwf : s.chronicle.WellFormed task.model facts)
    (hm : task.model.WellFormed) {horizon : Option Int} (hp : p.Solves task.model horizon)
    {target : ObjectRef} (hmeans : task.model.MeansTimeline bound target) {j : Nat} {u : PlanToken}
    (hu : p.At bound j u) : ∃ id host d, task.model.timelineTemplate? bound = some d ∧
      s.chronicle.timeline id = .ok host ∧ host.name = bound ∧ host.states = d.states ∧
        host.Matches target := by
  obtain ⟨e, he, rfl, -⟩ := hu
  -- a solution has entries for the declared timelines only
  obtain ⟨d, hmem, hentry⟩ :=
    List.mem_map.mp (hp.entries.mem_iff.mp (List.mem_map_of_mem (f := (·.name)) he))
  obtain ⟨n, hd⟩ := List.mem_iff_getElem?.mp hmem
  obtain ⟨host, hhost, hname, hclass, hstates, -⟩ := hwf.declared n d hd
  have htemplate : task.model.timelineTemplate? e.name = some d := by
    rw [← hentry]
    exact hm.timelineTemplate?_eq hd
  refine ⟨_, host, d, htemplate, hhost, hname.trans hentry, hstates, ?_⟩
  -- a name means one timeline, a class any of those that have it
  cases target with
  | named name => exact (hname.trans hentry).trans hmeans
  | anyOf className =>
    obtain ⟨d', hd', hclass'⟩ := hmeans
    obtain rfl := Option.some.inj (htemplate.symm.trans hd')
    exact hclass.trans hclass'

/-- The supplier can be the one that the solution has. As with a goal, the supplying token of the
solution is present already or its place is a gap; that it is another token than the consumer is a
hypothesis. -/
theorem EmbedsIn.exists_agrees_supplier (h : s.EmbedsIn task.model p place date)
    (hs : s.Sound task task.factCount) (hm : task.model.WellFormed)
    (hp : p.Solves task.model task.config.horizon) (ht : s.chronicle.token q = .ok t)
    (hhost : s.chronicle.timeline t.timeline = .ok host) {target : ObjectRef}
    (hmeans : task.model.MeansTimeline bound target) {j : Nat} {u : PlanToken}
    (hu : p.At bound j u) (hbeside : bound = host.name → j ≠ place q)
    (hknows : task.model.Knows bound j u.state) {relation : Relation} (hne : relation ≠ .adjacent)
    (hrelates : relation.Relates date t u)
    (hds : task.supplierRepairs s q i target u.state relation = .ok ds) :
    ∃ d ∈ ds, d.Agrees task p s place date := by
  have hwf := hs.ready.chronicle
  obtain ⟨id, host', d, hd, hhost', hname, hstates, hmatch⟩ :=
    exists_host_of_bound hwf hm hp hmeans hu
  obtain ⟨created, -, hinsertions, hmem⟩ := Task.supplierRepairs_eq_ok hwf hds
  rw [← hname] at hu
  rcases h.taken_or_gap hwf hm hp hhost' hu with ⟨r, v, hv, htl, rfl, hmirrors⟩ |
    ⟨hfree, position, hgap⟩
  · -- the supplier is there; it is not the token itself
    have hother : r ≠ q := by
      rintro rfl
      obtain rfl := Chronicle.token_inj ht hv
      rw [htl] at hhost
      obtain rfl := Chronicle.timeline_inj hhost hhost'
      exact hbeside hname.symm rfl
    refine ⟨_, (hmem _).mpr (.inl ⟨r, v, host', hv, hmirrors.state.symm, by rw [htl]; exact hhost',
      hmatch, hother, rfl⟩), t, v, ht, hv, hrelates.holds hmirrors, fun hadjacent => ?_⟩
    exact absurd hadjacent hne
  · -- its place falls into a gap, and so it is no fact but of a state that is declared
    have htemplate : ∃ template, host'.template? u.state = some template := by
      rcases hknows with hlt | ⟨d', hd', hknown⟩
      · -- facts are in their places
        rw [← hname, factPrefix_eq hm hs hhost'] at hlt
        have hlength := hwf.facts_le _ host' hhost'
        have hj : host'.sequence[j]? = some host'.sequence[j] := List.getElem?_eq_getElem (by omega)
        exact absurd (h.facts _ host' j _ hhost' hlt hj) (hfree _ (List.mem_of_getElem? hj))
      · obtain rfl := Option.some.inj (hd.symm.trans hd')
        rw [TimelineDef.template?, ← hstates] at hknown
        exact Option.isSome_iff_exists.mp hknown
    obtain ⟨template, htemplate⟩ := htemplate
    have hclass := h.isSome_className hs hm hhost' htemplate
    obtain ⟨inserted, hinserted⟩ := hinsertions _ host' hhost' hmatch
    obtain ⟨host'', hhost'', hadmits, hmemInserted⟩ := Task.insertions_eq_ok hinserted
    obtain rfl := Chronicle.timeline_inj hhost' hhost''
    have hsome : (host'.template? u.state).isSome := by rw [htemplate]; rfl
    obtain ⟨b, hb⟩ := hadmits hsome position (h.takes hs hhost' hgap)
    have hadmitted := h.admitsState_of_gap hs hm hp hhost' hclass hgap hu hb
    refine ⟨_, (hmem _).mpr (.inr (.inl ⟨_, host', inserted, hhost', hmatch, hinserted,
      (hmemInserted _).mpr ⟨hsome, position, hadmitted ▸ hb, rfl⟩⟩)), t, j, u, ht,
      ⟨host', hhost', hclass, hgap, hu, rfl⟩, hrelates, fun hadjacent => ?_⟩
    exact absurd hadjacent hne

/-- **Some repair of an open condition agrees with the solution.** The three kinds of conditions are
the three lemmas above; what they need of the solution is gathered in `Lacks`. -/
theorem EmbedsIn.exists_agrees_condition (h : s.EmbedsIn task.model p place date)
    (hs : s.Sound task task.factCount) (hm : task.model.WellFormed)
    (hp : p.Solves task.model task.config.horizon) (hplain : p.Plain task.model)
    (ht : s.chronicle.token q = .ok t) (hopen : t.supports[i]? = some none)
    (hds : task.conditionRepairs s q i = .ok ds) : ∃ d ∈ ds, d.Agrees task p s place date := by
  obtain ⟨condition, host, pt, bound, hlacks⟩ := h.exists_lacks hs hm hp hplain ht hopen
  rw [Task.conditionRepairs_eq hlacks.asks] at hds
  obtain ⟨_, _, _, _, hsupports⟩ := hlacks.supports
  have hbeside := hlacks.beside
  have hstart := hlacks.mirrors.start
  have hstop := hlacks.mirrors.stop
  -- what the solution binds in this place is what the repair proposes
  cases condition with
  | uses target amount =>
    obtain rfl := Except.ok.inj hds
    exact exists_agrees_uses hs hm hp hlacks
  | follows state => exact h.exists_agrees_follows hs hm hp hplain hlacks hds
  | metBy target state =>
    obtain ⟨j, u, hu, hother, hknows, rfl, hmeets⟩ := hbeside
    have hrelates : Relation.metBy.Relates date t u := hmeets.trans hstart
    exact h.exists_agrees_supplier hs hm hp ht hlacks.hosted hsupports.1 hu hother hknows (by simp)
      hrelates hds
  -- the token of the solution covers the one that asks, under the dates of both
  | during target state =>
    obtain ⟨j, u, hu, hother, hknows, rfl, hcovers⟩ := hbeside
    have hrelates : Relation.during.Relates date t u :=
      ⟨hcovers.1.trans hstart.le, hstop.ge.trans hcovers.2⟩
    exact h.exists_agrees_supplier hs hm hp ht hlacks.hosted hsupports.1 hu hother hknows (by simp)
      hrelates hds

/-! ### Conflicts -/

/-- **Some order of the reservations of a conflict agrees with the solution.** Of the members of a
conflict some two are disjoint in the solution, one before the other, and that order is among the
repairs. -/
theorem EmbedsIn.exists_agrees_conflict (h : s.EmbedsIn task.model p place date)
    (hs : s.Sound task task.factCount) (hm : task.model.WellFormed)
    (hp : p.Solves task.model task.config.horizon) (hplain : p.Plain task.model)
    (hpairs : p.PairsFit task.model) {c : Conflict} {cs : List Conflict} (hc : c ∈ cs)
    (hcs : s.reservations.conflicts s.network (task.schedule s) = .ok cs)
    (hds : Task.orders s c.members = .ok ds) : ∃ d ∈ ds, d.Agrees task p s place date := by
  obtain ⟨date', hdate', -, hschedule⟩ := task.exists_fits_schedule hs.ready.steady
  rw [hschedule] at hcs
  obtain ⟨r, capacity, es, hr, hcapacity, hcompetes, hmembers, -, hkind⟩ :=
    ReservationBook.competes_of_mem_conflicts hdate' hcs hc
  -- the solution has room for all of them, so that some two are not active together
  obtain ⟨e, f, hef, hordered⟩ := (h.fitting hs hm hp).exists_ordered hr hcapacity
    (fun e he f hf => h.pair_le hs hm hp hpairs hr hcapacity he hf) hcompetes
    (hkind.imp_right fun hlasts e he hstop => h.spared hs hm hp hplain hr hcapacity
      (hcompetes.sublist.subset he) hstop hdate' (hlasts e he))
  have hpair : [e.1, f.1].Sublist c.members := by
    rw [hmembers]
    exact hef.map (·.1)
  obtain ⟨here, hhere, hmem⟩ := Task.mem_orders hds hpair
  have hall : ∀ g ∈ [e, f], s.reservations.reservation? g.1 = some g.2 := fun g hg =>
    hcompetes.reservation? g (hef.subset hg)
  have he := hall e (by simp)
  have hf := hall f (by simp)
  rw [Task.ordersOf, he, hf] at hhere
  obtain ⟨answer, hanswer, hhere⟩ := Fault.bind_eq_ok.mp hhere
  -- both orders of the two are proposed, as they were found able to overlap
  have hoverlap := List.pairwise_iff_forall_sublist.mp hcompetes.canOverlap hef answer hanswer
  rw [hoverlap] at hhere
  obtain rfl := Except.ok.inj hhere
  -- the repairs of the pair are its two orders, one of which the solution has
  rcases hordered with hle | hle
  · exact ⟨.order e.1 f.1, hmem _ (by simp), e.2, f.2, he, hf, hle⟩
  · exact ⟨.order f.1 e.1, hmem _ (by simp), f.2, e.2, hf, he, hle⟩

/-- **Whatever flaw is repaired, some repair agrees with the solution.** This is the step of the
completeness proof: a repair that agrees is never lost, and applying it leads to a larger part of
the same solution. -/
theorem EmbedsIn.exists_agrees (h : s.EmbedsIn task.model p place date)
    (hs : s.Sound task task.factCount) (hm : task.model.WellFormed)
    (hp : p.Solves task.model task.config.horizon) (hplain : p.Plain task.model)
    (hpairs : p.PairsFit task.model) (hfree : task.config.goalOrdering = .free)
    (hfinal : task.config.finalGoals = false) {flaw : Flaw}
    (hflaw : task.nextFlaw s = .ok (some flaw)) (hds : task.repairs s flaw = .ok ds) :
    ∃ d ∈ ds, d.Agrees task p s place date := by
  rcases Task.nextFlaw_eq_some hflaw with ⟨goal, rfl, hgoal⟩ | ⟨q, i, t, rfl, ht, hopen⟩ |
    ⟨c, cs, rfl, hc, hcs⟩
  · exact h.exists_agrees_goal hs hm hp hfree hfinal hgoal hds
  · exact h.exists_agrees_condition hs hm hp hplain ht hopen hds
  · exact h.exists_agrees_conflict hs hm hp hplain hpairs hc hcs hds

end PartialPlan

end TemporalPlanning
