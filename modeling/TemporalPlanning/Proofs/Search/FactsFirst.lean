import TemporalPlanning.Proofs.Plan.Solution
import TemporalPlanning.Proofs.Search.Bookkeeping
import TemporalPlanning.Proofs.Search.Entailment
import TemporalPlanning.Proofs.Search.Goals
import TemporalPlanning.Proofs.Search.Reading

/-!
# Facts in front

The facts of a problem come through planning as they were given (`Problem.facts_first_of_solve`). In
a plan the timelines of the model come first, in their order, and the entry of each one begins with
its facts: unbound, from 0 on, and each when the one before it ends.

The search cannot do otherwise, since what it plans stands behind the facts
(`Task.Reachable.factsFirst`) and what it posts leaves them chained (`Task.Reachable.sound`). So any
solution of the network dates the facts alike, and it does not matter which one is read off
(`Task.factsFirst_of_reads`).
-/

namespace TemporalPlanning

/-- A plan begins with the facts: the entries of the declared timelines come first, in order, each
with its facts in front, and all further entries are of timelines that were created for a class. -/
structure Plan.FactsFirst (m : Model) (p : Plan) : Prop where
  names : ∃ created : List String,
    p.timelines.map (·.name) = m.timelines.map (·.name) ++ created ∧
    ∀ name ∈ created, m.hasObject name = false ∧
      ∃ (className : String) (n : Nat), (m.firstTimeline? className).isSome ∧
        name = s!"{className}_{n}"
  facts : ∀ (i : Nat) d, m.timelines[i]? = some d → ∃ e, p.timelines[i]? = some e ∧
    e.name = d.name ∧ e.BeginsWith (m.factsOn i) ∧
      ∀ t ∈ e.tokens.take (m.factsOn i).length, t.bindings = []

/-- In a partial plan the declared timelines come first, and on each timeline the given facts; all
further timelines were created, and all further tokens are planned. -/
structure PartialPlan.FactsFirst (m : Model) (s : PartialPlan) : Prop where
  synthesized : ∀ id host, s.chronicle.timeline id = .ok host →
    (host.synthesized ↔ m.timelines.length ≤ id.index)
  facts : ∀ id host, s.chronicle.timeline id = .ok host →
    List.Forall₂ s.chronicle.HoldsFact (host.sequence.take (m.factsOn id.index).length)
      (m.factsOn id.index)
  planned : ∀ id host, s.chronicle.timeline id = .ok host →
    ∀ token ∈ host.sequence.drop (m.factsOn id.index).length,
      ∃ t, s.chronicle.token token = .ok t ∧ t.origin = .planned

namespace Task

variable {task : Task} {s : PartialPlan}

/-! ### Partial plans -/

/-- The timelines that were created are those behind the declared ones. The declared ones are
entered while the search is set up and never change their numbers. -/
theorem Reachable.synthesized_iff (h : task.Reachable s) (hm : task.model.WellFormed)
    {id : TimelineId} {host : Timeline} (hhost : s.chronicle.timeline id = .ok host) :
    host.synthesized ↔ task.model.timelines.length ≤ id.index := by
  obtain ⟨s₀, hs₀, honward⟩ := h.exists_onward
  have hunfolds := honward.unfolds (.start hs₀) hm
  have hdeclared := (unserved_of_start hm hs₀).2
  constructor
  · -- a declared timeline was there from the start
    intro hsynthesized
    by_contra hlt
    obtain ⟨host₀, hhost₀, -⟩ := (tidy_of_start hm hs₀).chronicle.declared id.index _
      (List.getElem?_eq_getElem (Nat.lt_of_not_le hlt))
    obtain ⟨host', hhost', hunfold⟩ := hunfolds.timeline id host₀ hhost₀
    obtain rfl := Chronicle.timeline_inj hhost hhost'
    rw [hunfold.synthesized, (hdeclared id host₀ hhost₀).2.2] at hsynthesized
    exact Bool.false_ne_true hsynthesized
  · -- a timeline behind the declared ones was not there at the start
    intro hle
    rcases hunfolds.created id host hhost with ⟨host₀, hhost₀⟩ | hsynthesized
    · exact absurd (hdeclared id host₀ hhost₀).1 (Nat.not_lt_of_le hle)
    · exact hsynthesized

/-- **In reachable partial plans the facts are in front**, and what is behind them is planned. -/
theorem Reachable.factsFirst (h : task.Reachable s) (hm : task.model.WellFormed) :
    s.FactsFirst task.model where
  synthesized := fun id host hhost => h.synthesized_iff hm hhost
  facts := by
    intro id host hhost
    rw [← (h.tidy hm).length_facts hm hhost]
    exact (h.booked hm).facts id host hhost
  planned := by
    intro id host hhost token htoken
    rw [← (h.tidy hm).length_facts hm hhost] at htoken
    exact (h.tidy hm).planned_of_mem_drop hhost htoken

/-! ### Plans -/

/-- The entries are named after the timelines, declared ones first. A created name is a class with a
number, and no object of the problem has it, so that the two groups cannot be confused. -/
theorem exists_names_of_reads (hwf : s.chronicle.WellFormed task.model task.factCount)
    {date : Timepoint → Int} {p : Plan} (hreads : List.Forall₂ (PlanTimeline.Reads s date)
      s.chronicle.timelines.toList p.timelines) :
    ∃ created : List String,
      p.timelines.map (·.name) = task.model.timelines.map (·.name) ++ created ∧
      ∀ name ∈ created, task.model.hasObject name = false ∧
        ∃ (className : String) (n : Nat), (task.model.firstTimeline? className).isSome ∧
          name = s!"{className}_{n}" := by
  have hnames : p.timelines.map (·.name) = s.chronicle.timelines.toList.map (·.name) := by
    refine ((congrFun₂ List.forall₂_eq_eq_eq _ _).mp ?_).symm
    rw [List.forall₂_map_left_iff, List.forall₂_map_right_iff]
    exact hreads.imp fun host e he => he.name.symm
  -- the declared timelines come first, in the order of the model
  have hdeclared : (s.chronicle.timelines.toList.take task.model.timelines.length).map (·.name) =
      task.model.timelines.map (·.name) := by
    refine List.ext_getElem? fun i => ?_
    rw [List.getElem?_map, List.getElem?_map, List.getElem?_take]
    split
    · next hlt =>
      have hd := List.getElem?_eq_getElem hlt
      obtain ⟨host, hhost, hname, -⟩ := hwf.declared i _ hd
      rw [Chronicle.timeline_eq_ok_iff_toList.mp hhost, hd, Option.map_some, Option.map_some, hname]
    · next hge =>
      rw [List.getElem?_eq_none (Nat.le_of_not_lt hge)]
      rfl
  -- what comes after the declared timelines was created, under a name of its own
  refine ⟨(s.chronicle.timelines.toList.drop task.model.timelines.length).map (·.name), ?_, ?_⟩
  · rw [hnames, ← hdeclared, ← List.map_append, List.take_append_drop]
  · intro name hname
    obtain ⟨host, hhost, rfl⟩ := List.mem_map.mp hname
    obtain ⟨k, hk⟩ := List.mem_iff_getElem?.mp hhost
    -- its place is behind the declared timelines
    rw [List.getElem?_drop] at hk
    obtain ⟨-, hnew, className, n, d, hname, -, hd, -⟩ :=
      hwf.created ⟨_⟩ host (Chronicle.timeline_eq_ok_iff_toList.mpr hk) (Nat.le_add_right _ k)
    exact ⟨hnew, className, n, by rw [hd]; rfl, hname⟩

section Entries

variable {date : Timepoint → Int} {id : TimelineId} {host : Timeline} {e : PlanTimeline}

/-- A place of a given fact holds a fact of its state, both in the sequence and in the entry. -/
theorem exists_fact_of_reads (hfirst : s.FactsFirst task.model)
    (hhost : s.chronicle.timeline id = .ok host) (hreads : e.Reads s date host) {k : Nat}
    (hk : k < (task.model.factsOn id.index).length) :
    ∃ token t q f, host.sequence[k]? = some token ∧ t.origin = .fact ∧ t.state = f.state ∧
      (task.model.factsOn id.index)[k]? = some f ∧ e.tokens[k]? = some q ∧
      q.Reads s date token t := by
  -- the first tokens of the timeline are its facts, in their order
  have hgiven := hfirst.facts id host hhost
  have hk' : k < (host.sequence.take (task.model.factsOn id.index).length).length := by
    rw [hgiven.length_eq]
    exact hk
  obtain ⟨t, ht, horigin, hstate⟩ := hgiven.get hk' hk
  have htoken := List.getElem?_eq_getElem hk'
  rw [List.getElem?_take_of_lt hk] at htoken
  obtain ⟨q, t', hq, hread⟩ := hreads.exists_planToken htoken
  obtain rfl := Chronicle.token_inj ht hread.token
  exact ⟨_, t, q, _, htoken, horigin, hstate, List.getElem?_eq_getElem hk, hq, hread⟩

/-- The entry of a timeline begins with its facts, since the dates chain them. The first fact starts
at the origin, which has the date 0, and each further one where the fact before it stops. -/
theorem beginsWith_of_reads (hfirst : s.FactsFirst task.model) (horigin : date .origin = 0)
    (hchained : s.chronicle.FactsChained date) (hhost : s.chronicle.timeline id = .ok host)
    (hfacts : host.facts = (task.model.factsOn id.index).length) (hreads : e.Reads s date host) :
    e.BeginsWith (task.model.factsOn id.index) := by
  intro k f hf
  have hk := (List.getElem?_eq_some_iff.mp hf).1
  obtain ⟨token, t, q, f', htoken, -, hstate, hf', hq, hread⟩ :=
    exists_fact_of_reads hfirst hhost hreads hk
  obtain rfl := Option.some.inj (hf.symm.trans hf')
  refine ⟨q, hq, hread.state.trans hstate, ?_, ?_⟩
  · -- the first fact starts at the origin
    rintro rfl
    have hstart := (hchained.first id host token t hhost (by omega) htoken hread.token).2
    calc q.start = date t.start := hread.start
      _ = date .origin := hstart
      _ = 0 := horigin
  · -- any other starts where the one before it stops
    rintro j u hu rfl
    obtain ⟨token', t', htoken', hread'⟩ := hreads.exists_token hu
    have hmeets := hchained.next id host j token' token t' t hhost (by omega) htoken' htoken
      hread'.token hread.token
    calc u.stop = date t'.stop := hread'.stop
      _ = date t.start := hmeets
      _ = q.start := hread.start.symm

/-- The facts of an entry have no bindings. A binding is read off a slot, and facts have no slots.
-/
theorem bindings_eq_nil_of_reads (hwf : s.chronicle.WellFormed task.model task.factCount)
    (hfirst : s.FactsFirst task.model) (hhost : s.chronicle.timeline id = .ok host)
    (hreads : e.Reads s date host) :
    ∀ q ∈ e.tokens.take (task.model.factsOn id.index).length, q.bindings = [] := by
  intro q hq
  obtain ⟨k, hk⟩ := List.mem_iff_getElem?.mp hq
  rw [List.getElem?_take] at hk
  split at hk
  · next hlt =>
    obtain ⟨token, t, q', _, -, horigin, -, -, hq', hread⟩ :=
      exists_fact_of_reads hfirst hhost hreads hlt
    obtain rfl := Option.some.inj (hk.symm.trans hq')
    -- facts have no conditions to be bound
    obtain ⟨host', hhost', -⟩ := hwf.placed token t hread.token
    have hnone := (hwf.fact token t host' hread.token hhost' horigin).1
    exact List.length_eq_zero_iff.mp (by rw [hread.length, hnone]; rfl)
  · exact absurd hk (Option.some_ne_none q).symm

end Entries

/-- **A plan that is read off with dates that chain the facts begins with the facts.** -/
theorem factsFirst_of_reads (h : s.Tidy task.model task.factCount) (hm : task.model.WellFormed)
    (hfirst : s.FactsFirst task.model) {date : Timepoint → Int} (horigin : date .origin = 0)
    (hchained : s.chronicle.FactsChained date) {p : Plan}
    (hreads : List.Forall₂ (PlanTimeline.Reads s date) s.chronicle.timelines.toList p.timelines) :
    p.FactsFirst task.model where
  names := exists_names_of_reads h.chronicle hreads
  facts := by
    intro i d hd
    obtain ⟨host, hhost, hname, -⟩ := h.chronicle.declared i d hd
    obtain ⟨e, he, hread⟩ := Chronicle.exists_getElem?_of_forall₂ hreads hhost
    exact ⟨e, he, hread.name.trans hname,
      beginsWith_of_reads hfirst horigin hchained hhost (h.length_facts hm hhost) hread,
      bindings_eq_nil_of_reads h.chronicle hfirst hhost hread⟩

end Task

/-- **The facts survive unchanged**: each plan begins with them. It was read off a reachable partial
plan in which the facts are in front, those of the model and no others. -/
theorem Problem.facts_first_of_solve {problem : Problem} {config : Config} {clock : Clock}
    {m : Model} {p : Plan} (hload : Model.load problem = .ok m)
    (hhorizon : ∀ h, config.horizon = some h → 0 ≤ h ∧ h ≤ 2 ^ 60)
    (hsize : problem.facts.length + config.maxDecisions < 2 ^ 19)
    (hsolve : problem.solve config clock = .ok (.ok p)) :
    p.FactsFirst m ∧ ∃ s, Task.Reachable ⟨m, config⟩ s ∧ Task.nextFlaw ⟨m, config⟩ s = .ok none ∧
      Task.extract ⟨m, config⟩ s = .ok p ∧ s.FactsFirst m := by
  obtain ⟨hm, hrange, hrun⟩ := Problem.run_of_solve hload hhorizon hsize
  rw [hrun] at hsolve
  obtain ⟨k, s, hk, hpath, hflaw, hp⟩ := Task.exists_path hsolve
  have hs := hpath.reachable
  -- so few decisions keep the network within its limit
  have hviable := hpath.viable (n := 0) hm hrange hk
  obtain ⟨hsound, hchained⟩ := hs.sound hm hrange.horizon (hviable.size_le hrange)
  obtain ⟨-, hclosed, -⟩ := Task.of_nextFlaw_eq_none hflaw
  -- the plan is read off under one solution of the network
  obtain ⟨date, hdate, horigin, -, hreads⟩ :=
    Task.exists_reads_of_extract hsound.ready.steady hclosed hp
  have hfirst := hs.factsFirst hm
  exact ⟨Task.factsFirst_of_reads (hs.tidy hm) hm hfirst horigin (hchained date hdate) hreads,
    s, hs, hflaw, hp, hfirst⟩

/-- The plan of the lantern begins with both facts. -/
theorem facts_first_lantern : ∃ m, Model.load lantern = .ok m ∧
    lantern.facts.length + 20 < 2 ^ 19 ∧
    lantern.solve { maxDecisions := 20 } .stopped = .ok (.ok lanternPlan) ∧
    lanternPlan.FactsFirst m ∧ ∃ s, Task.Reachable ⟨m, { maxDecisions := 20 }⟩ s ∧
      Task.extract ⟨m, { maxDecisions := 20 }⟩ s = .ok lanternPlan ∧ s.FactsFirst m := by
  obtain ⟨m, hload⟩ := exists_load_lantern
  obtain ⟨hplan, s, hs, -, hp, hfirst⟩ :=
    Problem.facts_first_of_solve hload (by simp) (by decide) solve_lantern
  exact ⟨m, hload, by decide, solve_lantern, hplan, s, hs, hp, hfirst⟩

end TemporalPlanning
