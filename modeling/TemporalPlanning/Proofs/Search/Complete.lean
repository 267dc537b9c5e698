import TemporalPlanning.Proofs.Search.Guidance

/-!
# The search is complete

If the search ends exhausted then there is no solution of the kind that it looks for
(`Problem.not_solves_of_exhausted`). The first partial plan is part of every solution. From there
on, as long as the search looks for repairs, some frame was made in a partial plan that is part of
the solution and has a repair left that agrees with it: the frame cannot be given up before that
repair was tried, and when it is tried the search is within the solution again.

Solutions of other kinds are passed over. For each condition that is put on a solution there is a
small problem for which the search ends exhausted, although a solution is at hand that meets all
conditions but this one (`exists_solution_of_exhausted`).
-/

namespace TemporalPlanning

/-- Of a forbidden edit there is nothing to show, so that an edit may be assumed to be allowed. -/
theorem Edit.Leads.of_allowed {α : Type} {e : Edit α} {s : PartialPlan}
    {Q : α → PartialPlan → Prop} (h : e.Allowed s → e.Leads s Q) : e.Leads s Q :=
  ⟨fun why s' hs => (h (.of_stuck hs)).1 why s' hs, fun a s' hs => (h (.of_done hs)).2 a s' hs⟩

/-! ### The first partial plan -/

namespace PartialPlan

variable {task : Task} {facts : Nat → Nat} {s : PartialPlan} {p : Plan} {place : TokenId → Nat}
  {date : Timepoint → Int} {i : Nat} {host : Timeline}

/-- On a timeline of facts only, the tokens have the first places of the solution. -/
theorem EmbedsIn.place_of_facts (h : s.EmbedsIn task.model p place date) {id : TimelineId}
    (hhost : s.chronicle.timeline id = .ok host) (hfacts : host.facts = host.sequence.length)
    {j : Nat} {q : TokenId} (hq : host.sequence[j]? = some q) : j < host.facts ∧ place q = j := by
  have hlt : j < host.facts := by
    rw [hfacts]
    exact (List.getElem?_eq_some_iff.mp hq).1
  exact ⟨hlt, h.facts id host j q hhost hlt hq⟩

/-- The place after the facts is a gap at the end of their timeline. -/
theorem EmbedsIn.gap_of_facts (h : s.EmbedsIn task.model p place date) {id : TimelineId}
    (hhost : s.chronicle.timeline id = .ok host) (hfacts : host.facts = host.sequence.length) :
    Gap place host.sequence host.sequence.length host.facts := by
  refine ⟨Nat.le_refl _, fun j q hq _ => ?_, fun j q hq hle => ?_⟩
  · have := h.place_of_facts hhost hfacts hq
    omega
  · exact absurd (List.getElem?_eq_some_iff.mp hq).1 (by omega)

/-- With the dates of the solution, the next fact follows on the facts before it. The solution
places the facts of a timeline at its front, each starting where the one before it stops, just as
the search does. -/
theorem EmbedsIn.followsOn_fact (h : s.EmbedsIn task.model p place date)
    (hs : s.Sound task facts) (hm : task.model.WellFormed)
    (hp : p.Solves task.model task.config.horizon)
    (hhost : s.chronicle.timeline ⟨i⟩ = .ok host) (hfacts : host.facts = host.sequence.length)
    {pt : PlanToken} (hpt : p.At host.name host.facts pt) (hfirst : host.facts = 0 → pt.start = 0)
    (hchain : ∀ j u, host.facts = j + 1 → p.At host.name j u → u.stop = pt.start) :
    (Token.given ⟨i⟩ pt.state s.chronicle.tokens.size host.tail?.isSome).FollowsOn
      s.chronicle host task.config.horizon (datesWith date s.chronicle.tokens.size pt) := by
  have hwf := hs.ready.chronicle
  obtain ⟨hstart, hstop⟩ := h.holds_window hp.within hpt
  refine ⟨hstart, hstop, h.contains_duration hm hp hwf hhost hpt, fun hnone => ?_,
    fun q u hq hu => ?_⟩
  · -- the first fact begins at the origin
    have hempty : host.sequence = [] := List.getLast?_eq_none_iff.mp hnone
    have horigin : datesWith date s.chronicle.tokens.size pt .origin = 0 :=
      (datesWith_of_lt (t := .origin) (Nat.succ_pos _)).trans h.origin
    rw [horigin]
    exact datesWith_start.trans (hfirst (by rw [hfacts, hempty, List.length_nil]))
  · -- each further one begins when the one before it ends
    rw [Timeline.tail?, List.getLast?_eq_getElem?] at hq
    obtain ⟨hlt, hplace⟩ := h.place_of_facts hhost hfacts hq
    obtain ⟨qt, hqt, -, hdate⟩ := h.exists_neighbour hwf hhost pt (List.mem_of_getElem? hq) hu
    rw [hdate]
    exact (hchain (place q) qt (by omega) hqt).trans datesWith_start.symm

/-- The next fact of a timeline has the next place of the solution, which the solution has to keep
for it. -/
theorem EmbedsIn.addFact_leads (h : s.EmbedsIn task.model p place date)
    (hs : s.Sound task facts) (hm : task.model.WellFormed)
    (hp : p.Solves task.model task.config.horizon)
    (hsize : s.network.size + 1 < Network.sizeLimit) {f : GroundRef}
    (hf : (task.model.factsOn i)[facts i]? = some f) :
    (Edit.addFact ⟨i⟩ f.state).Leads s fun fact s' =>
      Edit.addFact ⟨i⟩ f.state s = .done fact s' ∧
        ∃ place' date', s'.EmbedsIn task.model p place' date' := by
  refine .of_allowed fun hallowed => ?_
  have hwf := hs.ready.chronicle
  -- adding a fact is forbidden after planned tokens
  obtain ⟨host, previous, hhost, hfacts, -⟩ := Edit.Allowed.addFact hallowed
  obtain ⟨d, hd, hname, -, -, hcount⟩ := h.exists_declared hwf hhost
  obtain ⟨pt, hpt, hstate, hfirst, hchain⟩ := hp.exists_fact hm hd hf
  rw [← hname, ← hcount] at hpt
  rw [← hname] at hchain
  -- the first fact starts at 0, each later one where the one before it stops
  have hfit := h.followsOn_fact hs hm hp hhost hfacts hpt (fun hzero => hfirst (hcount ▸ hzero))
    fun j u hj => hchain j u (hcount ▸ hj)
  rw [hstate] at hfit
  have hdate := fits_datesWith pt hs.ready h.fits
  refine (Edit.addFact_leads hs.ready hm hsize hhost hdate hfit).mono fun fact s' hdone => ?_
  obtain ⟨host', added, -, hfits⟩ := Edit.addFact_eq_done hs.ready hm hsize hdone
  obtain rfl := Chronicle.timeline_inj hhost added.timeline_eq
  refine ⟨hdone, _, _, h.enter
    (t := .given ⟨i⟩ f.state s.chronicle.tokens.size host.tail?.isSome) hwf hs.served ⟨rfl, rfl⟩
    (fun n support hn => ?_) hhost (h.gap_of_facts hhost hfacts) (fun q u hq => ?_) hpt hstate
    (fun _ => ⟨hfacts.symm, rfl⟩) added.book_eq added.chronicle_eq
    ((hfits _).mpr ⟨hdate, hfit⟩)⟩
  · simp [Token.given] at hn
  · exact absurd (List.getElem?_eq_some_iff.mp hq).1 (lt_irrefl _)

/-- The facts are placed in turn as in the solution. No fact can be refused on the way, because the
dates of the solution satisfy every constraint that is posted for it. -/
theorem EmbedsIn.placeEach_leads {given rest : List GroundRef}
    (h : s.EmbedsIn task.model p place date)
    (hs : s.Sound task (Model.countOn given)) (hm : task.model.WellFormed)
    (hp : p.Solves task.model task.config.horizon)
    (hgiven : task.model.factsInTurn = given ++ rest)
    (hsize : 2 * (s.chronicle.tokens.size + rest.length) < Network.sizeLimit) :
    (Task.placeEach rest).Leads s fun _ s' =>
      ∃ place' date', s'.EmbedsIn task.model p place' date' := by
  -- along the facts that are still to come; places and dates grow with each of them
  induction rest generalizing s given place date with
  | nil => exact .pure ⟨place, date, h⟩
  | cons f rest ih =>
    rw [List.length_cons] at hsize
    have hsize' : s.network.size + 1 < Network.sizeLimit := by
      rw [hs.ready.size_eq]
      omega
    have hf : f ∈ task.model.facts := hm.perm_factsInTurn.mem_iff.mp (by rw [hgiven]; simp)
    -- the fact at hand is the next one of its timeline, as the solution has it
    refine (h.addFact_leads hs hm hp hsize' (hm.getElem?_factsOn hgiven)).bind ?_
    rintro fact s₁ ⟨hdone, place', date', h₁⟩
    obtain ⟨hs₁, hcount⟩ := hs.addFact hm hsize' hf hdone
    rw [← Model.countOn_concat] at hs₁
    exact ih h₁ hs₁ (by rw [hgiven, List.append_assoc]; rfl) (by omega)

end PartialPlan

namespace Task

variable {task : Task} {s : PartialPlan} {p : Plan} {clock : Clock}

/-- The declared objects alone are part of every solution: there is no token that needs a place. It
is the base of the invariant that carries completeness, and all the clauses about tokens hold for
want of tokens. -/
theorem Declared.embedsIn (h : task.Declared s) :
    s.EmbedsIn task.model p (fun _ => 0) fun _ => 0 where
  fits := by
    rw [h.network]
    exact ((Network.Represents.origin _).fits_iff _).mpr (by simp)
  origin := rfl
  timelines := by simp [h.timelines]
  resources := by simp [h.resources]
  unsealed := fun id host hhost => by
    obtain ⟨d, -, rfl⟩ := h.timeline_iff.mp hhost
    rfl
  -- there is no token yet, so that nothing has to be mirrored
  token := fun q t host ht => absurd ht h.token_ne
  increasing := fun id host hhost i j q r _ hq => by
    obtain ⟨d, -, rfl⟩ := h.timeline_iff.mp hhost
    simp [Timeline.declared] at hq
  facts := fun id host j q hhost hj => by
    obtain ⟨d, -, rfl⟩ := h.timeline_iff.mp hhost
    exact absurd hj (Nat.not_lt_zero j)
  adjacent := fun q i state r ⟨t, _, _, ht, _⟩ => absurd ht h.token_ne
  bound := fun q i resource reservation t host _ ht => absurd ht h.token_ne

/-- Declaring resources cannot get stuck, as it posts no constraint. -/
theorem unstuck_declareResources (ds : List ResourceDef) : (declareResources ds).Unstuck s := by
  induction ds generalizing s with
  | nil => exact Edit.unstuck_pure
  | cons d ds ih => exact .bind Edit.unstuck_onBook fun _ _ _ => ih

theorem unstuck_declareTimelines (ds : List TimelineDef) : (declareTimelines ds).Unstuck s := by
  induction ds generalizing s with
  | nil => exact Edit.unstuck_pure
  | cons d ds ih => exact .bind Edit.unstuck_onChronicle fun _ _ _ => ih

/-- **The first partial plan is part of every solution**; facts without solution apart, setting it
up does not get stuck. -/
theorem setUp_leads (hm : task.model.WellFormed) (hrange : task.InRange)
    (hp : p.Solves task.model task.config.horizon) :
    task.setUp.Leads (.empty task.config.horizon task.model.goals.length) fun _ s =>
      ∃ place date, s.EmbedsIn task.model p place date := by
  refine (unstuck_declareResources _).leads.bind fun _ s₁ h₁ => ?_
  refine (unstuck_declareTimelines _).leads.bind fun _ s₂ h₂ => ?_
  have hdeclared := declared_of_done h₁ h₂
  -- objects are declared without tokens
  have hempty : s₂.chronicle.tokens.size = 0 := by
    rw [hdeclared.tokens]
    rfl
  have htokens := hrange.tokens
  have hlength := hm.perm_factsInTurn.length_eq
  -- from the declared objects on the facts are placed one by one
  have hsound : s₂.Sound task (Model.countOn []) := hdeclared.sound hm hrange.horizon
  rw [placeAllFacts_eq]
  exact hdeclared.embedsIn.placeEach_leads hsound hm hp rfl
    (by rw [show (List.range _).flatMap _ = task.model.factsInTurn from rfl]; omega)

/-! ### The invariant -/

/-- A frame was made in a partial plan that is part of a solution, and has a repair left that agrees
with it. -/
def Promising (task : Task) (p : Plan) (s : PartialPlan) (frame : Frame) : Prop :=
  ∃ place date, s.EmbedsIn task.model p place date ∧
    ∃ d ∈ frame.candidates.remaining, d.Agrees task p s place date

/-- A promising frame has a next repair, which agrees with the solution or leaves the frame
promising, with the agreeing repair among those that remain. -/
theorem Promising.next {frame : Frame} (h : task.Promising p s frame)
    (hs : s.Sound task task.factCount) {d? : Option Decision} {cs : Candidates}
    (hnext : frame.candidates.next s = .ok (d?, cs)) :
    ∃ d, d? = some d ∧ (task.Promising p s { frame with candidates := cs } ∨
      ∃ place date, s.EmbedsIn task.model p place date ∧ d.Agrees task p s place date) := by
  obtain ⟨place, date, hembeds, d, hd, hagrees⟩ := h
  obtain ⟨skipped, hskipped, hremaining, hnone, -⟩ := Candidates.next_eq_ok hnext
  -- what was skipped has no room, but the repair that agrees with the solution has
  have hadmitted : d ∉ skipped := fun hmem => hembeds.admits_ne hs hagrees (hskipped d hmem)
  rw [hremaining, List.append_assoc] at hd
  have hrest := (List.mem_append.mp hd).resolve_left hadmitted
  cases d? with
  -- a list without an admitted candidate cannot hold the one that agrees
  | none =>
    rw [hnone rfl] at hrest
    exact absurd hrest (by simp)
  | some next =>
    refine ⟨next, rfl, ?_⟩
    rcases List.mem_cons.mp hrest with rfl | hrest
    · exact .inr ⟨place, date, hembeds, hagrees⟩
    · exact .inl ⟨place, date, hembeds, d, hrest, hagrees⟩

/-- The next repair of a promising frame leads on within the solution, unless the frame stays
promising without it. -/
theorem Promising.next_leads {frame : Frame} (h : task.Promising p s frame)
    (hs : s.Sound task task.factCount) (hm : task.model.WellFormed)
    (hp : p.Solves task.model task.config.horizon) (hfinal : task.config.finalGoals = false)
    (hsize : s.network.size + 1 < Network.sizeLimit) {d : Decision} {cs : Candidates}
    (hnext : frame.candidates.next s = .ok (some d, cs)) (hsuits : d.Suits task s) :
    task.Promising p s { frame with candidates := cs } ∨
      (task.apply d).Leads s fun _ s' => ∃ place date, s'.EmbedsIn task.model p place date := by
  obtain ⟨_, ⟨⟩, hrest | ⟨place, date, hembeds, hagrees⟩⟩ := h.next hs hnext
  · exact .inl hrest
  · exact .inr (hembeds.apply_leads hs hm hp hfinal hsize hsuits hagrees)

/-- As long as the search looks for repairs, some frame is promising. A promising frame was made at
a partial plan that some solution contains, and the repair that agrees with the solution is still
among its candidates; so the search cannot run out of them. -/
theorem invariant_promising (hm : task.model.WellFormed) (hrange : task.InRange)
    (hp : p.Solves task.model task.config.horizon) (hplain : p.Plain task.model)
    (hpairs : p.PairsFit task.model) (hfree : task.config.goalOrdering = .free)
    (hfinal : task.config.finalGoals = false) (root : List String) : task.Invariant root
      (fun n s stack => Traced (task.Proposed n) s stack ∧ Somewhere (task.Promising p) s stack)
      (fun n s stack => (∃ k, k + n ≤ task.config.maxDecisions ∧ task.Path k s) ∧
        Traced (task.Proposed n) s stack ∧
        ((∃ place date, s.EmbedsIn task.model p place date) ∨
          Somewhere (task.Promising p) s stack))
      (fun answer => ∀ flaws, answer ≠ .ok (.error (.exhausted flaws))) := by
  have hproposed := @invariant_proposed task root
  refine ⟨by simp, by simp, fun n s h => h.2.elim, ?_, ?_, ?_, by simp, ?_⟩
  · rintro n s frame outer s₁ cs ⟨htraced, hsomewhere⟩ hundo hnext
    -- a promising frame has a next repair, so that the promising one is further out
    refine ⟨hproposed.giveUp n s frame outer s₁ cs htraced hundo hnext, ?_⟩
    refine (hsomewhere.undo hundo).resolve_left fun hpromising => ?_
    have hviable := (htraced.undo hundo).1.viable hm hrange
    obtain ⟨d, hd, -⟩ := hpromising.next hviable.sound hnext
    exact absurd hd (by simp)
  · rintro n s frame outer s₁ d cs why s₂ ⟨htraced, hsomewhere⟩ hundo hnext happly
    refine ⟨hproposed.stuck n s frame outer s₁ d cs why s₂ htraced hundo hnext happly, ?_⟩
    refine Somewhere.cons ?_ (PartialPlan.mark_of_undoTo hundo)
      (task.reversible_apply d s₁ s₂ (.inr ⟨why, happly⟩))
    obtain ⟨hframe, -⟩ := htraced.undo hundo
    have hviable := hframe.viable hm hrange
    refine (hsomewhere.undo hundo).imp_left fun hpromising => ?_
    -- what agrees with the solution does not get stuck
    exact (hpromising.next_leads hviable.sound hm hp hfinal (hviable.size_lt hrange) hnext
      (hframe.suits hm hnext)).resolve_right fun hleads => hleads.1 why s₂ happly
  · rintro n s frame outer s₁ d cs s₂ ⟨htraced, hsomewhere⟩ hundo hnext happly
    obtain ⟨hpath, htraced'⟩ :=
      hproposed.done n s frame outer s₁ d cs s₂ htraced hundo hnext happly
    refine ⟨hpath, htraced', ?_⟩
    obtain ⟨hframe, -⟩ := htraced.undo hundo
    have hviable := hframe.viable hm hrange
    have hcons (h : task.Promising p s₁ { frame with candidates := cs } ∨
          Somewhere (task.Promising p) s₁ outer) :
        Somewhere (task.Promising p) s₂ ({ frame with candidates := cs } :: outer) :=
      Somewhere.cons h (PartialPlan.mark_of_undoTo hundo)
        (task.reversible_apply d s₁ s₂ (.inl ⟨(), happly⟩))
    rcases hsomewhere.undo hundo with hpromising | houter
    · rcases hpromising.next_leads hviable.sound hm hp hfinal (hviable.size_lt hrange) hnext
        (hframe.suits hm hnext) with hrest | hleads
      · exact .inr (hcons (.inl hrest))
      · -- the promising frame is used up, but the search is within the solution again
        exact .inl (hleads.2 () s₂ happly)
    · exact .inr (hcons (.inr houter))
  · rintro n s stack flaw cs ⟨⟨k, hle, hpath⟩, htraced, hopen⟩ hflaw hcs
    have hviable := hpath.viable hm hrange hle
    -- within the solution, some repair of the flaw is the solution's
    refine ⟨hproposed.flaw n s stack flaw cs ⟨⟨k, hle, hpath⟩, htraced⟩ hflaw hcs, ?_⟩
    refine Somewhere.cons (hopen.imp_left ?_) rfl (.refl s)
    rintro ⟨place, date, hembeds⟩
    obtain ⟨ds, hds, rfl⟩ := Fault.map_eq_ok.mp hcs
    exact ⟨place, date, hembeds,
      hembeds.exists_agrees hviable.sound hm hp hplain hpairs hfree hfinal hflaw hds⟩

/-- A search does not end exhausted if there is a solution. -/
theorem run_ne_exhausted (hm : task.model.WellFormed) (hrange : task.InRange)
    (hp : p.Solves task.model task.config.horizon) (hplain : p.Plain task.model)
    (hpairs : p.PairsFit task.model) (hfree : task.config.goalOrdering = .free)
    (hfinal : task.config.finalGoals = false) (flaws : List String) :
    task.run clock ≠ .ok (.error (.exhausted flaws)) := by
  have hleads := setUp_leads hm hrange hp
  exact Invariant.good_run (invariant_promising hm hrange hp hplain hpairs hfree hfinal)
    (fun s hs => ⟨⟨0, (Nat.zero_add _).le, .start hs⟩, trivial, .inl (hleads.2 () s hs)⟩)
    (fun why s hs => absurd hs (hleads.1 why s)) flaws

end Task

/-- **An exhausted search proves that there is no solution**, as far as the search takes solutions
into account: no state repeats a condition on its predecessor, no token asks for more units than
there are, supports itself or is supported by what its timeline does not declare, and what takes
units for an instant, though its state may last longer, is spared by what is in use across it.

Solutions are left out in which an instant and one other usage around it exceed a capacity together:
there the search answers by a test for overlaps that is wrong for instants, and nothing is said of
what it ought to answer. -/
theorem Problem.not_solves_of_exhausted {problem : Problem} {config : Config} {clock : Clock}
    {m : Model} {flaws : List String} (hload : Model.load problem = .ok m)
    (hfree : config.goalOrdering = .free) (hfinal : config.finalGoals = false)
    (hhorizon : ∀ h, config.horizon = some h → 0 ≤ h ∧ h ≤ 2 ^ 60)
    (hsize : problem.facts.length + config.maxDecisions < 2 ^ 19)
    (hsolve : problem.solve config clock = .ok (.error (.exhausted flaws))) :
    ¬ ∃ p : Plan, p.Solves m config.horizon ∧ p.Plain m ∧ p.PairsFit m := by
  rintro ⟨p, hp, hplain, hpairs⟩
  obtain ⟨hm, hrange, hrun⟩ := problem.run_of_solve hload hhorizon hsize
  exact Task.run_ne_exhausted hm hrange hp hplain hpairs hfree hfinal flaws (hrun.symm.trans hsolve)

/-- The flaws that a search ended with, exhausted. -/
def flawsOf : Except Fault Answer → Option (List String)
  | .ok (.error (.exhausted flaws)) => some flaws
  | _ => none

/-- Flaws are read off an answer if the search says that it is exhausted. -/
theorem flawsOf_eq_some {answer : Except Fault Answer} {flaws : List String} :
    flawsOf answer = some flaws ↔ answer = .ok (.error (.exhausted flaws)) := by
  unfold flawsOf
  split <;> simp_all

/-- A door opens after it was shut. -/
def door : Problem where
  timelines := [{ className := "Door", name := some "door", states := [
    { name := "Open", conditions := [.follows "Shut"] }, { name := "Shut" }] }]
  facts := [⟨"door", "Shut"⟩]
  goals := [⟨"door", "Open"⟩]

/-- There is no time for the door to be shut and open. The horizon is one instant too short, so that
the search fails and the theorem above turns its answer into a proof. -/
theorem not_solves_door :
    ∃ m, Model.load door = .ok m ∧
      ¬ ∃ p : Plan, p.Solves m (some 1) ∧ p.Plain m ∧ p.PairsFit m := by
  have hload : (Model.load door).toOption.isSome = true := by decide +kernel
  have hsolve : door.solve { maxDecisions := 100, horizon := some 1 } .stopped =
      .ok (.error (.exhausted ["goal door.Open"])) := flawsOf_eq_some.mp (by decide +kernel)
  cases hm : Model.load door with
  | error errors =>
    -- this does not happen, as the problem can be loaded
    rw [hm] at hload
    exact absurd hload (by simp [Except.toOption])
  | ok m =>
    -- the search is exhausted, and the completeness theorem turns that into the absence of a plan
    refine ⟨m, rfl, door.not_solves_of_exhausted hm rfl rfl ?_ (by decide) hsolve⟩
    rintro h ⟨⟩
    decide

/-! ### Solutions that are passed over -/

/-- A search without any restriction but a horizon ends exhausted, and yet there is a solution. -/
def Problem.PassesOver (problem : Problem) (horizon : Option Int) (plan : Plan) : Prop :=
  ∃ (config : Config) (m : Model) (flaws : List String), config.deadline = none ∧
    config.goalOrdering = .free ∧ config.finalGoals = false ∧ config.horizon = horizon ∧
    problem.facts.length + config.maxDecisions < 2 ^ 19 ∧ Model.load problem = .ok m ∧
    problem.solve config .stopped = .ok (.error (.exhausted flaws)) ∧ plan.Solves m config.horizon

/-- Whether a plan is a solution of a problem that can be loaded. -/
def Plan.solves (p : Plan) (problem : Problem) (horizon : Option Int) : Bool :=
  match Model.load problem with
  | .ok m => decide (p.Solves m horizon)
  | .error _ => false

/-- A hundred decisions are enough to see it for problems that have only a few facts. -/
theorem Problem.passesOver_of_solves {problem : Problem} {horizon : Option Int} {plan : Plan}
    (flaws : List String) (hfacts : problem.facts.length < 10)
    (hsolves : plan.solves problem horizon = true)
    (hflaws : flawsOf (problem.solve { maxDecisions := 100, horizon := horizon } .stopped) =
      some flaws) : problem.PassesOver horizon plan := by
  unfold Plan.solves at hsolves
  split at hsolves
  · next m hload =>
    refine ⟨{ maxDecisions := 100, horizon := horizon }, m, flaws, rfl, rfl, rfl, rfl, ?_, hload,
      flawsOf_eq_some.mp hflaws, of_decide_eq_true hsolves⟩
    -- the tokens of the facts and of a hundred decisions are within the range
    show problem.facts.length + 100 < 2 ^ 19
    omega
  · exact absurd hsolves Bool.false_ne_true

/-- A lamp goes on after it was off, and the declaration says so twice. -/
def lamp : Problem where
  timelines := [{ className := "Lamp", name := some "lamp", states := [
    { name := "On", conditions := [.follows "Off", .follows "Off"] }, { name := "Off" }] }]
  facts := [⟨"lamp", "Off"⟩]
  goals := [⟨"lamp", "On"⟩]

def lampPlan : Plan :=
  ⟨[⟨"lamp", [⟨"Off", 0, 1, []⟩, ⟨"On", 1, 2, [.named "lamp", .named "lamp"]⟩]⟩]⟩

/-- A flash takes no time and more units than there are. -/
def flash : Problem where
  resources := [{ className := "Battery", name := some "battery", capacity := some 1 }]
  timelines := [{ className := "Camera", name := some "camera", states := [
    { name := "Flash", duration := .exactly 0, conditions := [.uses (.named "battery") 2] }] }]
  goals := [⟨"camera", "Flash"⟩]

def flashPlan : Plan := ⟨[⟨"camera", [⟨"Flash", 0, 0, [.named "battery"]⟩]⟩]⟩

/-- The sun begins to sink when a flash ends. The flash may last, and the search takes it to begin
as early as it can; but a lamp takes all units from the beginning to the end. -/
def noon : Problem where
  resources := [{ className := "Battery", name := some "battery", capacity := some 2 }]
  timelines := [
    { className := "Camera", name := some "camera", states := [
      { name := "Flash", duration := .atLeast 0, conditions := [.uses (.named "battery") 1] }] },
    { className := "Lamp", name := some "lamp", states := [
      { name := "Shine", duration := .exactly 2,
        conditions := [.uses (.named "battery") 1, .uses (.named "battery") 1] }] },
    { className := "Sun", name := some "sun", states := [
      { name := "Rising", duration := .exactly 1 },
      { name := "Sinking", conditions := [.follows "Rising", .metBy (.named "camera") "Flash"] }] }]
  facts := [⟨"sun", "Rising"⟩]
  goals := [⟨"lamp", "Shine"⟩, ⟨"sun", "Sinking"⟩]

def noonPlan : Plan := ⟨[
  ⟨"camera", [⟨"Flash", 1, 1, [.named "battery"]⟩]⟩,
  ⟨"lamp", [⟨"Shine", 0, 2, [.named "battery", .named "battery"]⟩]⟩,
  ⟨"sun", [⟨"Rising", 0, 1, []⟩, ⟨"Sinking", 1, 2, [.named "sun", .named "camera"]⟩]⟩]⟩

/-- A flash that takes no time comes while a lamp shines, on one battery. -/
def glare : Problem where
  resources := [{ className := "Battery", name := some "battery", capacity := some 1 }]
  timelines := [
    { className := "Camera", name := some "camera", states := [
      { name := "Warm", duration := .exactly 2 },
      { name := "Flash", duration := .exactly 0,
        conditions := [.follows "Warm", .uses (.named "battery") 1] }] },
    { className := "Lamp", name := some "lamp", states := [
      { name := "Shine", duration := .exactly 3, conditions := [.uses (.named "battery") 1] }] }]
  facts := [⟨"camera", "Warm"⟩]
  goals := [⟨"camera", "Flash"⟩, ⟨"lamp", "Shine"⟩]

def glarePlan : Plan := ⟨[
  ⟨"camera", [⟨"Warm", 0, 2, []⟩, ⟨"Flash", 2, 2, [.named "camera", .named "battery"]⟩]⟩,
  ⟨"lamp", [⟨"Shine", 0, 3, [.named "battery"]⟩]⟩]⟩

/-- A fire burns while it burns. -/
def fire : Problem where
  timelines := [{ className := "Fire", name := some "fire", states := [
    { name := "Burning", conditions := [.during (.named "fire") "Burning"] }] }]
  goals := [⟨"fire", "Burning"⟩]

def firePlan : Plan := ⟨[⟨"fire", [⟨"Burning", 0, 1, [.named "fire"]⟩]⟩]⟩

/-- A field gets wet when the sun has gone and it rains; of the weather the facts alone are
known. -/
def field : Problem where
  timelines := [{ className := "Field", name := some "field", states := [
    { name := "Wet",
      conditions := [.metBy (.named "sky") "Sun", .during (.named "sky") "Rain"] }] }]
  facts := [⟨"sky", "Rain"⟩, ⟨"sky", "Sun"⟩]
  goals := [⟨"field", "Wet"⟩]

def fieldPlan : Plan := ⟨[
  ⟨"field", [⟨"Wet", 2, 3, [.named "sky", .named "sky"]⟩]⟩,
  ⟨"sky", [⟨"Rain", 0, 1, []⟩, ⟨"Sun", 1, 2, []⟩, ⟨"Rain", 2, 3, []⟩]⟩]⟩

/-- **A search may end exhausted although there is a solution:** one with two conditions on the same
predecessor, with an instant that takes more units than there are, with one that might have lasted
and exceeds a capacity with what is in use across it, with one that exceeds it with a single usage
around it, with a token that supports itself, or with a state that its timeline does not declare.
So none of the conditions on a solution can be left out. -/
theorem exists_solution_of_exhausted :
    lamp.PassesOver none lampPlan ∧ flash.PassesOver none flashPlan ∧
      noon.PassesOver (some 2) noonPlan ∧ glare.PassesOver (some 3) glarePlan ∧
      fire.PassesOver none firePlan ∧ field.PassesOver none fieldPlan := by
  refine ⟨lamp.passesOver_of_solves ["goal lamp.On"] (by decide) ?_ ?_,
    flash.passesOver_of_solves ["goal camera.Flash"] (by decide) ?_ ?_,
    noon.passesOver_of_solves ["goal lamp.Shine", "goal sun.Sinking"] (by decide) ?_ ?_,
    glare.passesOver_of_solves ["goal camera.Flash", "goal lamp.Shine"] (by decide) ?_ ?_,
    fire.passesOver_of_solves ["goal fire.Burning"] (by decide) ?_ ?_,
    field.passesOver_of_solves ["goal field.Wet"] (by decide) ?_ ?_⟩
  all_goals decide +kernel

end TemporalPlanning
