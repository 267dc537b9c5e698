import TemporalPlanning.Proofs.Plan.Support
import TemporalPlanning.Proofs.Search.Decisions
import TemporalPlanning.Proofs.Search.Reachable

/-!
# Solved partial plans

When a search ends with a plan, the plan was read off a sound partial plan without flaws
(`Task.exists_solved`). On a path of the search each decision uses up one token at most, so that as
long as the budget lasts the network stays within its limit and the partial plan sound
(`Task.Path.viable`).
-/

namespace TemporalPlanning

namespace Task

variable {task : Task} {clock : Clock}

/-- The number of facts of each declared timeline. -/
def factCount (task : Task) (i : Nat) : Nat := (task.model.factsOn i).length

/-- The numbers of a search are within the range in which it is exact. -/
structure InRange (task : Task) : Prop where
  horizon : ∀ k, task.config.horizon = some k → 0 ≤ k ∧ k ≤ Network.horizonLimit
  tokens : 2 * (task.model.facts.length + task.config.maxDecisions) < Network.sizeLimit

/-- A sound partial plan, from which `n` more decisions can be carried out. -/
structure Viable (task : Task) (n : Nat) (s : PartialPlan) : Prop where
  sound : s.Sound task task.factCount
  tokens_le : s.chronicle.tokens.size + n ≤ task.model.facts.length + task.config.maxDecisions

/-- A partial plan that is viable with more decisions to come is viable with fewer. -/
theorem Viable.mono {n n' : Nat} {s : PartialPlan} (h : task.Viable n s) (hle : n' ≤ n) :
    task.Viable n' s :=
  ⟨h.sound, (Nat.add_le_add_left hle _).trans h.tokens_le⟩

/-- With a decision left there is room for one more token. -/
theorem Viable.size_lt (hrange : task.InRange) {n : Nat} {s : PartialPlan}
    (h : task.Viable (n + 1) s) : s.network.size + 1 < Network.sizeLimit := by
  have hsize := h.sound.ready.size_eq
  have hle := h.tokens_le
  have hlimit := hrange.tokens
  omega

/-- The network is within its limit. -/
theorem Viable.size_le (hrange : task.InRange) {n : Nat} {s : PartialPlan} (h : task.Viable n s) :
    s.network.size ≤ Network.sizeLimit := by
  have hsize := h.sound.ready.size_eq
  have hle := h.tokens_le
  have hlimit := hrange.tokens
  omega

/-- Carrying out a repair uses up one decision. -/
theorem Viable.apply (hm : task.model.WellFormed) (hrange : task.InRange) {n : Nat}
    {s s' : PartialPlan} (h : task.Viable (n + 1) s) {d : Decision} (hd : d.Suits task s) {u : Unit}
    (hs : task.apply d s = .done u s') : task.Viable n s' := by
  have hsize := h.sound.ready.size_eq
  have hle := h.tokens_le
  obtain ⟨hsound, hgrown⟩ := h.sound.apply hm (h.size_lt hrange) hd hs
  have hsize' := hsound.ready.size_eq
  exact ⟨hsound, by omega⟩

/-- The partial plan with which a search starts is viable. -/
theorem viable_of_start (hm : task.model.WellFormed) (hrange : task.InRange) {u : Unit}
    {s : PartialPlan} (hs : task.start = .done u s) : task.Viable task.config.maxDecisions s := by
  have hlimit := hrange.tokens
  obtain ⟨hsound, hle⟩ := sound_of_start hm hrange.horizon (by omega) hs
  exact ⟨hsound, by omega⟩

/-- **While the budget lasts, a path leads through viable partial plans.** -/
theorem Path.viable {k n : Nat} {s : PartialPlan} (h : task.Path k s) (hm : task.model.WellFormed)
    (hrange : task.InRange) (hle : k + n ≤ task.config.maxDecisions) : task.Viable n s := by
  induction h generalizing n with
  | start hs => exact (viable_of_start hm hrange hs).mono (by omega)
  | apply _ _ hds hd _ hs ih =>
    have hviable : task.Viable (n + 1) _ := ih (by omega)
    exact hviable.apply hm hrange (suits_of_mem_repairs hviable.sound.ready.chronicle hds _ hd) hs

/-- Frames are made in viable partial plans. -/
theorem Proposed.viable {n : Nat} {s : PartialPlan} {frame : Frame} (h : task.Proposed n s frame)
    (hm : task.model.WellFormed) (hrange : task.InRange) : task.Viable n s := by
  obtain ⟨k, hle, hpath⟩ := h.path
  exact hpath.viable hm hrange hle

/-- The next repair of a frame suits the partial plan in which the frame was made. -/
theorem Proposed.suits {n : Nat} {s s₁ : PartialPlan} {frame : Frame} (h : task.Proposed n s frame)
    (hm : task.model.WellFormed) {d : Decision} {cs : Candidates}
    (hnext : frame.candidates.next s₁ = .ok (some d, cs)) : d.Suits task s := by
  obtain ⟨k, -, hpath⟩ := h.path
  obtain ⟨ds, hds, hmem⟩ := h.remaining
  have hd := ((Candidates.next_mem hnext).2 d rfl).1
  exact suits_of_mem_repairs (hpath.reachable.tidy hm).chronicle hds d (hmem d hd)

/-- **A plan is read off a sound partial plan without flaws.** -/
theorem exists_solved (hm : task.model.WellFormed) (hrange : task.InRange) {p : Plan}
    (h : task.run clock = .ok (.ok p)) : ∃ s, s.Sound task task.factCount ∧
      task.nextFlaw s = .ok none ∧ task.extract s = .ok p := by
  obtain ⟨k, s, hk, hpath, hflaw, hp⟩ := exists_path h
  exact ⟨s, (hpath.viable (n := 0) hm hrange hk).sound, hflaw, hp⟩

end Task

/-- The facts of a timeline are those that a plan has in front. The plan has no marks on its tokens,
so that facts can only be told by their number. -/
theorem factPrefix_eq {task : Task} {s : PartialPlan} (hm : task.model.WellFormed)
    (h : s.Sound task task.factCount) {id : TimelineId} {host : Timeline}
    (hhost : s.chronicle.timeline id = .ok host) :
    task.model.factPrefix host.name = host.facts := by
  have hwf := h.ready.chronicle
  unfold Model.factPrefix
  by_cases hlt : id.index < task.model.timelines.length
  · have hd : task.model.timelines[id.index]? = some task.model.timelines[id.index] :=
      List.getElem?_eq_getElem hlt
    obtain ⟨host', hhost', hname, -, -, hfacts⟩ := hwf.declared _ _ hd
    obtain rfl := Chronicle.timeline_inj hhost hhost'
    rw [hm.timelineIndex?_eq.mpr ⟨_, hd, hname.symm⟩]
    exact hfacts.symm
  · -- a created timeline has no facts, and its name is none of the model's
    have hcreated := hwf.created id host hhost (by omega)
    rw [Model.timelineIndex?_of_not_hasObject hcreated.new, hcreated.facts_eq]

/-- Solving a problem that can be loaded is running the search, within its range. The bounds on the
problem and the configuration become the bounds that the search needs on timepoints. -/
theorem Problem.run_of_solve {problem : Problem} {config : Config} {clock : Clock} {m : Model}
    (hload : Model.load problem = .ok m)
    (hhorizon : ∀ h, config.horizon = some h → 0 ≤ h ∧ h ≤ 2 ^ 60)
    (hsize : problem.facts.length + config.maxDecisions < 2 ^ 19) :
    m.WellFormed ∧ Task.InRange ⟨m, config⟩ ∧
      problem.solve config clock = Task.run ⟨m, config⟩ clock := by
  obtain ⟨hm, hfacts⟩ := Model.wellFormed_of_load hload
  refine ⟨hm, ⟨hhorizon, ?_⟩, ?_⟩
  · simp only [Network.sizeLimit]
    omega
  · rw [Problem.solve, hload]

/-! ### A problem -/

/-- The plan that a search ended with. -/
def planOf : Except Fault Answer → Option Plan
  | .ok (.ok p) => some p
  | _ => none

theorem planOf_eq_some {answer : Except Fault Answer} {p : Plan} :
    planOf answer = some p ↔ answer = .ok (.ok p) := by
  unfold planOf
  split <;> simp_all

/-- A light that takes a bulb and is lit only at night. -/
def lantern : Problem where
  resources := [{ className := "Bulb", capacity := some 1 }]
  timelines := [
    { className := "Light", name := some "light", states := [
      { name := "Off" },
      { name := "On", duration := .between 2 5, conditions := [.follows "Off",
        .uses (.anyOf "Bulb") 1, .during (.anyOf "Sky") "Night"] }] },
    { className := "Sky", name := some "sky", states := [
      { name := "Day", duration := .exactly 10 },
      { name := "Night", conditions := [.metBy (.named "sky") "Day"] }] }]
  facts := [⟨"light", "Off"⟩, ⟨"sky", "Day"⟩]
  goals := [⟨"light", "On"⟩]

theorem exists_load_lantern : ∃ m, Model.load lantern = .ok m := by
  obtain ⟨m, hload, -⟩ := Model.exists_load_of_any lantern (fun _ => true) (by decide +kernel)
  exact ⟨m, hload⟩

/-- The light is lit when the day ends. -/
def lanternPlan : Plan := ⟨[
  ⟨"light", [⟨"Off", 0, 10, []⟩,
    ⟨"On", 10, 12, [.named "light", .named "Bulb_0", .named "sky"]⟩]⟩,
  ⟨"sky", [⟨"Day", 0, 10, []⟩, ⟨"Night", 10, 12, [.named "sky"]⟩]⟩]⟩

theorem solve_lantern :
    lantern.solve { maxDecisions := 20 } .stopped = .ok (.ok lanternPlan) :=
  planOf_eq_some.mp (by decide +kernel)

end TemporalPlanning
