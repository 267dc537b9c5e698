import TemporalPlanning.Proofs.Model.Load
import TemporalPlanning.Proofs.Search.Goals
import TemporalPlanning.Proofs.Search.Reading

/-!
# Goals at the end

If goals have to come last, the entry of each timeline with a goal ends with the state of the goal
(`Problem.goals_last_of_solve`). A timeline is sealed when a token is found for a goal of it, and
that token is the last one then (`Task.Serves`). From then on nothing comes behind it, whatever is
entered before it and however many goals of the timeline are still to be served: later decisions let
the timeline unfold, and a sealed timeline keeps its last token (`Chronicle.Unfolds.sealed`).
-/

namespace TemporalPlanning

namespace Task

variable {task : Task} {facts : Nat → Nat} {s s' : PartialPlan} {c c' : Chronicle}

/-! ### Sealed timelines -/

/-- The timeline of each goal that is served is sealed, and ends with the token that serves it.
Sealed timelines are not empty. -/
structure EndsWithGoals (task : Task) (c : Chronicle) : Prop where
  last : ∀ (k : Nat) (g : GroundRef) token, task.model.goals[k]? = some g →
    c.goalSupport? k = .ok (some token) →
      ∃ host, c.timeline ⟨g.timeline⟩ = .ok host ∧ host.sealed ∧ host.tail? = some token
  nonempty : ∀ id host, c.timeline id = .ok host → host.sealed → ∃ token, host.tail? = some token

/-- Goals that are served already still are at the end. -/
theorem EndsWithGoals.last_of_unfolds (h : task.EndsWithGoals c) (hunfolds : c.Unfolds c') {k : Nat}
    {g : GroundRef} {token : TokenId} (hg : task.model.goals[k]? = some g)
    (hsupport : c.goalSupport? k = .ok (some token)) :
    ∃ host, c'.timeline ⟨g.timeline⟩ = .ok host ∧ host.sealed ∧ host.tail? = some token := by
  obtain ⟨host, hhost, hsealed, htail⟩ := h.last k g token hg hsupport
  obtain ⟨host', hhost', hsealed', htail'⟩ := hunfolds.sealed hhost hsealed
  exact ⟨host', hhost', hsealed', htail'.trans htail⟩

/-- Timelines that were sealed before still have a last token. -/
theorem EndsWithGoals.nonempty_of_unfolds (h : task.EndsWithGoals c) (hunfolds : c.Unfolds c')
    {id : TimelineId} {host host' : Timeline} (hhost : c.timeline id = .ok host)
    (hsealed : host.sealed) (hhost' : c'.timeline id = .ok host') :
    ∃ token, host'.tail? = some token := by
  obtain ⟨token, htoken⟩ := h.nonempty id host hhost hsealed
  obtain ⟨host'', hhost'', -, htail⟩ := hunfolds.sealed hhost hsealed
  obtain rfl := Chronicle.timeline_inj hhost' hhost''
  exact ⟨token, htail.trans htoken⟩

/-- Goals stay last through a change that unfolds the timelines and spares the goals. A sealed
timeline keeps its last token when it unfolds, and no goal gets another token. -/
theorem EndsWithGoals.of_sparesGoals (h : task.EndsWithGoals c) (hunfolds : c.Unfolds c')
    (hspares : c.SparesGoals c') : task.EndsWithGoals c' where
  last := by
    intro k g token hg hsupport
    rw [Chronicle.goalSupport?, hspares.goalSupports] at hsupport
    exact h.last_of_unfolds hunfolds hg hsupport
  nonempty := by
    intro id host' hhost' hsealed'
    obtain ⟨host, hhost, hsealed⟩ := hspares.unsealed id host' hhost' hsealed'
    exact h.nonempty_of_unfolds hunfolds hhost hsealed hhost'

/-- The token that serves a goal is the last one. Under final goals a goal is served at the end of
the timeline only, and the timeline is sealed at once. -/
theorem EndsWithGoals.serves (h : task.EndsWithGoals s.chronicle)
    (hfinal : task.config.finalGoals) (hunfolds : s.chronicle.Unfolds s'.chronicle) {goal : Nat}
    {g : GroundRef} {token : TokenId} (hserves : task.Serves s s' goal g token) :
    task.EndsWithGoals s'.chronicle := by
  obtain ⟨_, _, _, host', -, -, -, hhost', -, -, hlast⟩ := hserves.place
  obtain ⟨hsealed, htail⟩ := hlast hfinal
  refine ⟨fun k g' token' hg' hsupport => ?_, fun id h' hh' hsealed' => ?_⟩
  · -- of two goals of one timeline the second is served by the last token, too
    by_cases hk : k = goal
    · subst hk
      obtain rfl := Option.some.inj (hserves.declared.symm.trans hg')
      obtain rfl := Option.some.inj (Except.ok.inj (hserves.goalSupport?_self.symm.trans hsupport))
      exact ⟨host', hhost', hsealed, htail⟩
    · rw [hserves.goalSupport?_of_ne hk] at hsupport
      exact h.last_of_unfolds hunfolds hg' hsupport
  · -- a timeline is sealed now because it was, or because its goal has just been served
    rcases hserves.unsealed id h' hh' hsealed' with rfl | ⟨host, hhost, hsealed₀⟩
    · obtain rfl := Chronicle.timeline_inj hhost' hh'
      exact ⟨token, htail⟩
    · exact h.nonempty_of_unfolds hunfolds hhost hsealed₀ hh'

/-- **In reachable partial plans the goals that are served are at the end**, if they have to be. -/
theorem Reachable.endsWithGoals (h : task.Reachable s) (hm : task.model.WellFormed)
    (hfinal : task.config.finalGoals) : task.EndsWithGoals s.chronicle := by
  induction h with
  | start hs =>
    -- nothing is served and nothing is sealed
    obtain ⟨hunserved, hopen⟩ := unserved_of_start hm hs
    refine ⟨fun k g token _ hsupport => ?_, fun id host hhost hsealed => ?_⟩
    · exact absurd hsupport (hunserved k token)
    · exact absurd ((hopen id host hhost).2.1.symm.trans hsealed) Bool.false_ne_true
  | @apply s s' flaw ds d hreachable hds hd _ hs ih =>
    have htidy := hreachable.tidy hm
    have hunfolds := htidy.unfolds_apply (suits_of_mem_repairs htidy.chronicle hds d hd) hs
    -- a decision serves a goal or leaves the goals and the seals alone
    rcases serves_or_sparesGoals htidy hds hd hs with ⟨goal, g, token, -, hserves⟩ | ⟨-, hspares⟩
    · exact ih.serves hfinal hunfolds hserves
    · exact ih.of_sparesGoals hunfolds hspares

end Task

/-! ### Plans -/

/-- **Goals come last**, if this is asked for: in every plan the entry of the timeline of a goal
ends with its state. In reachable partial plans a sealed timeline has a last token, and this remains
the last one, whatever is decided further on. -/
theorem Problem.goals_last_of_solve {problem : Problem} {config : Config} {m : Model}
    (hload : Model.load problem = .ok m) (hfinal : config.finalGoals) :
    (∀ clock p, problem.solve config clock = .ok (.ok p) → ∀ g ∈ m.goals,
      ∃ d e, m.timelines[g.timeline]? = some d ∧ p.timelines[g.timeline]? = some e ∧
        e.name = d.name ∧ e.tokens.getLast?.map (·.state) = some g.state) ∧
    ∀ s s', Task.Reachable ⟨m, config⟩ s → Task.Onward ⟨m, config⟩ s s' → ∀ id host,
      s.chronicle.timeline id = .ok host → host.sealed → ∃ token host',
        host.tail? = some token ∧ s'.chronicle.timeline id = .ok host' ∧ host'.sealed ∧
          host'.tail? = some token := by
  have hm := (Model.wellFormed_of_load hload).1
  constructor
  · intro clock p hsolve g hg
    rw [Problem.solve, hload] at hsolve
    obtain ⟨s, hs, hflaw, hp⟩ := @Task.exists_reachable ⟨m, config⟩ _ _ hsolve
    have hwf := (hs.tidy hm).chronicle
    -- the token that serves the goal is the last one of its timeline
    obtain ⟨k, hk⟩ := List.mem_iff_getElem?.mp hg
    obtain ⟨token, htoken⟩ :=
      (Task.of_nextFlaw_eq_none hflaw).1 k (List.getElem?_eq_some_iff.mp hk).1
    obtain ⟨host, hhost, -, htail⟩ := (hs.endsWithGoals hm hfinal).last k g token hk htoken
    obtain ⟨t, ht, -, hstate⟩ := hwf.goals k g token hk (Chronicle.goalSupport?_eq_ok.mp htoken)
    -- the entry shows the tokens of the timeline, its last one included
    obtain ⟨e, he, hshows⟩ :=
      Chronicle.exists_getElem?_of_forall₂ (Task.shows_of_extract hp) hhost
    obtain ⟨d, hd, -⟩ := hm.goals g hg
    obtain ⟨host', hhost', hname, -⟩ := hwf.declared _ d hd
    obtain rfl := Chronicle.timeline_inj hhost hhost'
    refine ⟨d, e, hd, he, hshows.name.trans hname, ?_⟩
    rw [hshows.getLast? htail ht, hstate]
  · -- a sealed timeline takes no token at its end, so that unfolding leaves its tail
    intro s s' hs honward id host hhost hsealed
    obtain ⟨token, htoken⟩ := (hs.endsWithGoals hm hfinal).nonempty id host hhost hsealed
    obtain ⟨host', hhost', hsealed', htail⟩ := (honward.unfolds hs hm).sealed hhost hsealed
    exact ⟨token, host', htoken, hhost', hsealed', htail.trans htoken⟩

/-- A signal that is red before it turns green. -/
def signal : Problem where
  timelines := [
    { className := "Signal", name := some "signal", states := [
      { name := "Red" }, { name := "Green", conditions := [.follows "Red"] }] }]
  goals := [⟨"signal", "Green"⟩]

/-- The task to let the signal be green in the end. -/
def signalTask : Task where
  model := {
    resources := []
    timelines := [⟨"signal", some "Signal",
      [{ name := "Red" }, { name := "Green", conditions := [.follows "Red"] }]⟩]
    facts := []
    goals := [⟨0, "Green"⟩]
    openClasses := []
    names := [("signal", .timeline 0)] }
  config := { maxDecisions := 10, finalGoals := true }

/-- Green is the last state of the plan; when red comes before it, the timeline is sealed. Red is
placed in front of green although the timeline is sealed by then, since a seal only protects the
end. -/
theorem goals_last_signal : ∃ (p : Plan) (s s' : PartialPlan) (host host' : Timeline),
    signal.solve signalTask.config .stopped = .ok (.ok p) ∧
    (∃ e, p.timelines[0]? = some e ∧ e.tokens.getLast?.map (·.state) = some "Green") ∧
    signalTask.Reachable s ∧ signalTask.Onward s s' ∧ s'.chronicle.tokens.size = 2 ∧
    s.chronicle.timeline ⟨0⟩ = .ok host ∧ host.sealed ∧ host.sequence = [⟨0⟩] ∧
    s'.chronicle.timeline ⟨0⟩ = .ok host' ∧ host'.tail? = some ⟨0⟩ := by
  have hload : Model.load signal = .ok signalTask.model := rfl
  have hsolve : signal.solve signalTask.config .stopped = .ok (.ok ⟨[⟨"signal",
      [⟨"Red", 0, 1, []⟩, ⟨"Green", 1, 2, [.named "signal"]⟩]⟩]⟩) :=
    planOf_eq_some.mp (by decide +kernel)
  -- the goal is placed first, and its condition asks for red in front of it
  obtain ⟨s₀, s, s', host, hs₀, hs, hs', hds₀, hds, hhost, hsealed, hsequence, hsize⟩ :
      ∃ (s₀ s s' : PartialPlan) (host : Timeline), signalTask.start = .done () s₀ ∧
        signalTask.apply (.insertGoal 0 0) s₀ = .done () s ∧
        signalTask.apply (.insertSupplier ⟨0⟩ 0 ⟨0⟩ "Red" 0 .adjacent) s = .done () s' ∧
        signalTask.repairs s₀ (.openGoal 0) = .ok [.insertGoal 0 0] ∧
        signalTask.repairs s (.openCondition ⟨0⟩ 0) =
          .ok [.insertSupplier ⟨0⟩ 0 ⟨0⟩ "Red" 0 .adjacent] ∧
        s.chronicle.timeline ⟨0⟩ = .ok host ∧ host.sealed ∧ host.sequence = [⟨0⟩] ∧
        s'.chronicle.tokens.size = 2 :=
    ⟨_, _, _, _, rfl, rfl, rfl, rfl, rfl, rfl, rfl, rfl, rfl⟩
  have hfinal : signalTask.config.finalGoals := rfl
  obtain ⟨hlast, hkept⟩ := Problem.goals_last_of_solve hload hfinal
  obtain ⟨d, e, -, he, -, hgreen⟩ := hlast .stopped _ hsolve ⟨0, "Green"⟩ (by decide)
  -- red is inserted in front of the tail that green has sealed
  have hreachable : signalTask.Reachable s := .apply (.start hs₀) hds₀ (by simp) rfl hs
  have honward : signalTask.Onward s s' := .apply .refl hds (by simp) rfl hs'
  obtain ⟨token, host', htoken, hhost', -, htail⟩ :=
    hkept s s' hreachable honward ⟨0⟩ host hhost hsealed
  rw [Timeline.tail?, hsequence] at htoken
  obtain rfl := Option.some.inj htoken
  exact ⟨_, s, s', host, host', hsolve, ⟨e, he, hgreen⟩, hreachable, honward, hsize, hhost,
    hsealed, hsequence, hhost', htail⟩

end TemporalPlanning
