import TemporalPlanning.Proofs.Search.Copies

/-!
# Searches that are cut short

A search that has spent its budget reports the flaws that are open where it stands. That is the
partial plan to which the decisions lead that were carried out and not given up
(`Task.applyAll`), unless the last decision of all has got stuck: then it is what that decision left
behind halfway (`Task.flaws_of_cutShort`).
-/

namespace TemporalPlanning

namespace Task

variable {task : Task} {clock : Clock} {s : PartialPlan}

/-- Carries decisions out one after the other. -/
def applyAll (task : Task) : List Decision → Edit Unit
  | [] => pure ()
  | d :: ds => do
    task.apply d
    task.applyAll ds

/-- Where a search stands that tries repairs of `s`: nothing has been changed, or the last decision
has got stuck. -/
def StandsAt (task : Task) (s : PartialPlan) (failed : Option Decision) (here : PartialPlan) :
    Prop :=
  (failed = none → here = s) ∧ ∀ d, failed = some d → ∃ why, task.apply d s = .stuck why here

/-- Without a failed decision the search stands where the accepted ones lead. -/
theorem standsAt_none (s : PartialPlan) : task.StandsAt s none s := ⟨fun _ => rfl, by simp⟩

/-- The decisions in `accepted` lead from `s` to where the search stands. -/
def EndsAt (task : Task) (s : PartialPlan) (accepted : List Decision) (failed : Option Decision)
    (here : PartialPlan) : Prop :=
  ∃ s', task.applyAll accepted s = .done () s' ∧ task.StandsAt s' failed here

/-- A decision accepted before does not alter where the later ones end. -/
theorem EndsAt.cons {s' here : PartialPlan} {d : Decision} {accepted : List Decision}
    {failed : Option Decision} (hs : task.apply d s = .done () s')
    (h : task.EndsAt s' accepted failed here) : task.EndsAt s (d :: accepted) failed here := by
  obtain ⟨s₁, hall, hstands⟩ := h
  exact ⟨s₁, Edit.bind_eq_done.mpr ⟨(), s', hs, hall⟩, hstands⟩

/-- Whenever repairs are tried with `n` decisions left and those run out, the search ends where the
accepted ones lead. -/
def TriesEndingAt (task : Task) (n : Nat) : Prop :=
  ∀ s failed here ds accepted failed' here', task.StandsAt s failed here →
    task.tryEach n s failed here ds = .ok (.spent accepted failed' here') →
      task.EndsAt s accepted failed' here'

/-- If the trials end so, then the search for the next flaw does. The state is described as it
stands then: clean, or with the last decision half applied. -/
theorem TriesEndingAt.searchFrom {n : Nat} (h : task.TriesEndingAt n) {accepted : List Decision}
    {failed : Option Decision} {here : PartialPlan}
    (hs : task.searchFrom n s = .ok (.spent accepted failed here)) :
    task.EndsAt s accepted failed here := by
  rw [Task.searchFrom] at hs
  obtain ⟨flaw?, -, hs⟩ := Fault.bind_eq_ok.mp hs
  cases flaw? with
  | none =>
    obtain ⟨p, -, hs⟩ := Fault.bind_eq_ok.mp hs
    cases hs
  | some flaw =>
    obtain ⟨ds, -, hs⟩ := Fault.bind_eq_ok.mp hs
    obtain ⟨feasible, -, hs⟩ := Fault.bind_eq_ok.mp hs
    -- nothing has failed yet at the first flaw
    exact h s none s feasible accepted failed here (standsAt_none s) hs

/-- Widening a verdict does not change where the search ended. -/
theorem eq_spent_of_widen {n k : Nat} {h : n ≤ k} {v : Verdict n} {accepted : List Decision}
    {failed : Option Decision} {here : PartialPlan}
    (hv : v.widen h = .spent accepted failed here) : v = .spent accepted failed here := by
  cases v with
  | spent => simpa [Verdict.widen] using hv
  | plan | exhausted => cases hv

/-- The trials of the repairs of a frame end where the accepted decisions lead, or with what the
last decision left behind when it got stuck. -/
theorem triesEndingAt (n : Nat) : task.TriesEndingAt n := by
  -- An exhausted attempt hands on what is left of the budget, which can be any smaller number,
  -- hence the strong induction.
  induction n using Nat.strong_induction_on with
  | _ n ih =>
  intro s failed here ds accepted failed' here' hstands h
  cases n with
  | zero =>
    rw [tryEach] at h
    cases h
    exact ⟨s, rfl, hstands⟩
  | succ n =>
    cases ds with
    | nil =>
      rw [tryEach] at h
      cases h
    | cons d ds =>
      rw [tryEach] at h
      cases happly : task.apply d s with
      | forbidden why =>
        rw [happly] at h
        cases h
      | stuck why s' =>
        rw [happly] at h
        obtain ⟨v, hv, h⟩ := Fault.bind_eq_ok.mp h
        -- A decision that got stuck is not accepted: the other ones are tried on `s`.
        obtain rfl := eq_spent_of_widen (Except.ok.inj h)
        refine ih n n.lt_succ_self s (some d) s' ds accepted failed' here' ⟨by simp, ?_⟩ hv
        rintro _ ⟨⟩
        exact ⟨why, happly⟩
      | done u s' =>
        rw [happly] at h
        obtain ⟨v, hv, h⟩ := Fault.bind_eq_ok.mp h
        cases v with
        | plan p => cases h
        | spent accepted' failed'' here'' =>
          cases h
          exact ((ih n n.lt_succ_self).searchFrom hv).cons happly
        | exhausted left hpos hle =>
          obtain ⟨v, hv, h⟩ := Fault.bind_eq_ok.mp h
          obtain rfl := eq_spent_of_widen (Except.ok.inj h)
          exact ih left (Nat.lt_succ_of_le hle) s none s ds accepted failed' here'
            (standsAt_none s) hv

/-- **A search that has spent its budget reports the flaws of where the accepted decisions lead**,
or, if the last decision of all has got stuck, of what that one left behind there. -/
theorem flaws_of_cutShort {problem : Problem} (hload : Model.load problem = .ok task.model)
    (hdeadline : task.config.deadline = none) {decisions : Nat} {flaws : List String}
    (h : task.run clock = .ok (.error (.cutShort decisions flaws))) :
    decisions = task.config.maxDecisions ∧ ∃ s₀ accepted failed here s,
      task.start = .done () s₀ ∧
      task.searchFrom decisions s₀ = .ok (.spent accepted failed here) ∧
      task.applyAll accepted s₀ = .done () s ∧ task.describeOpenFlaws here = .ok flaws ∧
      (failed = none → here = s) ∧
      ∀ d, failed = some d → ∃ why, task.apply d s = .stuck why here := by
  obtain ⟨hm, -⟩ := Model.wellFormed_of_load hload
  rw [run_eq_search hm hdeadline, search] at h
  -- a search that cannot start is not cut short
  cases hstart : task.start with
  | forbidden why =>
    rw [hstart] at h
    cases h
  | stuck why s =>
    rw [hstart] at h
    cases h
  | done u s₀ =>
    rw [hstart] at h
    obtain ⟨root, -, h⟩ := Fault.bind_eq_ok.mp h
    obtain ⟨v, hv, h⟩ := Fault.bind_eq_ok.mp h
    -- nor is one that finds a plan or runs out of repairs
    cases v with
    | plan p => cases h
    | exhausted left => cases h
    | spent accepted failed here =>
      obtain ⟨flaws', hflaws, h⟩ := Fault.bind_eq_ok.mp h
      cases h
      obtain ⟨s, hall, hstands⟩ := (triesEndingAt _).searchFrom hv
      exact ⟨rfl, s₀, accepted, failed, here, s, rfl, hv, hall, hflaws, hstands⟩

end Task

/-- A light that is off for five units and then on for three. -/
def beacon : Problem where
  timelines := [{ className := "Light", name := some "light", states := [
    { name := "Off", duration := .exactly 5 },
    { name := "On", duration := .exactly 3, conditions := [.follows "Off"] }] }]
  facts := [⟨"light", "Off"⟩]
  goals := [⟨"light", "On"⟩]

/-- A budget of one decision is spent when the token for the goal has been placed. -/
theorem flaws_of_cutShort_beacon : ∃ (task : Task) (s₀ : PartialPlan) (accepted : List Decision)
    (failed : Option Decision) (here s : PartialPlan), Model.load beacon = .ok task.model ∧
      task.run .stopped = .ok (.error (.cutShort 1 ["light.On#1: transition from Off"])) ∧
      task.start = .done () s₀ ∧ task.applyAll accepted s₀ = .done () s ∧
      task.describeOpenFlaws here = .ok ["light.On#1: transition from Off"] ∧
      (failed = none → here = s) := by
  obtain ⟨task, hload, hdeadline, hrun⟩ : ∃ task : Task, Model.load beacon = .ok task.model ∧
      task.config.deadline = none ∧
      task.run .stopped = .ok (.error (.cutShort 1 ["light.On#1: transition from Off"])) :=
    ⟨⟨_, { maxDecisions := 1 }⟩, rfl, rfl, rfl⟩
  obtain ⟨-, s₀, accepted, failed, here, s, hs₀, -, hall, hflaws, hhere, -⟩ :=
    Task.flaws_of_cutShort hload hdeadline hrun
  exact ⟨task, s₀, accepted, failed, here, s, hload, hrun, hs₀, hall, hflaws, hhere⟩

/-- If there is no time for the light to be on, its only repair gets stuck. Nothing was accepted,
and the goal is the only flaw; but the condition of the token that was not placed is reported
too. -/
theorem exists_flaw_of_stuck : ∃ (task : Task) (s : PartialPlan) (d : Decision) (why : DeadEnd)
    (s' : PartialPlan), Model.load beacon = .ok task.model ∧ task.config.deadline = none ∧
      task.start = .done () s ∧ task.nextFlaw s = .ok (some (.openGoal 0)) ∧
      task.repairs s (.openGoal 0) = .ok [d] ∧ task.apply d s = .stuck why s' ∧
      task.describeOpenFlaws s = .ok ["goal light.On"] ∧
      task.run .stopped = .ok (.error
        (.cutShort 1 ["goal light.On", "light.On#1: transition from Off"])) :=
  ⟨⟨_, { maxDecisions := 1, horizon := some 7 }⟩, _, _, _, _, rfl, rfl, rfl, rfl, rfl, rfl, rfl,
    rfl⟩

end TemporalPlanning
