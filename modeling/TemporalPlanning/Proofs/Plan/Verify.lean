import Mathlib.Data.List.Basic
import Mathlib.Tactic.Common
import TemporalPlanning.Plan.Metrics

/-!
# What the verification of plans checks

A plan obeys a model (`Plan.Obeys`) if its entries follow the declarations of their timelines, if it
never takes more of a resource than there is, and if every goal has a token. Verification finds
nothing exactly in such plans (`Plan.violations_eq_nil_iff`).
-/

namespace TemporalPlanning

/-- How long a timeline allows a token of a state to last. -/
def TimelineDef.durationOf (d : TimelineDef) (state : String) : Duration :=
  ((d.template? state).map (·.duration)).getD .standard

/-- A token of a plan follows the declaration of its timeline: a timeline with a class has a
template for its state, and it lasts as long as that allows. -/
@[mk_iff]
structure PlanToken.Obeys (d : TimelineDef) (t : PlanToken) : Prop where
  known : d.className.isSome → (d.template? t.state).isSome
  duration : (d.durationOf t.state).contains t.duration

/-- An entry of a plan follows the declaration of its timeline, and no two of its tokens overlap. -/
def PlanTimeline.Obeys (m : Model) (e : PlanTimeline) : Prop :=
  ∃ d, m.timelineTemplate? e.name = some d ∧ (∀ t ∈ e.tokens, t.Obeys d) ∧
    e.tokens.Pairwise fun t u => t.overlaps u = false

/-- What a binding takes for a condition. -/
def PlanToken.useOf (t : PlanToken) : Condition × ObjectRef → Option (String × Usage)
  | (.uses _ amount, .named name) => some (name, ⟨t.start, t.stop, amount⟩)
  | _ => none

/-- The uses of a token are those of its conditions, each paired with its binding. -/
theorem PlanToken.uses_eq_filterMap (t : PlanToken) (state : StateTemplate) :
    t.uses state = (state.conditions.zip t.bindings).filterMap t.useOf := rfl

namespace Plan

variable (m : Model) (p : Plan)

/-- The usages of the resource of a name. -/
def usagesOf (name : String) : List Usage :=
  ((p.resourceUses m).filter (·.1 == name)).map (·.2)

/-- A plan follows a model. -/
structure Obeys : Prop where
  entries : ∀ e ∈ p.timelines, e.Obeys m
  resources : ∀ use ∈ p.resourceUses m, ∃ r, m.resourceTemplate? use.1 = some r ∧
    ∀ capacity, r.capacity = some capacity → Usage.peak (p.usagesOf m use.1) ≤ capacity
  goals : ∀ g ∈ m.goals, ∀ d, m.timelines[g.timeline]? = some d → p.tokensOf d.name g.state ≠ []

/-- All tokens of a plan lie between 0 and the horizon, if there is one. -/
def Within (horizon : Option Int) : Prop :=
  ∀ e ∈ p.timelines, ∀ t ∈ e.tokens, ∀ d ∈ [t.start, t.stop],
    0 ≤ d ∧ ∀ k, horizon = some k → d ≤ k

variable {p} {name : String}

/-- What is found under a name is an entry of that name. -/
theorem of_timeline?_eq_some {e : PlanTimeline} (h : p.timeline? name = some e) :
    e ∈ p.timelines ∧ e.name = name := by
  unfold timeline? at h
  exact ⟨List.mem_of_find?_eq_some h, by simpa using List.find?_some h⟩

/-- An entry is found under each name that an entry has. -/
theorem isSome_timeline?_iff :
    (p.timeline? name).isSome ↔ ∃ e ∈ p.timelines, e.name = name := by
  simp [timeline?, List.find?_isSome]

end Plan

namespace Verify

variable {m : Model} {d : TimelineDef} {t : PlanToken} {e : PlanTimeline} {p : Plan}

/-- Nothing is found of a token exactly if it obeys the declaration of its timeline. A timeline
without a class leaves its states open. -/
theorem token_fst_eq_nil_iff {entry : String} : (token entry d t).1 = [] ↔ t.Obeys d := by
  rw [PlanToken.obeys_iff, TimelineDef.durationOf]
  unfold token
  -- the state is declared or not, and the timeline has a class or not
  cases htemplate : d.template? t.state with
  | none =>
    -- a timeline without a class may hold any state, for its standard duration
    cases hclass : d.className with
    | none => simp
    | some className => simp
  | some template =>
    cases hclass : d.className with
    | none => simp
    | some className => simp

/-- A token takes what its state asks for, if it has one. -/
theorem token_snd {entry : String} :
    (token entry d t).2 = match d.template? t.state with
      | none => []
      | some state => t.uses state := by
  unfold token
  cases d.template? t.state with
  | none => cases d.className <;> rfl
  | some template => cases d.className <;> rfl

/-- No overlap is found exactly if no token overlaps a later one of the list. -/
theorem overlaps_eq_nil_iff {entry : String} {tokens : List PlanToken} :
    overlaps entry tokens = [] ↔ tokens.Pairwise fun t u => t.overlaps u = false := by
  induction tokens with
  | nil => simp [overlaps]
  | cons t rest ih =>
    -- the first token is compared with all the later ones
    rw [overlaps, List.append_eq_nil_iff, List.pairwise_cons, ih]
    refine and_congr_left fun _ => ?_
    rw [List.filterMap_eq_nil_iff]
    refine forall₂_congr fun u _ => ?_
    split
    · next h => simp [h]
    · next h => simpa using h

/-- Nothing is found of an entry exactly if it obeys the model. -/
theorem entry_fst_eq_nil_iff : (entry m e).1 = [] ↔ e.Obeys m := by
  unfold entry PlanTimeline.Obeys
  cases htemplate : m.timelineTemplate? e.name with
  | none => simp
  | some d =>
    simp only [Option.some.injEq, exists_eq_left']
    rw [List.append_eq_nil_iff, overlaps_eq_nil_iff, List.flatMap_eq_nil_iff, List.forall_mem_map]
    exact and_congr_left fun _ => forall₂_congr fun t _ => token_fst_eq_nil_iff

/-- Verification looks at the resources that the metrics sum up. Each entry is gone through once,
for its violations and for what its tokens use. -/
theorem flatMap_entry_snd :
    (p.timelines.map (entry m)).flatMap (·.2) = p.resourceUses m := by
  rw [List.flatMap_map, Plan.resourceUses]
  refine List.flatMap_congr fun e _ => ?_
  unfold entry
  cases m.timelineTemplate? e.name with
  | none => rfl
  | some d =>
    simp only [List.flatMap_map]
    exact List.flatMap_congr fun t _ => token_snd

/-- Nothing is found of a resource exactly if it is declared and its peak is within its capacity, if
it has one. -/
theorem resource_eq_nil_iff {name : String} :
    resource m (p.resourceUses m) name = [] ↔ ∃ r, m.resourceTemplate? name = some r ∧
      ∀ capacity, r.capacity = some capacity → Usage.peak (p.usagesOf m name) ≤ capacity := by
  unfold resource
  -- a name that the model does not know is a violation, and a missing capacity never is
  cases htemplate : m.resourceTemplate? name with
  | none => simp
  | some r =>
    cases hcapacity : r.capacity with
    | none => simp [hcapacity]
    | some capacity =>
      simp only [Option.some.injEq, exists_eq_left', hcapacity, forall_eq', Plan.usagesOf]
      rw [ite_eq_right_iff]
      simp

/-- Nothing is found of a goal exactly if the plan has a token for it; a goal about a timeline out
of range is passed over. -/
theorem goal_eq_nil_iff {g : GroundRef} : goal m p g = [] ↔
    ∀ d, m.timelines[g.timeline]? = some d → p.tokensOf d.name g.state ≠ [] := by
  unfold goal
  cases m.timelines[g.timeline]? with
  | none => simp
  | some d => simp

end Verify

/-- **Verification finds nothing exactly in the plans that obey the model.** `Obeys` repeats the
structure of the verifier as a proposition; that it means what it should is shown by the comparison
with instants. -/
theorem Plan.violations_eq_nil_iff {m : Model} {p : Plan} :
    p.violations m = [] ↔ p.Obeys m := by
  -- the list has three parts, and it is empty if each of them is
  unfold violations
  simp only [Verify.flatMap_entry_snd, List.append_eq_nil_iff, List.flatMap_eq_nil_iff,
    List.forall_mem_map, mem_sortedNames]
  constructor
  · rintro ⟨⟨hentries, hresources⟩, hgoals⟩
    exact ⟨fun e he => Verify.entry_fst_eq_nil_iff.mp (hentries e he),
      fun use huse => Verify.resource_eq_nil_iff.mp (hresources use huse),
      fun g hg => Verify.goal_eq_nil_iff.mp (hgoals g hg)⟩
  · intro h
    exact ⟨⟨fun e he => Verify.entry_fst_eq_nil_iff.mpr (h.entries e he),
        fun use huse => Verify.resource_eq_nil_iff.mpr (h.resources use huse)⟩,
      fun g hg => Verify.goal_eq_nil_iff.mpr (h.goals g hg)⟩

end TemporalPlanning
