import TemporalPlanning.Model.Basic
import TemporalPlanning.Plan.Basic

/-!
# Supported plans

A token of a plan that is not among the facts of its timeline needs support for each condition of
its state: a binding to an object that the condition means and that does what the condition asks
for (`Plan.Supports`). In a supported plan every such token has it (`Plan.Supported`).
-/

namespace TemporalPlanning

namespace Model

variable (m : Model)

/-- How many tokens of a timeline are facts; created timelines have none. -/
def factPrefix (name : String) : Nat :=
  match m.timelineIndex? name with
  | some i => (m.factsOn i).length
  | none => 0

/-- A reference means the resource of a name. -/
def MeansResource (name : String) : ObjectRef → Prop
  | .named wanted => name = wanted
  | .anyOf className => ∃ d, m.resourceTemplate? name = some d ∧ d.className = className

/-- A reference means the timeline of a name. -/
def MeansTimeline (name : String) : ObjectRef → Prop
  | .named wanted => name = wanted
  | .anyOf className => ∃ d, m.timelineTemplate? name = some d ∧ d.className = some className

end Model

namespace Plan

variable (m : Model) (p : Plan)

/-- The object `name` supports a condition of token `t`, which stands at place `k` of entry `e`. -/
def Supports (e : PlanTimeline) (k : Nat) (t : PlanToken) (name : String) : Condition → Prop
  | .uses target _ => m.MeansResource name target
  | .follows state => name = e.name ∧ ∃ j u, k = j + 1 ∧ e.tokens[j]? = some u ∧ u.state = state ∧
      u.stop = t.start
  | .metBy target state => m.MeansTimeline name target ∧ ∃ f ∈ p.timelines, f.name = name ∧
      ∃ u ∈ f.tokens, u.state = state ∧ u.stop = t.start
  | .during target state => m.MeansTimeline name target ∧ ∃ f ∈ p.timelines, f.name = name ∧
      ∃ u ∈ f.tokens, u.state = state ∧ u.start ≤ t.start ∧ t.stop ≤ u.stop

/-- Token `t` at place `k` of entry `e` has one named binding for each condition of its state, in
order, and each of them supports its condition. -/
def FullySupports (e : PlanTimeline) (k : Nat) (t : PlanToken) : Prop :=
  ∃ d template, m.timelineTemplate? e.name = some d ∧ d.template? t.state = some template ∧
    t.bindings.length = template.conditions.length ∧
    ∀ (i : Nat) condition, template.conditions[i]? = some condition →
      ∃ name, t.bindings[i]? = some (.named name) ∧ p.Supports m e k t name condition

/-- Every token behind the facts of its timeline is fully supported. -/
def Supported : Prop :=
  ∀ e ∈ p.timelines, ∀ (k : Nat) t, m.factPrefix e.name ≤ k → e.tokens[k]? = some t →
    p.FullySupports m e k t

end Plan

/-! ### Checking support -/

instance (m : Model) (name : String) (target : ObjectRef) :
    Decidable (m.MeansResource name target) :=
  match target with
  | .named wanted => inferInstanceAs (Decidable (name = wanted))
  | .anyOf className =>
    inferInstanceAs (Decidable (∃ d ∈ m.resourceTemplate? name, d.className = className))

instance (m : Model) (name : String) (target : ObjectRef) :
    Decidable (m.MeansTimeline name target) :=
  match target with
  | .named wanted => inferInstanceAs (Decidable (name = wanted))
  | .anyOf className =>
    inferInstanceAs (Decidable (∃ d ∈ m.timelineTemplate? name, d.className = some className))

instance (m : Model) (p : Plan) (e : PlanTimeline) (k : Nat) (t : PlanToken) (name : String)
    (condition : Condition) : Decidable (p.Supports m e k t name condition) :=
  match condition with
  | .uses target _ => inferInstanceAs (Decidable (m.MeansResource name target))
  | .follows state => decidable_of_iff
      (name = e.name ∧ ∃ j ∈ List.range k, k = j + 1 ∧
        ∃ u ∈ e.tokens[j]?, u.state = state ∧ u.stop = t.start)
      (and_congr_right fun _ => exists_congr fun j => by
        constructor
        · rintro ⟨-, hk, u, hu, h⟩
          exact ⟨u, hk, hu, h⟩
        · rintro ⟨u, hk, hu, h⟩
          exact ⟨List.mem_range.mpr (hk ▸ Nat.lt_succ_self j), hk, u, hu, h⟩)
  | .metBy target state => inferInstanceAs (Decidable
      (m.MeansTimeline name target ∧ ∃ f ∈ p.timelines, f.name = name ∧
        ∃ u ∈ f.tokens, u.state = state ∧ u.stop = t.start))
  | .during target state => inferInstanceAs (Decidable
      (m.MeansTimeline name target ∧ ∃ f ∈ p.timelines, f.name = name ∧
        ∃ u ∈ f.tokens, u.state = state ∧ u.start ≤ t.start ∧ t.stop ≤ u.stop))

end TemporalPlanning
