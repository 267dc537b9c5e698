import Mathlib.Algebra.Ring.Int.Defs
import Mathlib.Data.Nat.Cast.Basic
import TemporalPlanning.Proofs.Plan.Verify
import TemporalPlanning.Proofs.Usage

/-!
# What a plan takes of its resources

The binding at the place of a condition on a resource names what a token takes for it. This module
says token by token how much of a resource a plan takes: how many units a token takes
(`PlanToken.unitsOf`), how many are in use at an instant (`Plan.inUse`), and what they add up to
over the lengths of the tokens (`Plan.work`).

Verification and the metrics collect usages by name instead. They lose none and count none twice:
every measure of a usage that is additive in its units has the same sum over the usages of a name
and over the tokens of the plan (`Plan.sum_usagesOf`).
-/

namespace TemporalPlanning

/-- The units of the resource `name` that a binding takes for a condition. -/
def Condition.unitsTaken (name : String) : Condition → ObjectRef → Nat
  | .uses _ amount, .named bound => if bound = name then amount else 0
  | _, _ => 0

namespace PlanToken

variable (m : Model) (entry name : String) (t : PlanToken)

/-- A token goes on at an instant. -/
def Covers (instant : Int) : Prop := t.start ≤ instant ∧ instant < t.stop

instance (instant : Int) : Decidable (t.Covers instant) :=
  inferInstanceAs (Decidable (t.start ≤ instant ∧ instant < t.stop))

/-- The conditions of the state of a token, each with the binding at its place. A token of an
unknown timeline or state has none. -/
def boundConditions : List (Condition × ObjectRef) :=
  match (m.timelineTemplate? entry).bind fun d => d.template? t.state with
  | none => []
  | some template => template.conditions.zip t.bindings

/-- The units of a resource that a token takes. -/
def unitsOf : Nat :=
  ((t.boundConditions m entry).map fun pair => pair.1.unitsTaken name pair.2).sum

end PlanToken

namespace Plan

section

variable (m : Model) (p : Plan) (name : String)

/-- Some token of a plan binds a resource to a condition on resources. -/
def Binds : Prop :=
  ∃ e ∈ p.timelines, ∃ t ∈ e.tokens, ∃ target amount,
    (Condition.uses target amount, ObjectRef.named name) ∈ t.boundConditions m e.name

/-- The units of a resource that are in use at an instant. -/
def inUse (instant : Int) : Nat :=
  (p.timelines.map fun e =>
    (e.tokens.map fun t => if t.Covers instant then t.unitsOf m e.name name else 0).sum).sum

/-- The sum of units times length. -/
def work : Int :=
  (p.timelines.map fun e =>
    (e.tokens.map fun t => (t.stop - t.start) * (t.unitsOf m e.name name : Int)).sum).sum

end

variable {m : Model} {p : Plan} {name : String}

/-! ### Usages by name -/

/-- The uses of a plan, written as one pass over the bound conditions of its tokens. -/
theorem resourceUses_eq : p.resourceUses m = p.timelines.flatMap fun e =>
    e.tokens.flatMap fun t => (t.boundConditions m e.name).filterMap t.useOf := by
  unfold resourceUses PlanToken.boundConditions
  refine List.flatMap_congr fun e _ => ?_
  -- an entry without a timeline, or a token without a state, binds nothing
  cases m.timelineTemplate? e.name with
  | none => simp
  | some d =>
    refine List.flatMap_congr fun t _ => ?_
    dsimp only [Option.bind_some]
    cases d.template? t.state with
    | none => rfl
    | some template => exact t.uses_eq_filterMap template

/-- What a binding is used for lasts as long as its token. A pair of a condition and a binding is a
use only if the condition asks for units and the binding is a name. -/
theorem useOf_eq_some {t : PlanToken} {pair : Condition × ObjectRef} {use : String × Usage} :
    t.useOf pair = some use ↔ ∃ target, pair = (.uses target use.2.amount, .named use.1) ∧
      use.2.start = t.start ∧ use.2.stop = t.stop := by
  obtain ⟨bound, start, stop, amount⟩ := use
  obtain ⟨condition, binding⟩ := pair
  unfold PlanToken.useOf
  split
  · -- a resource condition that is bound to a name
    next target amount' bound' heq =>
    obtain ⟨rfl, rfl⟩ := Prod.mk.inj heq
    constructor
    · rintro ⟨⟩
      exact ⟨target, rfl, rfl, rfl⟩
    · rintro ⟨target', ⟨⟩, rfl, rfl⟩
      rfl
  · -- any other condition, or a binding without a name, is no use
    next hother =>
    refine iff_of_false (by simp) ?_
    rintro ⟨target, heq, -⟩
    exact hother _ _ _ heq

/-- A plan uses a resource if a token of it binds a condition to a resource of that name, and then
for as long as the token lasts. -/
theorem mem_resourceUses_iff {use : String × Usage} : use ∈ p.resourceUses m ↔
    ∃ e ∈ p.timelines, ∃ t ∈ e.tokens, use.2.start = t.start ∧ use.2.stop = t.stop ∧ ∃ target,
      (Condition.uses target use.2.amount, ObjectRef.named use.1) ∈ t.boundConditions m e.name := by
  simp only [resourceUses_eq, List.mem_flatMap, List.mem_filterMap, useOf_eq_some]
  refine exists_congr fun e => and_congr_right fun _ => exists_congr fun t =>
    and_congr_right fun _ => ?_
  constructor
  · rintro ⟨_, hmem, target, rfl, hstart, hstop⟩
    exact ⟨hstart, hstop, target, hmem⟩
  · rintro ⟨hstart, hstop, target, hmem⟩
    exact ⟨_, hmem, target, rfl, hstart, hstop⟩

/-- The names under which usages are collected are those that are bound. -/
theorem mem_map_resourceUses : name ∈ (p.resourceUses m).map (·.1) ↔ p.Binds m name := by
  rw [List.mem_map]
  constructor
  · rintro ⟨use, huse, rfl⟩
    obtain ⟨e, he, t, ht, -, -, target, hmem⟩ := mem_resourceUses_iff.mp huse
    exact ⟨e, he, t, ht, target, _, hmem⟩
  · rintro ⟨e, he, t, ht, target, amount, hmem⟩
    exact ⟨(name, ⟨t.start, t.stop, amount⟩),
      mem_resourceUses_iff.mpr ⟨e, he, t, ht, rfl, rfl, target, hmem⟩, rfl⟩

/-- A usage has the dates of a token. -/
theorem exists_token_of_mem_usagesOf {u : Usage} (hu : u ∈ p.usagesOf m name) :
    ∃ e ∈ p.timelines, ∃ t ∈ e.tokens, u.start = t.start ∧ u.stop = t.stop := by
  obtain ⟨use, huse, rfl⟩ := List.mem_map.mp hu
  obtain ⟨e, he, t, ht, hstart, hstop, -⟩ := mem_resourceUses_iff.mp (List.mem_of_mem_filter huse)
  exact ⟨e, he, t, ht, hstart, hstop⟩

/-! ### Sums over usages -/

section

variable {M : Type} [AddCommMonoid M]

/-- The sum over lists that are strung together is the sum of their sums. -/
theorem sum_map_flatMap {α β : Type} (as : List α) (f : α → List β) (g : β → M) :
    ((as.flatMap f).map g).sum = (as.map fun a => ((f a).map g).sum).sum := by
  rw [List.map_flatMap, List.flatMap_def, List.sum_flatten, List.map_map]
  rfl

/-- What is collected for one token under a name is its weight for the units that it takes there.
The weight is any additive measure of units over a stretch of time: units in use at an instant, or
work. -/
theorem sum_useOf (weight : Int → Int → Nat →+ M) (t : PlanToken)
    (pairs : List (Condition × ObjectRef)) :
    ((((pairs.filterMap t.useOf).filter (·.1 == name)).map (·.2)).map
        fun u => weight u.start u.stop u.amount).sum =
      weight t.start t.stop (pairs.map fun pair => pair.1.unitsTaken name pair.2).sum := by
  -- along the conditions of the token, each with what it is bound to
  induction pairs with
  | nil => simp
  | cons pair pairs ih =>
    rw [List.map_cons, List.sum_cons, map_add, ← ih]
    cases huse : t.useOf pair with
    | none =>
      -- other conditions and bindings without a name take nothing
      have hnone : pair.1.unitsTaken name pair.2 = 0 := by
        unfold Condition.unitsTaken
        split
        · next target amount bound hcondition hbinding =>
          have hsome : t.useOf pair = some (bound, ⟨t.start, t.stop, amount⟩) :=
            useOf_eq_some.mpr ⟨target, Prod.ext hcondition hbinding, rfl, rfl⟩
          exact absurd (huse.symm.trans hsome) (by simp)
        · rfl
      rw [List.filterMap_cons_none huse, hnone, map_zero, zero_add]
    | some use =>
      obtain ⟨target, rfl, hstart, hstop⟩ := useOf_eq_some.mp huse
      rw [List.filterMap_cons_some huse, List.filter_cons]
      -- the units count if it is this resource that they are taken from
      by_cases hname : use.1 = name
      · rw [if_pos (beq_iff_eq.mpr hname), List.map_cons, List.map_cons, List.sum_cons,
          Condition.unitsTaken, if_pos hname, hstart, hstop]
      · rw [if_neg (mt beq_iff_eq.mp hname), Condition.unitsTaken, if_neg hname, map_zero,
          zero_add]

/-- **Nothing is lost or counted twice** when usages are collected by name. -/
theorem sum_usagesOf (m : Model) (p : Plan) (name : String) (weight : Int → Int → Nat →+ M) :
    ((p.usagesOf m name).map fun u => weight u.start u.stop u.amount).sum =
      (p.timelines.map fun e =>
        (e.tokens.map fun t => weight t.start t.stop (t.unitsOf m e.name name)).sum).sum := by
  rw [usagesOf, resourceUses_eq, List.filter_flatMap, List.map_flatMap, sum_map_flatMap]
  refine congrArg List.sum (List.map_congr_left fun e _ => ?_)
  rw [List.filter_flatMap, List.map_flatMap, sum_map_flatMap]
  exact congrArg List.sum (List.map_congr_left fun t _ => sum_useOf weight t _)

end

/-- The usages that go on at an instant take the units in use. -/
theorem total_usagesOf (instant : Int) :
    Usage.total (p.usagesOf m name) instant = p.inUse m name instant := by
  have hsum := sum_usagesOf m p name fun start stop =>
    AddMonoidHom.mulLeft (if start ≤ instant ∧ instant < stop then 1 else 0)
  simp only [AddMonoidHom.coe_mulLeft, ite_mul, one_mul, zero_mul] at hsum
  rw [Usage.total_eq_sum_ite, hsum]
  rfl

/-- The usages of a name do the work that its tokens do. -/
theorem busyTime_usagesOf : busyTime (p.usagesOf m name) = p.work m name := by
  rw [busyTime, ← List.foldr_map (g := (· + ·)), ← List.sum_eq_foldr]
  exact sum_usagesOf m p name fun start stop =>
    (AddMonoidHom.mulLeft (stop - start)).comp (Nat.castAddMonoidHom Int)

end Plan

end TemporalPlanning
