import Mathlib.Data.List.Nodup
import TemporalPlanning.Proofs.Model.Loadable
import TemporalPlanning.Proofs.Plan.Demand

/-!
# Lawful plans

A plan is lawful (`Plan.Lawful`) if its entries are of known timelines and its tokens of known
states, if every token lasts as long as its state allows, if the tokens of an entry keep apart, if
at no instant more of a resource is in use than there is, and if every goal has a token. All of this
is said of tokens and instants, and not of what a check computes.

Verification is exact if no two entries of a plan have the same name: it finds nothing exactly in
lawful plans (`Plan.violations_exact`). The peaks that it looks at are those at the starts of
tokens, and they stand for all instants; the first entry of a name is then the only one.

If names repeat, tokens are compared within their entries only. What a plan without violations
lists under a name keeps apart in each entry, but not across entries
(`Plan.exclusive_of_violations_eq_nil`, `Plan.exists_not_exclusive`).
-/

namespace TemporalPlanning

/-- A timeline allows a token to last as long as it does: as its state says, or for any positive
time if there is no such state. -/
def TimelineDef.Allows (d : TimelineDef) (t : PlanToken) : Prop :=
  match d.template? t.state with
  | some template => template.duration.min ≤ t.stop - t.start ∧
      ∀ longest, template.duration.max = some longest → t.stop - t.start ≤ longest
  | none => 1 ≤ t.stop - t.start

/-- A declaration allows a token whose duration is within the bounds of its state. -/
theorem TimelineDef.allows_iff {d : TimelineDef} {t : PlanToken} :
    d.Allows t ↔ (d.durationOf t.state).contains t.duration := by
  unfold Allows durationOf
  cases d.template? t.state with
  | none => simp [Duration.contains_iff, Duration.standard, Duration.atLeast, PlanToken.duration]
  | some template => exact Duration.contains_iff.symm

namespace PlanToken

/-- A token obeys a declaration that declares its state, or is of no class, and that allows it. -/
theorem obeys_iff_allows {d : TimelineDef} {t : PlanToken} :
    t.Obeys d ↔ (d.Declares t.state ∨ d.className = none) ∧ d.Allows t := by
  rw [obeys_iff, d.allows_iff, ← TimelineDef.isSome_template?_iff]
  refine and_congr_left fun _ => ?_
  cases d.className <;> simp

/-- Two tokens do not overlap if one of them stops before the other starts. -/
theorem overlaps_eq_false_iff {t u : PlanToken} :
    t.overlaps u = false ↔ t.stop ≤ u.start ∨ u.stop ≤ t.start := by
  rw [overlaps, Bool.and_eq_false_iff, decide_eq_false_iff_not, decide_eq_false_iff_not, not_lt,
    not_lt, or_comm]

/-- Tokens that keep apart share no instant. -/
theorem not_covers_of_overlaps {t u : PlanToken} (h : t.overlaps u = false) {instant : Int}
    (ht : t.Covers instant) : ¬ u.Covers instant := by
  intro hu
  obtain ⟨hstart, hstop⟩ := ht
  obtain ⟨hstart', hstop'⟩ := hu
  rcases overlaps_eq_false_iff.mp h with hle | hle <;> omega

end PlanToken

namespace Plan

variable {m : Model} {p : Plan}

/-- A plan keeps to a model. -/
structure Lawful (m : Model) (p : Plan) : Prop where
  /-- Every entry is of a timeline that is declared by itself or by its class. -/
  timelines : ∀ e ∈ p.timelines, ∃ d, m.timelineTemplate? e.name = some d
  /-- Every token is of a state of its timeline, unless that is one of which only facts are
  known. -/
  states : ∀ e ∈ p.timelines, ∀ d, m.timelineTemplate? e.name = some d → ∀ t ∈ e.tokens,
    d.Declares t.state ∨ d.className = none
  durations : ∀ e ∈ p.timelines, ∀ d, m.timelineTemplate? e.name = some d → ∀ t ∈ e.tokens,
    d.Allows t
  /-- Of any two tokens of an entry one has ended when the other starts. -/
  apart : ∀ e ∈ p.timelines, e.tokens.Pairwise fun t u => t.stop ≤ u.start ∨ u.stop ≤ t.start
  /-- A resource that is bound is known, and there is enough of it at every instant. -/
  resources : ∀ name, p.Binds m name → ∃ r, m.resourceTemplate? name = some r ∧
    ∀ capacity, r.capacity = some capacity → ∀ instant, p.inUse m name instant ≤ capacity
  goals : ∀ g ∈ m.goals, ∃ d, m.timelines[g.timeline]? = some d ∧
    ∃ e ∈ p.timelines, e.name = d.name ∧ ∃ t ∈ e.tokens, t.state = g.state

/-- A peak keeps within a bound if and only if every instant does. -/
theorem peak_usagesOf_le_iff {name : String} {bound : Nat} :
    Usage.peak (p.usagesOf m name) ≤ bound ↔ ∀ instant, p.inUse m name instant ≤ bound := by
  simp only [← total_usagesOf]
  exact ⟨fun hpeak instant => (Usage.total_le_peak _ instant).trans hpeak,
    fun htotal => Usage.peak_le_iff.mpr fun u _ => htotal u.start⟩

/-- If names do not repeat, the first entry of a name is the only one. -/
theorem timeline?_of_mem (hdistinct : (p.timelines.map (·.name)).Nodup) {e : PlanTimeline}
    (he : e ∈ p.timelines) : p.timeline? e.name = some e := by
  obtain ⟨f, hf⟩ := Option.isSome_iff_exists.mp (isSome_timeline?_iff.mpr ⟨e, he, rfl⟩)
  obtain ⟨hmem, hname⟩ := of_timeline?_eq_some hf
  rw [hf, List.inj_on_of_nodup_map hdistinct hmem he hname]

/-- With distinct entry names, the tokens of a timeline in a state are those of its only entry. -/
theorem tokensOf_ne_nil_iff (hdistinct : (p.timelines.map (·.name)).Nodup) {name state : String} :
    p.tokensOf name state ≠ [] ↔
      ∃ e ∈ p.timelines, e.name = name ∧ ∃ t ∈ e.tokens, t.state = state := by
  unfold tokensOf
  constructor
  · intro hne
    split at hne
    · next e hfind =>
      obtain ⟨t, ht⟩ := List.exists_mem_of_ne_nil _ hne
      obtain ⟨ht, hstate⟩ := List.mem_filter.mp ht
      obtain ⟨he, hname⟩ := of_timeline?_eq_some hfind
      exact ⟨e, he, hname, t, ht, beq_iff_eq.mp hstate⟩
    · exact absurd rfl hne
  · rintro ⟨e, he, rfl, t, ht, rfl⟩
    -- names being distinct, the entry is the one that is found under its name
    rw [timeline?_of_mem hdistinct he]
    exact List.ne_nil_of_mem (List.mem_filter.mpr ⟨ht, beq_self_eq_true t.state⟩)

/-- What verification asks of a plan is what a lawful plan keeps to. One side is what the verifier
computes entry by entry, the other speaks of instants; distinct names are needed because the
verifier only compares tokens of one entry. -/
theorem obeys_iff_lawful (hm : m.WellFormed) (hdistinct : (p.timelines.map (·.name)).Nodup) :
    p.Obeys m ↔ p.Lawful m := by
  constructor
  · intro h
    -- what is known of an entry's own declaration holds of any declaration found for its name
    have hentry : ∀ e ∈ p.timelines, ∀ d, m.timelineTemplate? e.name = some d → ∀ t ∈ e.tokens,
        (d.Declares t.state ∨ d.className = none) ∧ d.Allows t := by
      intro e he d hd t ht
      obtain ⟨d', hd', htokens, -⟩ := h.entries e he
      obtain rfl := Option.some.inj (hd.symm.trans hd')
      exact PlanToken.obeys_iff_allows.mp (htokens t ht)
    refine ⟨fun e he => ?_, fun e he d hd t ht => (hentry e he d hd t ht).1,
      fun e he d hd t ht => (hentry e he d hd t ht).2, fun e he => ?_, fun name hname => ?_,
      fun g hg => ?_⟩
    · obtain ⟨d, hd, -⟩ := h.entries e he
      exact ⟨d, hd⟩
    · obtain ⟨-, -, -, hapart⟩ := h.entries e he
      exact hapart.imp PlanToken.overlaps_eq_false_iff.mp
    · -- the peak is within the capacity exactly if at every instant the units in use are
      obtain ⟨use, huse, rfl⟩ := List.mem_map.mp (mem_map_resourceUses.mpr hname)
      obtain ⟨r, hr, hpeak⟩ := h.resources use huse
      exact ⟨r, hr, fun capacity hcapacity => peak_usagesOf_le_iff.mp (hpeak capacity hcapacity)⟩
    · -- names are distinct, so that the entry that is looked up is the only one of the name
      obtain ⟨d, hd, -⟩ := hm.goals g hg
      exact ⟨d, hd, (tokensOf_ne_nil_iff hdistinct).mp (h.goals g hg d hd)⟩
  · intro h
    -- conversely the entry of a timeline, the uses of a resource and a goal
    refine ⟨fun e he => ?_, fun use huse => ?_, fun g hg d hd => ?_⟩
    · obtain ⟨d, hd⟩ := h.timelines e he
      exact ⟨d, hd, fun t ht => PlanToken.obeys_iff_allows.mpr
        ⟨h.states e he d hd t ht, h.durations e he d hd t ht⟩,
        (h.apart e he).imp PlanToken.overlaps_eq_false_iff.mpr⟩
    · obtain ⟨r, hr, hinUse⟩ :=
        h.resources use.1 (mem_map_resourceUses.mp (List.mem_map_of_mem huse))
      exact ⟨r, hr, fun capacity hcapacity =>
        peak_usagesOf_le_iff.mpr (hinUse capacity hcapacity)⟩
    · obtain ⟨d', hd', hgoal⟩ := h.goals g hg
      obtain rfl := Option.some.inj (hd.symm.trans hd')
      exact (tokensOf_ne_nil_iff hdistinct).mpr hgoal

/-- **Verification is exact** on plans whose entries have different names: it finds nothing if and
only if the plan is lawful. -/
theorem violations_exact {problem : Problem} (hload : Model.load problem = .ok m)
    (hdistinct : (p.timelines.map (·.name)).Nodup) : p.violations m = [] ↔ p.Lawful m := by
  rw [violations_eq_nil_iff]
  exact obeys_iff_lawful (Model.wellFormed_of_load hload).1 hdistinct

end Plan

/-- A ship is loaded by a crane that can serve two at a time, and then it sails. -/
def quay : Problem where
  resources := [{ className := "Crane", name := some "crane", capacity := some 2 }]
  timelines := [
    { className := "Ship", name := some "ship", states := [
      { name := "Loading", duration := .between 1 3, conditions := [.uses (.anyOf "Crane") 1] },
      { name := "Sailing", conditions := [.follows "Loading"] }] }]
  facts := [⟨"tide", "High"⟩]
  goals := [⟨"ship", "Sailing"⟩]

/-- While the ship is loaded, a second one that the plan has added is loaded as well. -/
def quayPlan : Plan := ⟨[
  ⟨"ship", [⟨"Loading", 0, 2, [.named "crane"]⟩, ⟨"Sailing", 2, 5, [.named "ship"]⟩]⟩,
  ⟨"Ship_1", [⟨"Loading", 1, 3, [.named "crane"]⟩]⟩,
  ⟨"tide", [⟨"High", 0, 4, []⟩]⟩]⟩

/-- The quay loads, and verification finds nothing wrong with its plan. -/
theorem exists_load_quay : ∃ m, Model.load quay = .ok m ∧ quayPlan.violations m = [] := by
  obtain ⟨m, hload, hnone⟩ := Model.exists_load_of_any quay
    (fun m => quayPlan.violations m == []) (by decide +kernel)
  exact ⟨m, hload, beq_iff_eq.mp hnone⟩

/-- The quay has a plan with distinct entry names that passes verification and is lawful. -/
theorem Plan.violations_exact_quay : ∃ m, Model.load quay = .ok m ∧
    (quayPlan.timelines.map (·.name)).Nodup ∧ quayPlan.violations m = [] ∧ quayPlan.Lawful m := by
  obtain ⟨m, hload, hnone⟩ := exists_load_quay
  have hdistinct : (quayPlan.timelines.map (·.name)).Nodup := by decide
  exact ⟨m, hload, hdistinct, hnone, (Plan.violations_exact hload hdistinct).mp hnone⟩

/-! ### Tokens of one name -/

/-- Tokens at different places of an entry without violations share no instant. This is where the
verifier's comparison of all pairs becomes a statement about instants. -/
theorem PlanTimeline.Obeys.not_covers {m : Model} {e : PlanTimeline} (h : e.Obeys m) {k k' : Nat}
    {t u : PlanToken} (ht : e.tokens[k]? = some t) (hu : e.tokens[k']? = some u) (hne : k ≠ k')
    {instant : Int} (hcovers : t.Covers instant) : ¬ u.Covers instant := by
  obtain ⟨-, -, -, hapart⟩ := h
  obtain ⟨hk, rfl⟩ := List.getElem?_eq_some_iff.mp ht
  obtain ⟨hk', rfl⟩ := List.getElem?_eq_some_iff.mp hu
  rw [List.pairwise_iff_getElem] at hapart
  intro hcovers'
  -- the pairs were compared in their order on the entry
  rcases Nat.lt_or_gt_of_ne hne with hlt | hlt
  · exact PlanToken.not_covers_of_overlaps (hapart k k' hk hk' hlt) hcovers hcovers'
  · exact PlanToken.not_covers_of_overlaps (hapart k' k hk' hk hlt) hcovers' hcovers

namespace Plan

variable {m : Model} {p : Plan}

/-- A plan lists a token under a name, at place `k` of its entry `i`. -/
def Lists (p : Plan) (name : String) (i k : Nat) (t : PlanToken) : Prop :=
  ∃ e, p.timelines[i]? = some e ∧ e.name = name ∧ e.tokens[k]? = some t

/-- No two tokens that a plan lists under one name share an instant. -/
def Exclusive (p : Plan) : Prop :=
  ∀ name i i' k k' t u, p.Lists name i k t → p.Lists name i' k' u → (i, k) ≠ (i', k') →
    ∀ instant, t.Covers instant → ¬ u.Covers instant

/-- **The tokens of an entry share no instant** if verification finds nothing; and if no two entries
have the same name, no two tokens of one name do. -/
theorem exclusive_of_violations_eq_nil (h : p.violations m = []) :
    (∀ name i k k' t u, p.Lists name i k t → p.Lists name i k' u → k ≠ k' →
        ∀ instant, t.Covers instant → ¬ u.Covers instant) ∧
      ((p.timelines.map (·.name)).Nodup → p.Exclusive) := by
  -- pairs are compared within an entry, so that this is all that holds without distinct names
  have hobeys := (violations_eq_nil_iff.mp h).entries
  have hentry : ∀ name i k k' t u, p.Lists name i k t → p.Lists name i k' u → k ≠ k' →
      ∀ instant, t.Covers instant → ¬ u.Covers instant := by
    rintro name i k k' t u ⟨e, he, -, ht⟩ ⟨e', he', -, hu⟩ hne instant hcovers
    obtain rfl := Option.some.inj (he.symm.trans he')
    exact PlanTimeline.Obeys.not_covers (hobeys e (List.mem_of_getElem? he)) ht hu hne hcovers
  refine ⟨hentry, fun hdistinct name i i' k k' t u ht hu hne instant hcovers => ?_⟩
  -- entries of the same name are the same entry
  have hindex : i = i' := by
    obtain ⟨e, he, hname, -⟩ := ht
    obtain ⟨e', he', hname', -⟩ := hu
    have hi : (p.timelines.map (·.name))[i]? = some name := by simp [he, hname]
    have hi' : (p.timelines.map (·.name))[i']? = some name := by simp [he', hname']
    obtain ⟨hlt, -⟩ := List.getElem?_eq_some_iff.mp hi
    exact (List.getElem?_inj hlt hdistinct).mp (hi.trans hi'.symm)
  subst hindex
  exact hentry name i k k' t u ht hu (fun hk => hne (by rw [hk])) instant hcovers

end Plan

/-- Nothing that the quay's plan lists under a name overlaps. -/
theorem Plan.exclusive_quay : ∃ m, Model.load quay = .ok m ∧ quayPlan.violations m = [] ∧
    quayPlan.Exclusive := by
  obtain ⟨m, hload, hnone⟩ := exists_load_quay
  exact ⟨m, hload, hnone, (Plan.exclusive_of_violations_eq_nil hnone).2 (by decide)⟩

/-- A light is off or on. -/
def light : Problem where
  timelines := [{ className := "Light", name := some "light", states := [
    { name := "Off" }, { name := "On" }] }]
  goals := [⟨"light", "Off"⟩]

/-- The light has two entries, and according to them it is off and on at 1. -/
def lightPlan : Plan := ⟨[⟨"light", [⟨"Off", 0, 2, []⟩]⟩, ⟨"light", [⟨"On", 1, 3, []⟩]⟩]⟩

/-- Verification may find nothing although two tokens of one name share an instant: it does not
compare tokens of different entries. -/
theorem Plan.exists_not_exclusive : ∃ m, Model.load light = .ok m ∧ lightPlan.violations m = [] ∧
    ¬ lightPlan.Exclusive := by
  obtain ⟨m, hload, hnone⟩ := Model.exists_load_of_any light
    (fun m => lightPlan.violations m == []) (by decide +kernel)
  refine ⟨m, hload, beq_iff_eq.mp hnone, fun hexclusive => ?_⟩
  exact hexclusive "light" 0 1 0 0 ⟨"Off", 0, 2, []⟩ ⟨"On", 1, 3, []⟩ ⟨_, rfl, rfl, rfl⟩
    ⟨_, rfl, rfl, rfl⟩ (by decide) 1 (by decide) (by decide)

end TemporalPlanning
