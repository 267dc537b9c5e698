import TemporalPlanning.Proofs.Footprint

/-!
# What the steps of decisions change

For each step of a decision that has succeeded, the lemmas of this file add to its footprint which
of the solutions of the network remain. They hold in a partial plan with a steady network and a
well-formed chronicle.
-/

namespace TemporalPlanning

/-- The dates of a token that enters at a place fit the horizon, its duration and its neighbours. -/
structure Token.FitsAt (t : Token) (c : Chronicle) (host : Timeline) (position : Nat)
    (horizon : Option Int) (date : Timepoint → Int) : Prop where
  start : (Constraint.mk .origin t.start 0 horizon).Holds date
  stop : (Constraint.mk .origin t.stop 0 horizon).Holds date
  duration : (host.durationOf t.state).contains (date t.stop - date t.start)
  previous : ∀ p u, Chronicle.before? host.sequence position = some p → c.token p = .ok u →
    date u.stop ≤ date t.start
  next : ∀ n u, host.sequence[position]? = some n → c.token n = .ok u → date t.stop ≤ date u.start

/-- The dates of a fact fit the horizon and its duration, and it starts when the one before ends. -/
structure Token.FollowsOn (t : Token) (c : Chronicle) (host : Timeline) (horizon : Option Int)
    (date : Timepoint → Int) : Prop where
  start : (Constraint.mk .origin t.start 0 horizon).Holds date
  stop : (Constraint.mk .origin t.stop 0 horizon).Holds date
  duration : (host.durationOf t.state).contains (date t.stop - date t.start)
  first : host.tail? = none → date t.start = date .origin
  previous : ∀ p u, host.tail? = some p → c.token p = .ok u → date u.stop = date t.start

/-- The duration that a timeline allows is that of the template, where it has one. -/
theorem Timeline.durationOf_eq {host : Timeline} {state : String} {template : StateTemplate}
    (h : host.template? state = some template) : host.durationOf state = template.duration := by
  rw [durationOf, h]
  rfl

/-- A partial plan in good order, as far as the steps of decisions rely on it. -/
structure PartialPlan.Ready (m : Model) (facts : Nat → Nat) (horizon : Option Int)
    (s : PartialPlan) : Prop where
  steady : s.network.Steady horizon
  size_eq : s.network.size = 2 * s.chronicle.tokens.size + 1
  chronicle : s.chronicle.WellFormed m facts

namespace Edit

variable {m : Model} {facts : Nat → Nat} {horizon : Option Int} {s s' : PartialPlan}
  {id : TimelineId} {state : String} {position : Nat}

/-! ### Placing a token -/

/-- A created token has an interval of its own, and the solutions are those in which it fits. -/
theorem instantiate_eq_done (h : s.Ready m facts horizon) (hm : m.WellFormed)
    (hsize : s.network.size + 1 < Network.sizeLimit) {token : TokenId}
    (hs : instantiate id state s = .done token s') :
    ∃ host template, Instantiated s id state host template token s' ∧
      s'.network.Steady horizon ∧
      let t := Token.planned id state s.chronicle.tokens.size template.conditions.length
      ∀ date, s'.network.Fits date ↔ s.network.Fits date ∧
        (Constraint.mk .origin t.start 0 horizon).Holds date ∧
        (Constraint.mk .origin t.stop 0 horizon).Holds date ∧
        (host.durationOf state).contains (date t.stop - date t.start) := by
  obtain ⟨host, template, created, r, s₁, h₁, net₁⟩ := instantiate_footprint h.size_eq hs
  -- durations of a loaded model are valid, so that their bounds stay within what the network takes
  have hvalid := h.chronicle.durationOf_isValid hm created.timeline_eq state
  rw [Timeline.durationOf_eq created.template_eq] at hvalid
  obtain ⟨rfl, st₁, -, -, -, fits₁⟩ := h.steady.addInterval hsize hvalid h₁
  -- once the timepoints are there, only the chronicle changes
  have hnet : s'.network = s₁.network := PartialPlan.network_congr net₁
  refine ⟨host, template, created, by rw [hnet]; exact st₁, fun date => ?_⟩
  rw [hnet, fits₁, h.size_eq, Timeline.durationOf_eq created.template_eq]
  rfl

/-- What is looked up among the neighbours of a new token was there before it. The left side is what
the edit posts, about tokens read after the new one was created; the right side is about the
chronicle as it was. -/
theorem holds_neighbourly_iff {c : Chronicle} (hwf : c.WellFormed m facts) {t : Token}
    {host : Timeline} (hc : s.chronicle = c.addToken t) (hhost : c.timeline id = .ok host)
    {previous next : Option Token}
    (hprevious : Looks s (Chronicle.before? host.sequence position) previous)
    (hnext : Looks s host.sequence[position]? next) {date : Timepoint → Int} :
    (∀ k ∈ neighbourly t previous next, k.Holds date) ↔
      (∀ p u, Chronicle.before? host.sequence position = some p → c.token p = .ok u →
        date u.stop ≤ date t.start) ∧
      ∀ n u, host.sequence[position]? = some n → c.token n = .ok u →
        date t.stop ≤ date u.start := by
  -- the new token stands in no sequence yet
  have old : ∀ k ∈ host.sequence, ∀ u, s.chronicle.token k = .ok u ↔ c.token k = .ok u := by
    intro k hk u
    obtain ⟨v, hv, -⟩ := (hwf.sequence id host hhost).2 k hk
    rw [hc, Chronicle.token_addToken]
    exact or_iff_left fun ⟨heq, _⟩ => Chronicle.ne_next_of_token hv heq
  -- the constraints are about the neighbours that were looked up, if there are any
  rw [holds_neighbourly, hprevious.forall_iff, hnext.forall_iff]
  constructor
  · rintro ⟨hbefore, hafter⟩
    exact ⟨fun p u hp hu => hbefore p u hp ((old p (Chronicle.mem_of_before? hp) u).mpr hu),
      fun n u hn hu => hafter n u hn ((old n (List.mem_of_getElem? hn) u).mpr hu)⟩
  · rintro ⟨hbefore, hafter⟩
    exact ⟨fun p u hp hu => hbefore p u hp ((old p (Chronicle.mem_of_before? hp) u).mp hu),
      fun n u hn hu => hafter n u hn ((old n (List.mem_of_getElem? hn) u).mp hu)⟩

/-- A token was placed, and the solutions are those in which its dates fit. Two timepoints with
their windows, a duration and at most two orders are posted, and all of them together are what
`FitsAt` says. -/
theorem place_eq_done (h : s.Ready m facts horizon) (hm : m.WellFormed)
    (hsize : s.network.size + 1 < Network.sizeLimit) {token : TokenId}
    (hs : place id state position s = .done token s') :
    ∃ host template, Placed s id state position host template token s' ∧
      s'.network.Steady horizon ∧
      let t := Token.planned id state s.chronicle.tokens.size template.conditions.length
      ∀ date, s'.network.Fits date ↔
        s.network.Fits date ∧ t.FitsAt s.chronicle host position horizon date := by
  obtain ⟨host, template, placed, previous, next, s₁, s₂, _, h₁, hprevious, hnext, h₂, net₂⟩ :=
    place_footprint h.size_eq hs
  obtain ⟨host', template', created, st₁, fits₁⟩ := instantiate_eq_done h hm hsize h₁
  obtain rfl := Chronicle.timeline_inj placed.timeline_eq created.timeline_eq
  obtain rfl := Option.some.inj (placed.template_eq.symm.trans created.template_eq)
  -- the interval is created first, then put in order with its neighbours
  obtain ⟨st₂, -, -, -, fits₂⟩ := st₁.postAll within_neighbourly h₂
  have hnet : s'.network = s₂.network := PartialPlan.network_congr net₂
  refine ⟨host, template, placed, by rw [hnet]; exact st₂, fun date => ?_⟩
  rw [hnet, fits₂, fits₁, holds_neighbourly_iff h.chronicle created.chronicle_eq
    created.timeline_eq hprevious hnext]
  -- both sides say the same six things, bracketed differently
  constructor
  · rintro ⟨⟨hdate, hstart, hstop, hduration⟩, hbefore, hafter⟩
    exact ⟨hdate, hstart, hstop, hduration, hbefore, hafter⟩
  · rintro ⟨hdate, hstart, hstop, hduration, hbefore, hafter⟩
    exact ⟨⟨hdate, hstart, hstop, hduration⟩, hbefore, hafter⟩

/-! ### Adding a fact -/

/-- A fact was added, and the solutions are those in which it follows on. A fact starts exactly
where the one before it stops, and the first one at the origin, so that its only freedom is its
duration. -/
theorem addFact_eq_done (h : s.Ready m facts horizon) (hm : m.WellFormed)
    (hsize : s.network.size + 1 < Network.sizeLimit) {fact : TokenId}
    (hs : addFact id state s = .done fact s') :
    ∃ host, FactAdded s id state host s' ∧ s'.network.Steady horizon ∧
      let t := Token.given id state s.chronicle.tokens.size host.tail?.isSome
      ∀ date, s'.network.Fits date ↔
        s.network.Fits date ∧ t.FollowsOn s.chronicle host horizon date := by
  obtain ⟨host, added, previous, r, s₁, s₂, _, hprevious, h₁, h₂, net₂⟩ :=
    addFact_footprint h.size_eq hs
  obtain ⟨rfl, st₁, -, -, -, fits₁⟩ := h.steady.addInterval hsize
    (h.chronicle.durationOf_isValid hm added.timeline_eq state) h₁
  -- the interval comes first, then the constraint that the fact starts where the one before it
  -- stops
  obtain ⟨st₂, -, -, -, fits₂⟩ := st₁.post (Network.within_exactly_zero _ _) h₂
  have hnet : s'.network = s₂.network := PartialPlan.network_congr net₂
  refine ⟨host, added, by rw [hnet]; exact st₂, fun date => ?_⟩
  rw [hnet, fits₂, fits₁, h.size_eq, Constraint.holds_exactly, sub_eq_zero, and_assoc]
  refine and_congr_right fun _ => ?_
  -- the first fact begins at the origin, each other one where the last one ends
  have hchain : date ⟨2 * s.chronicle.tokens.size + 1⟩ =
        date ((previous.map (·.stop)).getD .origin) ↔
      (host.tail? = none → date ⟨2 * s.chronicle.tokens.size + 1⟩ = date .origin) ∧
        ∀ p u, host.tail? = some p → s.chronicle.token p = .ok u →
          date u.stop = date ⟨2 * s.chronicle.tokens.size + 1⟩ := by
    -- the predecessor that was looked up and the one in the sequence are the same
    rw [← hprevious.forall_iff (P := fun u =>
      date u.stop = date ⟨2 * s.chronicle.tokens.size + 1⟩)]
    revert hprevious
    cases host.tail? <;> cases previous <;> simp [Looks, eq_comm]
  rw [hchain]
  constructor
  · rintro ⟨⟨hstart, hstop, hduration⟩, hfirst, hprevious⟩
    exact ⟨hstart, hstop, hduration, hfirst, hprevious⟩
  · rintro ⟨hstart, hstop, hduration, hfirst, hprevious⟩
    exact ⟨⟨hstart, hstop, hduration⟩, hfirst, hprevious⟩

end Edit

namespace Task

variable {m : Model} {facts : Nat → Nat} {horizon : Option Int} {s s' : PartialPlan}

open Edit

/-- A token was linked, and the solutions are those that relate it to its supplier. -/
theorem linkTo_eq_done (h : s.network.Steady horizon) {consumer supplier : TokenId} {i : Nat}
    {relation : Relation} {u : Unit} (hs : linkTo consumer i supplier relation s = .done u s') :
    ∃ t p, Linked s consumer i supplier relation t p s' ∧ s'.network.Steady horizon ∧
      ∀ date, s'.network.Fits date ↔ s.network.Fits date ∧ relation.Holds date p t := by
  obtain ⟨t, p, linked, s₁, _, h₁, net₁⟩ := linkTo_footprint hs
  obtain ⟨st₁, -, -, -, fits₁⟩ := h.postAll Relation.within_constraints h₁
  have hnet : s'.network = s₁.network := PartialPlan.network_congr net₁
  refine ⟨t, p, linked, by rw [hnet]; exact st₁, fun date => ?_⟩
  rw [hnet, fits₁, Relation.holds_constraints]

end Task

end TemporalPlanning
