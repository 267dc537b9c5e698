import TemporalPlanning.Proofs.Chronicle.Facts
import TemporalPlanning.Proofs.Search.Bookkeeping
import TemporalPlanning.Proofs.Search.CutShort
import TemporalPlanning.Proofs.Search.Decisions

/-!
# What the network says of a partial plan

The network of a partial plan is all that is left of the times of its tokens when dates are chosen.
It entails the chronicle: in each of its solutions every token lasts as long as its state allows,
the tokens of a timeline come one after the other, the facts are chained from the origin on, a
locked token begins when its predecessor ends, and every link holds (`Chronicle.Obeyed`). A solution
there always is (`Task.Reachable.entails`).

Only neighbours are related when a token is placed. That all tokens of a timeline are in order is an
invariant of its own (`Chronicle.Respects.enter`): what comes between two tokens does not end before
it starts.
-/

namespace TemporalPlanning

/-- The dates keep to everything that a chronicle says about its tokens. -/
structure Chronicle.Obeyed (c : Chronicle) (date : Timepoint → Int) : Prop where
  /-- A token lasts as long as its template allows, a fact without template for at least 1. -/
  duration : ∀ id t host, c.token id = .ok t → c.timeline t.timeline = .ok host →
    match host.template? t.state with
    | some template => template.duration.contains (date t.stop - date t.start)
    | none => t.origin = .fact ∧ host.states = [] ∧ 1 ≤ date t.stop - date t.start
  /-- Of two tokens of a timeline the one in front ends before the other one starts. -/
  ordered : ∀ id host (i j : Nat) p q t u, c.timeline id = .ok host → i < j →
    host.sequence[i]? = some p → host.sequence[j]? = some q → c.token p = .ok t →
      c.token q = .ok u → date t.stop ≤ date u.start
  firstFact : ∀ id host p t, c.timeline id = .ok host → 0 < host.facts →
    host.sequence[0]? = some p → c.token p = .ok t → date t.start = date .origin
  nextFact : ∀ id host (j : Nat) p q t u, c.timeline id = .ok host → j + 1 < host.facts →
    host.sequence[j]? = some p → host.sequence[j + 1]? = some q → c.token p = .ok t →
      c.token q = .ok u → date t.stop = date u.start
  /-- A locked token has a predecessor and begins when that one ends. -/
  locked : ∀ id t, c.token id = .ok t → t.locked → ∃ p u, c.predecessor? id = .ok (some p) ∧
    c.token p = .ok u ∧ date u.stop = date t.start
  /-- A link belongs to a condition on another token, and it holds. -/
  linked : ∀ l ∈ c.links, ∃ condition t u, c.Asks l.consumer l.condition condition ∧
    c.token l.consumer = .ok t ∧ c.token l.supplier = .ok u ∧
      match condition with
      | .uses _ _ => False
      | .follows _ | .metBy _ _ => date u.stop = date t.start
      | .during _ _ => date u.start ≤ date t.start ∧ date t.stop ≤ date u.stop

/-! ### The facts stay -/

/-- What a step changes leaves the facts alone. Only the set-up of the search adds facts. -/
theorem Chronicle.Changes.keepsFacts {c c' : Chronicle} (h : c.Changes c') {m : Model}
    {facts : Nat → Nat} (hwf : c.WellFormed m facts) : c.KeepsFacts c' := by
  cases h with
  | same => exact .refl _
  | enter _ _ hhost htakes => exact Chronicle.keepsFacts_enter rfl hhost htakes.facts_le
  -- only planned tokens have slots that could be filled
  | linkTo _ _ ht hfree =>
    exact Chronicle.keepsFacts_linkTo ht (hwf.planned_of_support ht hfree) _
  | reserve _ _ ht hfree =>
    exact Chronicle.keepsFacts_setSupport ht (hwf.planned_of_support ht hfree) _ _
  | serve => exact Chronicle.keepsFacts_setGoalSupport _ _
  | serveLast =>
    exact (Chronicle.keepsFacts_setGoalSupport _ _).trans (Chronicle.keepsFacts_setSealed _ _)
  | addTimeline => exact Chronicle.keepsFacts_addTimeline rfl

namespace PartialPlan

variable {task : Task} {m : Model} {facts : Nat → Nat} {s s' : PartialPlan}
  {made : List ReservationId}

/-- The facts of a timeline stay in front through any number of steps. -/
theorem Tidy.keepsFacts_steps (h : s.Tidy task.model facts) (hs : task.Steps s made s') :
    s.chronicle.KeepsFacts s'.chronicle := by
  induction hs with
  | refl => exact .refl _
  | tail hs hstep ih =>
    have htidy := h.steps hs
    exact ih.trans ((htidy.changes_step hstep).1.keepsFacts htidy.chronicle)

/-- **A decision leaves the facts alone.** -/
theorem Tidy.keepsFacts_apply (h : s.Tidy task.model facts) {d : Decision} (hd : d.Suits task s)
    {u : Unit} (hs : task.apply d s = .done u s') : s.chronicle.KeepsFacts s'.chronicle := by
  obtain ⟨made, s₁, hsteps, -, -, hcommit⟩ := h.apply_steps hd hs
  rw [PartialPlan.chronicle_congr (commitAll_eq_done hcommit).2]
  exact h.keepsFacts_steps hsteps

/-! ### What follows from being sound -/

/-- A token lasts as long as its template allows, and only a fact of a timeline without states has
none. -/
theorem Sound.obeyed_duration (h : s.Sound task facts) (hm : task.model.WellFormed)
    {date : Timepoint → Int} (hdate : s.network.Fits date) {id : TokenId} {t : Token}
    {host : Timeline} (ht : s.chronicle.token id = .ok t)
    (hhost : s.chronicle.timeline t.timeline = .ok host) :
    match host.template? t.state with
    | some template => template.duration.contains (date t.stop - date t.start)
    | none => t.origin = .fact ∧ host.states = [] ∧ 1 ≤ date t.stop - date t.start := by
  have hlength := (h.respects date hdate).duration id t host ht hhost
  rw [Timeline.durationOf] at hlength
  cases htemplate : host.template? t.state with
  | some template =>
    rw [htemplate] at hlength
    exact hlength
  | none =>
    rw [htemplate] at hlength
    -- a planned token has a template, as its conditions were taken from it
    cases horigin : t.origin with
    | planned =>
      obtain ⟨template, hsome, -⟩ := h.ready.chronicle.planned id t host ht hhost horigin
      exact absurd (htemplate.symm.trans hsome) (by simp)
    | fact =>
      obtain ⟨-, hdeclared⟩ := h.ready.chronicle.fact id t host ht hhost horigin
      -- a timeline with a class has a template for every fact
      have hclass : host.className = none := by
        cases hclass : host.className with
        | none => rfl
        | some className =>
          have := hdeclared (by rw [hclass]; rfl)
          rw [htemplate] at this
          exact absurd this (by simp)
      -- a timeline without a class came up with a fact, and it has no states
      obtain ⟨d, hd, hclass', hstates⟩ := h.ready.chronicle.timelineTemplate? hm hhost
      refine ⟨rfl, ?_, (Duration.contains_iff.mp hlength).1⟩
      rw [← hstates]
      exact hm.stateless d (Model.mem_of_timelineTemplate? hd) (hclass'.trans hclass)

/-- A locked token begins when its predecessor ends: a fact is chained to the one before it, and a
planned token is linked to it. -/
theorem Sound.obeyed_locked (h : s.Sound task facts) {date : Timepoint → Int}
    (hdate : s.network.Fits date) (hchained : s.chronicle.FactsChained date) {id : TokenId}
    {t : Token} (ht : s.chronicle.token id = .ok t) (hlocked : t.locked) :
    ∃ p u, s.chronicle.predecessor? id = .ok (some p) ∧ s.chronicle.token p = .ok u ∧
      date u.stop = date t.start := by
  have hwf := h.ready.chronicle
  -- planned tokens are locked by a link to their predecessor, facts by being chained
  cases horigin : t.origin with
  | planned =>
    obtain ⟨i, state, p, hasks, hsupport⟩ := h.locked id t ht horigin hlocked
    obtain ⟨hbefore, -, u, hu, -⟩ := h.served _ _ _ _ hasks hsupport
    exact ⟨p, u, hwf.predecessor?_of_standsBefore hbefore, hu,
      (h.respects date hdate).linked id i _ .adjacent p t u hasks rfl hsupport ht hu⟩
  | fact =>
    obtain ⟨host, j, hhost, hj⟩ := hwf.exists_place ht
    have hlt := (hwf.facts_first _ host j id t hhost hj ht).mpr horigin
    -- the first fact is not locked; any other follows the fact before it
    cases j with
    | zero =>
      rw [(hchained.first _ host id t hhost hlt hj ht).1] at hlocked
      exact absurd hlocked (by simp)
    | succ j =>
      have hlength := (List.getElem?_eq_some_iff.mp hj).1
      have hp : host.sequence[j]? = some host.sequence[j] := List.getElem?_eq_getElem (by omega)
      obtain ⟨u, hu, -⟩ := (hwf.sequence _ host hhost).2 _ (List.mem_of_getElem? hp)
      exact ⟨_, u, hwf.predecessor?_of_standsBefore ⟨_, host, j, hhost, hp, hj⟩, hu,
        hchained.next _ host j _ id u t hhost hlt hp hj hu ht⟩

/-- Every link holds. A link is noted down together with a support, and what a support stands for is
part of what sound dates respect. -/
theorem Sound.obeyed_linked (h : s.Sound task facts) (hlinks : s.chronicle.LinksNoted)
    {date : Timepoint → Int} (hdate : s.network.Fits date) {l : CausalLink}
    (hl : l ∈ s.chronicle.links) :
    ∃ condition t u, s.chronicle.Asks l.consumer l.condition condition ∧
      s.chronicle.token l.consumer = .ok t ∧ s.chronicle.token l.supplier = .ok u ∧
      match condition with
      | .uses _ _ => False
      | .follows _ | .metBy _ _ => date u.stop = date t.start
      | .during _ _ => date u.start ≤ date t.start ∧ date t.stop ≤ date u.stop := by
  have hsupport := (hlinks.supportedBy_iff l.consumer l.condition l.supplier).mpr hl
  obtain ⟨condition, hasks⟩ := h.ready.chronicle.asks_of_supportedBy hsupport
  obtain ⟨t, ht⟩ := hsupport.exists_token
  obtain ⟨u, hu⟩ := h.served.exists_token hasks hsupport
  refine ⟨condition, t, u, hasks, ht, hu, ?_⟩
  have hlinked : ∀ relation, condition.relation? = some relation → relation.Holds date u t :=
    fun relation hrelation => (h.respects date hdate).linked _ _ condition relation _ t u hasks
      hrelation hsupport ht hu
  -- which relation a link stands for depends on the condition alone
  cases condition with
  | uses target amount => exact (h.served _ _ _ _ hasks hsupport).elim
  | follows state => exact hlinked .adjacent rfl
  | metBy target state => exact hlinked .metBy rfl
  | during target state => exact hlinked .during rfl

/-- The solutions of a sound partial plan obey its chronicle, if they chain the facts and the links
are noted down. -/
theorem Sound.obeyed (h : s.Sound task facts) (hm : task.model.WellFormed)
    (hlinks : s.chronicle.LinksNoted) {date : Timepoint → Int} (hdate : s.network.Fits date)
    (hchained : s.chronicle.FactsChained date) : s.chronicle.Obeyed date where
  duration := fun _ _ _ ht hhost => h.obeyed_duration hm hdate ht hhost
  ordered := (h.respects date hdate).ordered
  firstFact := fun id host p t hhost hpos hp ht => (hchained.first id host p t hhost hpos hp ht).2
  nextFact := hchained.next
  locked := fun _ _ ht hlocked => h.obeyed_locked hdate hchained ht hlocked
  linked := fun _ hl => h.obeyed_linked hlinks hdate hl

end PartialPlan

namespace Task

variable {task : Task} {s : PartialPlan}

/-- In the beginning every solution chains the facts. The facts are placed one after the other, and
each is tied to the end of the one before it when it comes in. -/
theorem factsChained_of_start (hm : task.model.WellFormed)
    (hhorizon : ∀ k, task.config.horizon = some k → 0 ≤ k ∧ k ≤ Network.horizonLimit)
    (hsize : 2 * task.model.facts.length < Network.sizeLimit) {u : Unit}
    (hs : task.start = .done u s) {date : Timepoint → Int} (hdate : s.network.Fits date) :
    s.chronicle.FactsChained date := by
  refine (start_induct_of_sound hm hhorizon hsize
    (P := fun _ s => ∀ date, s.network.Fits date → s.chronicle.FactsChained date)
    (fun s hs date _ => ?_) ?_ hs).2 date hdate
  · -- with no token yet there is nothing to chain
    exact ⟨fun id host p t _ _ _ ht => absurd ht hs.token_ne,
      fun id host j p q t u _ _ _ _ ht => absurd ht hs.token_ne⟩
  · -- the new fact follows the last one, and dates that fit now did so before
    intro given f rest _ s fact s' hsound hroom h hs date hdate
    obtain ⟨host, added, -, hfits⟩ := Edit.addFact_eq_done hsound.ready hm hroom hs
    obtain ⟨hdate, hfollows⟩ := (hfits date).mp hdate
    rw [added.chronicle_eq]
    refine (h date hdate).enter hsound.ready.chronicle rfl added.timeline_eq added.facts_eq
      (fun hnone => ⟨?_, hfollows.first hnone⟩) hfollows.previous
    simp [Token.given, hnone]

/-- A reachable partial plan with few tokens is sound, and its solutions chain the facts. The limit
on the size is asked of the last partial plan alone; those on the way were no larger. -/
theorem Reachable.sound (h : task.Reachable s) (hm : task.model.WellFormed)
    (hhorizon : ∀ k, task.config.horizon = some k → 0 ≤ k ∧ k ≤ Network.horizonLimit)
    (hsize : s.network.size ≤ Network.sizeLimit) :
    s.Sound task task.factCount ∧
      ∀ date, s.network.Fits date → s.chronicle.FactsChained date := by
  induction h with
  | start hs =>
    -- each fact has brought in two timepoints, and the origin is one more
    have hroom : 2 * task.model.facts.length < Network.sizeLimit := by
      have := (tidy_of_start hm hs).size_eq
      rw [tokens_of_start hm hs] at this
      omega
    exact ⟨(sound_of_start hm hhorizon hroom hs).1,
      fun _ => factsChained_of_start hm hhorizon hroom hs⟩
  | @apply s s' _ _ _ h hds hd _ hs ih =>
    have htidy := h.tidy hm
    have hsuits := suits_of_mem_repairs htidy.chronicle hds _ hd
    -- partial plans only grow, so the one before was no larger
    obtain ⟨hsound, hchained⟩ := ih ((htidy.size_apply hsuits hs).1.trans hsize)
    refine ⟨hsound.of_apply hm hsuits hs hsize, fun date hdate => ?_⟩
    exact (hchained date (hsound.fits_of_apply hm hsuits hs hsize hdate)).of_keepsFacts
      (htidy.apply hsuits hs).chronicle (htidy.keepsFacts_apply hsuits hs)

/-- Fewer than `2 ^ 19` tokens keep the network within its limit. -/
theorem Reachable.size_le (h : task.Reachable s) (hm : task.model.WellFormed)
    (hsize : s.chronicle.tokens.size < 2 ^ 19) : s.network.size ≤ Network.sizeLimit := by
  rw [(h.tidy hm).size_eq, Network.sizeLimit]
  omega

/-- **The network of a reachable partial plan has a solution, and all its solutions obey the
chronicle.** -/
theorem Reachable.entails {problem : Problem} (hload : Model.load problem = .ok task.model)
    (hhorizon : ∀ k, task.config.horizon = some k → 0 ≤ k ∧ k ≤ 2 ^ 60)
    (h : task.Reachable s) (hsize : s.chronicle.tokens.size < 2 ^ 19) :
    (∃ date, s.network.Fits date ∧ date .origin = 0) ∧
      ∀ date, s.network.Fits date → s.chronicle.Obeyed date := by
  obtain ⟨hm, -⟩ := Model.wellFormed_of_load hload
  obtain ⟨hsound, hchained⟩ := h.sound hm hhorizon (h.size_le hm hsize)
  refine ⟨?_, fun date hdate => hsound.obeyed hm (h.booked hm).links hdate (hchained date hdate)⟩
  obtain ⟨date, hdate⟩ := hsound.ready.steady.exists_fits
  exact ⟨_, hdate.add_const (-date .origin), by omega⟩

end Task

/-- The light that goes on after it was off: its second token is placed for the goal and linked to
the fact. -/
theorem entails_beacon : ∃ (task : Task) (s : PartialPlan), Model.load beacon = .ok task.model ∧
    task.config.horizon = some 20 ∧ task.Reachable s ∧ s.chronicle.tokens.size = 2 ∧
      s.chronicle.links = #[⟨⟨1⟩, 0, ⟨0⟩⟩] ∧ (∃ date, s.network.Fits date ∧ date .origin = 0) ∧
        ∀ date, s.network.Fits date → s.chronicle.Obeyed date := by
  obtain ⟨task, s₀, s₁, s, hload, hhorizon, hs₀, hds₀, hadmits₀, hs₁, hds₁, hadmits₁, hs, hsize,
      hlinks⟩ :
      ∃ (task : Task) (s₀ s₁ s : PartialPlan), Model.load beacon = .ok task.model ∧
        task.config.horizon = some 20 ∧ task.start = .done () s₀ ∧
        task.repairs s₀ (.openGoal 0) = .ok [.insertGoal 0 1] ∧
        Task.admits s₀ (.insertGoal 0 1) = .ok true ∧
        task.apply (.insertGoal 0 1) s₀ = .done () s₁ ∧
        task.repairs s₁ (.openCondition ⟨1⟩ 0) =
          .ok [.link ⟨1⟩ 0 ⟨0⟩ .adjacent, .insertSupplier ⟨1⟩ 0 ⟨0⟩ "Off" 1 .adjacent] ∧
        Task.admits s₁ (.link ⟨1⟩ 0 ⟨0⟩ .adjacent) = .ok true ∧
        task.apply (.link ⟨1⟩ 0 ⟨0⟩ .adjacent) s₁ = .done () s ∧
        s.chronicle.tokens.size = 2 ∧ s.chronicle.links = #[⟨⟨1⟩, 0, ⟨0⟩⟩] :=
    ⟨⟨_, { horizon := some 20 }⟩, _, _, _, rfl, rfl, rfl, rfl, rfl, rfl, rfl, rfl, rfl, rfl, rfl⟩
  -- both decisions are among the repairs of what is open
  have hreachable : task.Reachable s :=
    .apply (.apply (.start hs₀) hds₀ (by simp) hadmits₀ hs₁) hds₁ (by simp) hadmits₁ hs
  obtain ⟨hsolvable, hobeyed⟩ :=
    hreachable.entails hload (by simp [hhorizon]) (by rw [hsize]; decide)
  exact ⟨task, s, hload, hhorizon, hreachable, hsize, hlinks, hsolvable, hobeyed⟩

end TemporalPlanning
