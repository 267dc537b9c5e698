import TemporalPlanning.Proofs.Network.Saturation
import TemporalPlanning.Proofs.Reservation.Compulsory
import TemporalPlanning.Proofs.Search.Faultless
import TemporalPlanning.Proofs.Search.Permanence

/-!
# What the look-ahead passes over

Before a link or an order is carried out, the search looks whether the network has room for it. A
link of a covered token posts two constraints, and the look-ahead tries both of them on the network
as it stands, not the second one after the first. No harm is done: distances only get shorter, so
that what is admitted after other constraints was admitted before (`Task.admits_of_postAll`). Hence
a decision that is passed over cannot be carried out (`Task.admits_of_apply`).

Conversely, where a single constraint is posted, the look-ahead has tried that very one, and only
the capacities can still be against the decision (`Task.apply_of_admits`). So the candidates that
are handed out for a flaw (`Candidates.HandsOut`) lack nothing that could have been carried out
(`Task.lookahead_exact`).
-/

namespace TemporalPlanning

/-- A decision for which one constraint is posted, the one that the look-ahead tries. -/
def Decision.PostsOne : Decision → Prop
  | .link _ _ _ relation => relation ≠ .during
  | .order _ _ => True
  | _ => False

/-- If nothing makes an edit stuck, it succeeds. -/
theorem Edit.SafeAt.exists_done {α : Type} {e : Edit α} {s : PartialPlan}
    (h : e.SafeAt (fun _ => False) s) : ∃ a s', e s = .done a s' := by
  cases hs : e s with
  | done a s' => exact ⟨a, s', rfl⟩
  | stuck why s' => exact (h.stuck hs).elim
  | forbidden why => exact absurd hs (h.allowed why)

/-! ### What it answers -/

namespace Task

open Edit

variable {task : Task} {facts : Nat → Nat} {s s' : PartialPlan} {d : Decision} {answer : Bool}

/-- The question whether there is room for a constraint needs both of its timepoints, and is that of
the network. -/
theorem hasRoom_eq_ok {c : Constraint} : hasRoom s c = .ok answer ↔
    (s.network.contains c.first ∧ s.network.contains c.second) ∧ s.network.admits c = answer := by
  simp only [hasRoom, Fault.bind_eq_ok, Network.require_eq_ok, Fault.pure_eq_ok, exists_const,
    and_assoc]

/-- There is room for a link if its tokens are neighbours, should it ask for that, and if each of
its constraints is admitted. -/
theorem admits_link {token supplier : TokenId} {i : Nat} {relation : Relation}
    (h : admits s (.link token i supplier relation) = .ok answer) {t p : Token}
    (ht : s.chronicle.token token = .ok t) (hp : s.chronicle.token supplier = .ok p) :
    answer = true ↔
      (relation = .adjacent → s.chronicle.predecessor? token = .ok (some supplier)) ∧
        ∀ c ∈ relation.constraints p t, s.network.admits c := by
  obtain ⟨t', ht', h⟩ := Fault.bind_eq_ok.mp h
  obtain ⟨p', hp', h⟩ := Fault.bind_eq_ok.mp h
  obtain rfl := Chronicle.token_inj ht ht'
  obtain rfl := Chronicle.token_inj hp hp'
  -- adjacency is tested on the chronicle first; all other tests are about the network
  cases relation with
  | adjacent =>
    obtain ⟨predecessor?, hpredecessor, h⟩ := Fault.bind_eq_ok.mp h
    rw [hpredecessor]
    split at h
    · next heq => simp [Relation.constraints, heq, (hasRoom_eq_ok.mp h).2]
    · next hne => simp [hne, ← Except.ok.inj h]
  | metBy => simp [Relation.constraints, (hasRoom_eq_ok.mp h).2]
  -- both ends are tested, the second one only if the first has room
  | during =>
    obtain ⟨room, hroom, h⟩ := Fault.bind_eq_ok.mp h
    obtain ⟨-, hroom⟩ := hasRoom_eq_ok.mp hroom
    cases room with
    | true => simp [Relation.constraints, hroom, (hasRoom_eq_ok.mp h).2]
    | false => simp [Relation.constraints, hroom, ← Except.ok.inj h]

/-- There is room for an order if its constraint is admitted. -/
theorem admits_order {before after : ReservationId}
    (h : admits s (.order before after) = .ok answer) {b a : Reservation}
    (hb : s.reservations.reservation? before = some b)
    (ha : s.reservations.reservation? after = some a) :
    s.network.admits (.precedes b.stop a.start) = answer := by
  rw [admits, hb, ha] at h
  exact (hasRoom_eq_ok.mp h).2

/-! ### What is passed over -/

/-- **What can be posted one after the other is admitted all at once.** Each constraint is admitted
by the network that it is posted to, and a network with fewer constraints admits no less. -/
theorem admits_of_postAll (square : s.network.Square) {cs : List Constraint} {u : Unit}
    (hs : postAll cs s = .done u s') : ∀ c ∈ cs, s.network.admits c := by
  induction cs generalizing s with
  | nil => simp
  | cons c cs ih =>
    obtain ⟨_, s₁, h₁, h₂⟩ := bind_eq_done.mp hs
    obtain ⟨-, hadmits, rfl⟩ := post_eq_done.mp h₁
    -- the others are admitted when `c` is posted, hence before as well
    exact List.forall_mem_cons.mpr ⟨hadmits, fun c' hc' =>
      (square.tightens_enforce c).admits (ih (square.enforce c) h₂ c' hc')⟩

/-- **A decision that can be carried out is not passed over.** A decision that is passed over would
have failed anyway, so that looking ahead loses no candidate. -/
theorem admits_of_apply (square : s.network.Square) {u : Unit}
    (hs : task.apply d s = .done u s') (h : admits s d = .ok answer) : answer = true := by
  obtain ⟨made, s₁, hs, -⟩ := exists_carryOut_of_apply hs
  cases d with
  -- the constraints were posted one after the other, so that each was admitted when its turn came
  | link token i supplier relation =>
    obtain ⟨hlink, -⟩ := carryOut_link.mp hs
    obtain ⟨t, p, linked, _, _, hpost, -⟩ := linkTo_footprint hlink
    exact (admits_link h linked.consumer_eq linked.supplier_eq).mpr
      ⟨linked.adjacent, admits_of_postAll square hpost⟩
  | order before after =>
    obtain ⟨b, a, hb, ha, hpost, -⟩ := carryOut_order.mp hs
    obtain ⟨-, hadmits, -⟩ := post_eq_done.mp hpost
    rw [← admits_order h hb ha]
    exact hadmits
  | supportGoal | insertGoal | reserve | createResource | insertSupplier | createTimeline =>
    exact (Except.ok.inj h).symm

/-! ### What is let through -/

/-- A constraint that is admitted is posted. -/
theorem safeAt_post_of_admits {P : PartialPlan → Prop} {c : Constraint}
    (hc : s.network.contains c.first ∧ s.network.contains c.second)
    (hadmits : s.network.admits c) : (post c).SafeAt P s :=
  .of_done (a := ()) (post_eq_done.mpr ⟨hc, hadmits, rfl⟩)

/-- A decision that posts one constraint is carried out if that is admitted. The look-ahead tests
exactly that constraint, and beyond it only faults could stop the decision, which its being
applicable excludes. -/
theorem exists_carryOut_of_admits (h : s.Tidy task.model facts) (happlicable : d.Applicable task s)
    (hadmits : admits s d = .ok true) (hone : d.PostsOne) :
    ∃ s', task.carryOut d s = .done [] s' := by
  cases d with
  | link token i supplier relation =>
    obtain ⟨t, ht, h₁⟩ := Fault.bind_eq_ok.mp hadmits
    obtain ⟨p, hp, -⟩ := Fault.bind_eq_ok.mp h₁
    obtain ⟨hadjacent, hroom⟩ := (admits_link hadmits ht hp).mp rfl
    have hcontains : ∀ c ∈ relation.constraints p t,
        s.network.contains c.first ∧ s.network.contains c.second :=
      contains_of_mem_constraints h ht hp
    have hpost : (postAll (relation.constraints p t)).SafeAt (fun _ => False) s := by
      cases relation with
      | adjacent | metBy =>
        exact (safeAt_post_of_admits (hcontains _ List.mem_cons_self)
          (hroom _ List.mem_cons_self)).bind fun _ _ _ => safeAt_pure ()
      -- the second constraint might not fit any more once the first one is posted
      | during => exact absurd rfl hone
    obtain ⟨u, s₁, h₁⟩ := (safeAt_linkTo_of_postAll happlicable.1 ht hp hadjacent hpost).exists_done
    exact ⟨s₁, carryOut_link.mpr ⟨h₁, rfl⟩⟩
  | order before after =>
    -- a reservation that is gone leaves no room for an order
    cases hb : s.reservations.reservation? before with
    | none =>
      rw [admits, hb] at hadmits
      exact absurd (Except.ok.inj hadmits) (by simp)
    | some b =>
      cases ha : s.reservations.reservation? after with
      | none =>
        rw [admits, hb, ha] at hadmits
        exact absurd (Except.ok.inj hadmits) (by simp)
      | some a =>
        obtain ⟨u, s₁, h₁⟩ := (safeAt_post_of_admits ⟨(contains_of_reservation h hb).2,
          (contains_of_reservation h ha).1⟩ (admits_order hadmits hb ha)).exists_done
        exact ⟨s₁, carryOut_order.mpr ⟨b, a, hb, ha, h₁, rfl⟩⟩
  | supportGoal | insertGoal | reserve | createResource | insertSupplier | createTimeline =>
    exact hone.elim

/-- **If one constraint is posted and the look-ahead has found room for it, only a capacity can be
exceeded.** -/
theorem apply_of_admits (h : s.Tidy task.model facts) (hsuits : d.Suits task s)
    (happlicable : d.Applicable task s) (hadmits : admits s d = .ok true) (hone : d.PostsOne) :
    (∃ s', task.apply d s = .done () s') ∨ ∃ name usage capacity s',
      task.apply d s = .stuck (.overCapacity name usage capacity) s' := by
  obtain ⟨s₁, hs⟩ := exists_carryOut_of_admits h happlicable hadmits hone
  have htidy := h.steps (h.carryOut_steps hsuits hs).1
  obtain ⟨why?, hwhy⟩ := htidy.presentable.dated.exists_checkCapacity
  -- what is carried out is kept unless the check of the capacities objects
  cases why? with
  | none =>
    exact .inl ⟨s₁, apply_eq_done.mpr ⟨[], s₁, hs, hwhy, rfl⟩⟩
  | some why =>
    -- the check objects to a resource with a capacity, as that of another cannot be exceeded
    obtain ⟨id, r, -, hcheck⟩ := ReservationBook.checkCapacity_eq_some hwhy
    obtain ⟨capacity, hcapacity⟩ := ReservationBook.exists_capacity_of_checkResource hcheck
    obtain ⟨usage, rfl, -⟩ := ReservationBook.overload_of_checkResource hcapacity hcheck
    exact .inr ⟨_, _, _, s₁, bind_eq_stuck.mpr (.inr ⟨[], s₁, hs, bind_eq_stuck.mpr
      (.inl (check_eq_stuck.mpr ⟨hwhy, rfl⟩))⟩)⟩

end Task

/-! ### What is handed out -/

namespace Candidates

variable {s : PartialPlan} {cs cs' : Candidates} {feasible given : List Decision}

/-- `HandsOut s cs given cs'`: for a partial plan that stays as it is, `cs` hands out the decisions
`given` one after the other, and `cs'` is what is left then. -/
inductive HandsOut (s : PartialPlan) : Candidates → List Decision → Candidates → Prop
  | refl (cs : Candidates) : HandsOut s cs [] cs
  | next {cs cs₁ cs' : Candidates} {d : Decision} {given : List Decision}
      (hnext : cs.next s = .ok (some d, cs₁)) (h : HandsOut s cs₁ given cs') :
      HandsOut s cs (d :: given) cs'

/-- Everything is handed out for which there is room, and nothing else after it. The state has to be
the same at each request, as it is when the search comes back to a frame. -/
theorem exists_handsOut (h : Fault.filter (Task.admits s) cs.remaining = .ok feasible) :
    ∃ cs' cs'', HandsOut s cs feasible cs' ∧ cs'.next s = .ok (none, cs'') := by
  induction feasible generalizing cs with
  | nil =>
    obtain ⟨rest, hnext, -⟩ := next_of_filter h
    exact ⟨cs, _, .refl cs, hnext⟩
  | cons d feasible ih =>
    -- the candidates passed over stay refused, because the state is the same at each request
    obtain ⟨rest, hnext, hrest⟩ := next_of_filter h
    obtain ⟨cs', cs'', hgiven, hnone⟩ := @ih { cs with remaining := rest } hrest
    exact ⟨cs', cs'', .next hnext hgiven, hnone⟩

/-- At any time what was handed out is the first part of it. -/
theorem HandsOut.given_first (h : HandsOut s cs given cs')
    (hfilter : Fault.filter (Task.admits s) cs.remaining = .ok feasible) : given <+: feasible := by
  induction h generalizing feasible with
  | refl cs => exact List.nil_prefix
  | next hnext h ih =>
    obtain ⟨rest, hnext', hrest⟩ := next_of_filter hfilter
    obtain ⟨hhead, rfl⟩ := Prod.mk.inj (Except.ok.inj (hnext.symm.trans hnext'))
    obtain ⟨tail, rfl⟩ := List.head?_eq_some_iff.mp hhead.symm
    exact List.cons_prefix_cons.mpr ⟨rfl, ih hrest⟩

/-- However much was handed out, to begin again is to begin with the first decision. -/
theorem HandsOut.restart_eq (h : HandsOut s cs given cs') : cs'.restart = cs.restart := by
  induction h with
  | refl cs => rfl
  | next hnext h ih =>
    obtain ⟨_, -, heq⟩ := Fault.map_eq_ok.mp hnext
    obtain ⟨-, rfl⟩ := Prod.mk.inj heq
    exact ih

end Candidates

namespace Fault

variable {α : Type} {test : α → Except Fault Bool} {as bs : List α}

/-- A filter that meets no fault goes by the answers of its test. -/
theorem exists_eq_filter (h : Fault.filter test as = .ok bs) :
    ∃ p : α → Bool, (∀ a ∈ as, test a = .ok (p a)) ∧ bs = as.filter p := by
  obtain ⟨htest, -⟩ := mem_filter h
  have hp : ∀ a ∈ as, test a = .ok ((test a).toOption.getD false) := fun a ha => by
    obtain ⟨passes, hpasses⟩ := htest a ha
    rw [hpasses]
    rfl
  exact ⟨_, hp, Except.ok.inj (h.symm.trans (filter_eq_ok hp))⟩

end Fault

namespace Task

variable {task : Task} {problem : Problem} {s : PartialPlan}

/-- If its horizon is possible, a reachable partial plan has a network of which nothing gets lost.
-/
theorem Reachable.sturdy (h : task.Reachable s)
    (hhorizon : ∀ k, task.config.horizon = some k → 0 ≤ k) : s.Sturdy := by
  induction h with
  | start hs =>
    exact (task.recorded_setUp _ _ (.inl ⟨_, hs⟩)).sturdy
      ⟨.origin hhorizon, Trailed.unwinds_fresh _, Trailed.unwinds_fresh _⟩
  | apply _ _ _ _ hs ih => exact (task.recorded_apply _ _ _ (.inl ⟨_, hs⟩)).sturdy ih

/-- **The look-ahead skips nothing that would work.** For every open flaw of a reachable partial
plan the repairs are listed, and the look-ahead answers for each. A repair that it finds no room for
cannot be carried out. If it finds room for one that posts a single constraint, then this can be
carried out unless a capacity is exceeded. The candidates hand out just the repairs for which there
is room, in the order of the list and among them all that can be carried out; and whenever they
begin again, they are the same candidates as at first. -/
theorem Reachable.lookahead_exact (hload : Model.load problem = .ok task.model)
    (hhorizon : ∀ k, task.config.horizon = some k → 0 ≤ k) (h : task.Reachable s)
    {flaws : List Flaw} (hflaws : task.openFlaws s = .ok flaws) {flaw : Flaw}
    (hflaw : flaw ∈ flaws) :
    ∃ (ds : List Decision) (room : Decision → Bool), task.repairs s flaw = .ok ds ∧
      Candidates.ofFlaw task s flaw = .ok ⟨ds, ds⟩ ∧
      (∀ d ∈ ds, admits s d = .ok (room d) ∧
        (room d = false → ∀ s', task.apply d s ≠ .done () s') ∧
        (room d = true → d.PostsOne → (∃ s', task.apply d s = .done () s') ∨
          ∃ name usage capacity s',
            task.apply d s = .stuck (.overCapacity name usage capacity) s')) ∧
      (∃ cs cs', Candidates.HandsOut s ⟨ds, ds⟩ (ds.filter room) cs ∧
        cs.next s = .ok (none, cs')) ∧
      (∀ works : List Decision, works.Sublist ds →
        (∀ d ∈ works, ∃ s', task.apply d s = .done () s') → works.Sublist (ds.filter room)) ∧
      ∀ given cs, Candidates.HandsOut s ⟨ds, ds⟩ given cs →
        given <+: ds.filter room ∧ cs.restart = ⟨ds, ds⟩ := by
  obtain ⟨hm, -⟩ := Model.wellFormed_of_load hload
  have htidy := h.tidy hm
  have square := (h.sturdy hhorizon).net.square
  obtain ⟨ds, hds⟩ := exists_repairs hm htidy hflaws hflaw
  have hsuits := suits_of_mem_repairs htidy.chronicle hds
  obtain ⟨feasible, hfeasible⟩ := Fault.exists_filter fun d hd => exists_admits htidy (hsuits d hd)
  obtain ⟨room, hroom, rfl⟩ := Fault.exists_eq_filter hfeasible
  refine ⟨ds, room, hds, Fault.map_eq_ok.mpr ⟨ds, hds, rfl⟩, fun d hd => ⟨hroom d hd, ?_, ?_⟩,
    Candidates.exists_handsOut hfeasible, fun works hsub hworks => ?_,
    fun given cs hgiven => ⟨hgiven.given_first hfeasible, hgiven.restart_eq⟩⟩
  · -- what is carried out had room before
    intro hfalse s' hs
    rw [admits_of_apply square hs (hroom d hd)] at hfalse
    exact absurd hfalse (by simp)
  · -- with a single constraint there is no other one in its way
    intro htrue hone
    have hadmits : admits s d = .ok true := htrue ▸ hroom d hd
    exact apply_of_admits htidy (hsuits d hd)
      (applicable_of_mem_repairs htidy hflaws hflaw hds hd hadmits) hadmits hone
  · -- what works has room, and the filter keeps the order
    have hkept : works.filter room = works := List.filter_eq_self.mpr fun d hd =>
      have ⟨_, hs⟩ := hworks d hd
      admits_of_apply square hs (hroom d (hsub.subset hd))
    rw [← hkept]
    exact hsub.filter room

end Task

/-- A stall that opens when a bell has rung, for three hours. The bell rings twice, each time for
five hours. -/
def stall : Problem where
  timelines := [
    { className := "Stall", name := some "stall", states := [
      { name := "Open", duration := .exactly 3,
        conditions := [.metBy (.named "bell") "Ring"] }] },
    { className := "Bell", name := some "bell",
      states := [{ name := "Ring", duration := .exactly 5 }] }]
  facts := [⟨"bell", "Ring"⟩, ⟨"bell", "Ring"⟩]
  goals := [⟨"stall", "Open"⟩]

/-- The task to open the stall within twelve hours. -/
def stallTask : Task where
  model := {
    resources := []
    timelines := [
      ⟨"stall", some "Stall", [
        { name := "Open", duration := .exactly 3,
          conditions := [.metBy (.named "bell") "Ring"] }]⟩,
      ⟨"bell", some "Bell", [{ name := "Ring", duration := .exactly 5 }]⟩]
    -- the rings end at 5 and at 10, and from 10 on the stall has too little time
    facts := [⟨1, "Ring"⟩, ⟨1, "Ring"⟩]
    goals := [⟨0, "Open"⟩]
    openClasses := []
    names := [("bell", .timeline 1), ("stall", .timeline 0)] }
  config := { maxDecisions := 10, horizon := some 12 }

/-- The look-ahead passes over the second ring, after which the stall would open too late; a third
one it does not judge. -/
theorem lookahead_exact_stall : ∃ (s : PartialPlan) (ds : List Decision) (cs : Candidates),
    Model.load stall = .ok stallTask.model ∧ stallTask.Reachable s ∧
      ds = [.link ⟨2⟩ 0 ⟨0⟩ .metBy, .link ⟨2⟩ 0 ⟨1⟩ .metBy,
        .insertSupplier ⟨2⟩ 0 ⟨1⟩ "Ring" 2 .metBy] ∧
      stallTask.repairs s (.openCondition ⟨2⟩ 0) = .ok ds ∧
      (∀ s', stallTask.apply (.link ⟨2⟩ 0 ⟨1⟩ .metBy) s ≠ .done () s') ∧
      Candidates.HandsOut s ⟨ds, ds⟩
        [.link ⟨2⟩ 0 ⟨0⟩ .metBy, .insertSupplier ⟨2⟩ 0 ⟨1⟩ "Ring" 2 .metBy] cs ∧
      cs.restart = ⟨ds, ds⟩ := by
  have hload : Model.load stall = .ok stallTask.model := rfl
  obtain ⟨s₀, s, hs₀, hs, hds₀, hflaws, hds, hfirst, hsecond, hthird⟩ : ∃ s₀ s : PartialPlan,
      stallTask.start = .done () s₀ ∧
      stallTask.apply (.insertGoal 0 0) s₀ = .done () s ∧
      stallTask.repairs s₀ (.openGoal 0) = .ok [.insertGoal 0 0] ∧
      stallTask.openFlaws s = .ok [.openCondition ⟨2⟩ 0] ∧
      stallTask.repairs s (.openCondition ⟨2⟩ 0) = .ok [.link ⟨2⟩ 0 ⟨0⟩ .metBy,
        .link ⟨2⟩ 0 ⟨1⟩ .metBy, .insertSupplier ⟨2⟩ 0 ⟨1⟩ "Ring" 2 .metBy] ∧
      Task.admits s (.link ⟨2⟩ 0 ⟨0⟩ .metBy) = .ok true ∧
      Task.admits s (.link ⟨2⟩ 0 ⟨1⟩ .metBy) = .ok false ∧
      Task.admits s (.insertSupplier ⟨2⟩ 0 ⟨1⟩ "Ring" 2 .metBy) = .ok true :=
    ⟨_, _, rfl, rfl, rfl, rfl, rfl, rfl, rfl, rfl⟩
  have hreachable : stallTask.Reachable s := .apply (.start hs₀) hds₀ (by simp) rfl hs
  obtain ⟨ds, room, hds', -, hanswers, ⟨cs, -, hgiven, -⟩, -, hrestart⟩ :=
    hreachable.lookahead_exact hload
      (fun k hk => by obtain rfl := Option.some.inj hk; decide) hflaws (List.mem_singleton.mpr rfl)
  obtain rfl := Except.ok.inj (hds.symm.trans hds')
  have hroom : ∀ d answer, d ∈ _ → Task.admits s d = .ok answer → room d = answer :=
    fun d answer hd h => Except.ok.inj ((hanswers d hd).1.symm.trans h)
  -- the answer of the look-ahead is the one that the theorem is about
  have hpassed := hroom _ _ (by simp) hsecond
  refine ⟨s, _, cs, hload, hreachable, rfl, hds, (hanswers _ (by simp)).2.1 hpassed, ?_,
    (hrestart _ _ hgiven).2⟩
  -- what has no room is left out of the list
  simpa [List.filter, hroom _ _ _ hfirst, hpassed, hroom _ _ _ hthird] using hgiven

end TemporalPlanning
