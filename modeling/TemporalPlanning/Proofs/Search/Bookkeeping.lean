import TemporalPlanning.Proofs.Search.Reachable
import TemporalPlanning.Proofs.Search.Solved

/-!
# The bookkeeping of a search

What a partial plan notes down about its tokens in several places agrees (`PartialPlan.Orderly`):
each token stands once in the sequence of its timeline, the facts of the model in front and in
order; a support by a token is a link, and the token is one that the condition means; a support by a
reservation is a confirmed reservation for the time of the token, no two conditions share one, and
none is left over; a planned token is locked if and only if its predecessor supports it. All
reachable partial plans of a loaded model are orderly (`Task.Reachable.orderly`).

Which of two equal conditions a reservation supports cannot be told from what it provides: it is
noted down with one of them, and would do as well for the other
(`exists_provides_not_supportedBy`).

Most of this follows from being tidy. The rest is what `PartialPlan.Booked` says of links, facts and
confirmed reservations, which every step of a decision keeps.
-/

namespace TemporalPlanning

namespace Chronicle

/-- A token is a fact that the model gives. -/
def HoldsFact (c : Chronicle) (id : TokenId) (f : GroundRef) : Prop :=
  ∃ t, c.token id = .ok t ∧ t.origin = .fact ∧ t.state = f.state

/-- In front of each timeline stand the facts given for it, in order. -/
def FactsGiven (given : Nat → List GroundRef) (c : Chronicle) : Prop :=
  ∀ id host, c.timeline id = .ok host →
    List.Forall₂ c.HoldsFact (host.sequence.take host.facts) (given id.index)

/-- The links are the supports by tokens, each listed once. -/
structure LinksNoted (c : Chronicle) : Prop where
  nodup : c.links.toList.Nodup
  supportedBy_iff : ∀ id i p, c.SupportedBy id i (.token p) ↔ ⟨id, i, p⟩ ∈ c.links

variable {m : Model} {facts : Nat → Nat} {given : Nat → List GroundRef} {c c' : Chronicle}

/-! ### Facts -/

/-- The facts stay in front. -/
theorem FactsGiven.of_alike (h : c.FactsGiven given) (halike : c.Alike c') :
    c'.FactsGiven given := by
  intro id host' hhost'
  obtain ⟨host, hhost, hbare⟩ := halike.symm.timeline hhost'
  refine (congrArg (fun l : Timeline => l.sequence.take l.facts) hbare ▸ h id host hhost).imp ?_
  rintro k f ⟨t, ht, horigin, hstate⟩
  obtain ⟨t', ht', -, hstate', -, -, horigin', -⟩ := halike.token ht
  exact ⟨t', ht', horigin'.trans horigin, hstate'.trans hstate⟩

/-- The support of a goal is no matter of facts. -/
theorem FactsGiven.setGoalSupport (h : c.FactsGiven given) (g : Nat) (id : Option TokenId) :
    (c.setGoalSupport g id).FactsGiven given := h

/-- A new timeline has no facts. -/
theorem FactsGiven.addTimeline (h : c.FactsGiven given) {new : Timeline}
    (hempty : new.sequence = []) (hnone : given c.timelines.size = []) :
    (c.addTimeline new).FactsGiven given := by
  intro id host hhost
  rcases timeline_addTimeline.mp hhost with hhost | ⟨rfl, rfl⟩
  · exact h id host hhost
  · rw [hempty, List.take_nil, hnone]
    exact .nil

/-- A token that holds a fact goes on doing so when another one is entered. -/
theorem HoldsFact.enter {t : Token} {position : Nat} {id : TokenId} {f : GroundRef}
    (h : c.HoldsFact id f) : (c.enter t position).HoldsFact id f := by
  obtain ⟨u, hu, hdata⟩ := h
  exact ⟨u, token_enter.mpr (.inl hu), hdata⟩

/-- A planned token does not come before the facts. -/
theorem FactsGiven.enter_planned (h : c.FactsGiven given) {t : Token} {host : Timeline}
    {position : Nat} (horigin : t.origin = .planned) (hhost : c.timeline t.timeline = .ok host)
    (hle : host.facts ≤ position) : (c.enter t position).FactsGiven given := by
  intro id g hg
  rcases timeline_enter_cases hhost hg with ⟨rfl, rfl⟩ | ⟨-, hg⟩
  · simp only [Timeline.withToken, horigin]
    rw [List.take_insertIdx_eq_take_of_le _ _ _ _ hle]
    exact (h _ host hhost).imp fun _ _ hfact => hfact.enter
  · exact (h id g hg).imp fun _ _ hfact => hfact.enter

/-- A fact comes behind the others of its timeline. The hypothesis on the length says that nothing
but facts has been placed there so far, as is the case while the search sets up. -/
theorem FactsGiven.enter_fact (h : c.FactsGiven given) {t : Token} {host : Timeline} {f : GroundRef}
    (horigin : t.origin = .fact) (hhost : c.timeline t.timeline = .ok host)
    (hlength : host.facts = host.sequence.length) (hstate : t.state = f.state) :
    (c.enter t host.sequence.length).FactsGiven fun i =>
      if i = t.timeline.index then given i ++ [f] else given i := by
  intro id g hg
  rcases timeline_enter_cases hhost hg with ⟨rfl, rfl⟩ | ⟨hid, hg⟩
  · have hold : List.Forall₂ (c.enter t host.sequence.length).HoldsFact
        (host.sequence.take host.facts) (given t.timeline.index) :=
      (h _ host hhost).imp fun _ _ hfact => hfact.enter
    -- all tokens of the timeline are facts so far
    rw [hlength, List.take_length] at hold
    simp only [if_true, Timeline.withToken, horigin]
    rw [List.insertIdx_length_self, hlength, List.take_of_length_le (by simp)]
    exact List.rel_append hold (.cons ⟨t, token_enter_self, horigin, hstate⟩ .nil)
  · -- facts on other timelines are where they were
    have hindex : id.index ≠ t.timeline.index := fun heq => hid (congrArg TimelineId.mk heq)
    simp only [if_neg hindex]
    exact (h id g hg).imp fun _ _ hfact => hfact.enter

/-! ### Links -/

/-- The links agree with the supports as long as neither changes. -/
theorem LinksNoted.congr (h : c.LinksNoted) (hlinks : c'.links = c.links)
    (hsupport : ∀ id i p, c'.SupportedBy id i (.token p) ↔ c.SupportedBy id i (.token p)) :
    c'.LinksNoted where
  nodup := by
    rw [hlinks]
    exact h.nodup
  supportedBy_iff := fun id i p => by rw [hsupport, hlinks, h.supportedBy_iff]

theorem LinksNoted.enter (h : c.LinksNoted) {t : Token} (hblank : t.IsBlank) (position : Nat) :
    (c.enter t position).LinksNoted :=
  h.congr rfl fun _ _ _ => supportedBy_enter hblank

/-- Linking a token in a free place adds one link. Each link has its slot and each slot filled by a
token its link, so that the two records say the same. -/
theorem LinksNoted.linkTo (h : c.LinksNoted) {consumer supplier : TokenId} {i : Nat}
    {relation : Relation} {t : Token} (ht : c.token consumer = .ok t)
    (hfree : t.supports[i]? = some none) :
    (c.linkTo consumer i supplier relation).LinksNoted := by
  have hlinks : (c.linkTo consumer i supplier relation).links =
      c.links.push ⟨consumer, i, supplier⟩ := by
    cases relation <;> rfl
  refine ⟨?_, fun id k p => ?_⟩
  · rw [hlinks, Array.toList_push, List.nodup_append]
    refine ⟨h.nodup, List.nodup_singleton _, fun l hl l' hl' heq => ?_⟩
    obtain rfl := heq.trans (List.mem_singleton.mp hl')
    -- otherwise the place would have been taken
    obtain ⟨u, hu, hslot⟩ := (h.supportedBy_iff _ _ _).mpr (Array.mem_toList_iff.mp hl)
    obtain rfl := token_inj ht hu
    exact absurd (hfree.symm.trans hslot) (by simp)
  · -- the new link is noted for the slot that it fills
    rw [supportedBy_linkTo ht hfree, h.supportedBy_iff, hlinks, Array.mem_push]
    simp

/-! ### What a step changes -/

/-- What a decision changes step by step leaves the links noted: a link is written down together
with the support that it stands for. -/
theorem Changes.linksNoted (h : c.Changes c') (hlinks : c.LinksNoted) : c'.LinksNoted := by
  cases h with
  | same => exact hlinks
  | enter => exact hlinks.enter (Token.isBlank_planned _ _ _ _) _
  | linkTo _ _ ht hfree => exact hlinks.linkTo ht hfree
  | reserve _ _ ht hfree =>
    -- a reservation is no link
    refine hlinks.congr rfl fun id i p => ?_
    rw [supportedBy_setSupport ht hfree]
    simp
  | serve | serveLast | addTimeline => exact hlinks.congr rfl fun _ _ _ => Iff.rfl

/-- Facts stay as they were given, since a decision adds no fact. A timeline that it creates has
been given none. -/
theorem Changes.factsGiven (h : c.Changes c') (hfacts : c.FactsGiven given)
    (hnone : given c.timelines.size = []) : c'.FactsGiven given := by
  cases h with
  | same => exact hfacts
  | enter _ _ hhost htakes => exact hfacts.enter_planned rfl hhost htakes.facts_le
  | linkTo => exact hfacts.of_alike alike_linkTo
  | reserve => exact hfacts.of_alike (alike_setSupport _ _ _)
  | serve => exact hfacts.setGoalSupport _ _
  | serveLast => exact (hfacts.setGoalSupport _ _).of_alike (alike_setSealed _ _)
  | addTimeline => exact hfacts.addTimeline rfl hnone

end Chronicle

/-- The reservations that a step makes are the only ones that it leaves to be confirmed. -/
theorem ReservationBook.Changes.committed {b b' : ReservationBook}
    {tentative made : List ReservationId} (h : b.Changes made b')
    (hcommitted : ∀ id r, b.reservation? id = some r → r.status = .committed ∨ id ∈ tentative) :
    ∀ id r, b'.reservation? id = some r → r.status = .committed ∨ id ∈ tentative ++ made := by
  intro id r hr
  cases h with
  | same | addResource => exact (hcommitted id r hr).imp_right (List.mem_append_left _)
  | addReservation =>
    rcases ReservationBook.reservation?_addReservation.mp hr with hold | ⟨rfl, -⟩
    · exact (hcommitted id r hold).imp_right (List.mem_append_left _)
    · exact .inr (List.mem_append_right _ (List.mem_singleton_self _))

namespace PartialPlan

/-- The links, the facts in front and the confirmed reservations of a partial plan, of which some
are still `tentative`. -/
structure Booked (given : Nat → List GroundRef) (tentative : List ReservationId) (s : PartialPlan) :
    Prop where
  links : s.chronicle.LinksNoted
  facts : s.chronicle.FactsGiven given
  committed : ∀ id r, s.reservations.reservation? id = some r →
    r.status = .committed ∨ id ∈ tentative

variable {task : Task} {facts : Nat → Nat} {given : Nat → List GroundRef}
  {tentative made : List ReservationId} {s s' : PartialPlan}

/-- A step keeps the books, and the reservations that it makes are not confirmed yet. -/
theorem Booked.step (h : s.Booked task.model.factsOn tentative) (htidy : s.Tidy task.model facts)
    (hm : task.model.WellFormed) (hs : task.Step s made s') :
    s'.Booked task.model.factsOn (tentative ++ made) := by
  obtain ⟨hchron, hbook⟩ := htidy.changes_step hs
  exact ⟨hchron.linksNoted h.links,
    hchron.factsGiven h.facts (hm.factsOn_eq_nil htidy.chronicle.length_le),
    hbook.committed h.committed⟩

/-- The books are kept along the steps of a decision; the reservations that it made are tentative
until it is confirmed. -/
theorem Booked.steps (h : s.Booked task.model.factsOn []) (htidy : s.Tidy task.model facts)
    (hm : task.model.WellFormed) (hs : task.Steps s made s') :
    s'.Booked task.model.factsOn made := by
  induction hs with
  | refl => exact h
  | tail hs hstep ih => exact ih.step (htidy.steps hs) hm hstep

/-- With nothing left to be confirmed, all reservations are. -/
theorem Booked.all_committed (h : s.Booked given []) (id : ReservationId) (r : Reservation)
    (hr : s.reservations.reservation? id = some r) : r.status = .committed :=
  (h.committed id r hr).resolve_right List.not_mem_nil

/-- Confirming what is still tentative leaves nothing tentative. The list names exactly the
tentative ones, and each of them is confirmed in turn without touching the others. -/
theorem Booked.commitAll (h : s.Booked given tentative) {u : Unit}
    (hs : Task.commitAll tentative s = .done u s') : s'.Booked given [] := by
  -- along the reservations that are confirmed one after the other
  induction tentative generalizing s with
  | nil =>
    obtain ⟨-, rfl⟩ := Edit.pure_eq_done.mp hs
    exact h
  | cons id ids ih =>
    obtain ⟨_, s₁, h₁, h₂⟩ := Edit.bind_eq_done.mp hs
    obtain ⟨-, hchron, hbook⟩ := Edit.commit_eq_done h₁
    have hchronicle : s₁.chronicle = s.chronicle := PartialPlan.chronicle_congr hchron
    refine ih ⟨by rw [hchronicle]; exact h.links, by rw [hchronicle]; exact h.facts,
      fun id' r' hr' => ?_⟩ h₂
    rw [hbook] at hr'
    obtain ⟨r, hr, rfl⟩ := ReservationBook.reservation?_setStatus.mp hr'
    -- what is confirmed leaves the list of tentative reservations
    split
    · exact .inl rfl
    · next hne =>
      exact (h.committed id' r hr).imp_right fun hmem => (List.mem_cons.mp hmem).resolve_left hne

/-- **A decision that suits keeps the books.** -/
theorem Booked.apply (h : s.Booked task.model.factsOn []) (htidy : s.Tidy task.model facts)
    (hm : task.model.WellFormed) {d : Decision} (hd : d.Suits task s) {u : Unit}
    (hs : task.apply d s = .done u s') : s'.Booked task.model.factsOn [] := by
  obtain ⟨made, s₁, hsteps, -, -, hcommit⟩ := htidy.apply_steps hd hs
  exact (h.steps htidy hm hsteps).commitAll hcommit

end PartialPlan

namespace Task

variable {task : Task} {s : PartialPlan}

/-- The books of the declared objects alone are empty. -/
theorem Declared.booked (h : task.Declared s) : s.Booked (fun _ => []) [] where
  links := by
    refine ⟨by simp [h.links], fun id i p => ?_⟩
    rw [h.links]
    refine ⟨fun ⟨t, ht, _⟩ => absurd ht h.token_ne, fun hmem => absurd hmem (by simp)⟩
  facts := fun id host hhost => by
    obtain ⟨d, -, rfl⟩ := h.timeline_iff.mp hhost
    exact .nil
  committed := fun id r hr => absurd hr h.reservation_ne

/-- A search starts with its books kept: no links, no reservations, and the facts that the model
gives for each timeline, in turn. -/
theorem booked_of_start (hm : task.model.WellFormed) {u : Unit} (hs : task.start = .done u s) :
    s.Booked task.model.factsOn [] := by
  have hgiven : task.model.factsOn =
      fun i => task.model.factsInTurn.filter fun f => f.timeline == i :=
    funext fun i => (hm.filter_factsInTurn i).symm
  rw [hgiven]
  -- the invariant is about the facts that were given so far
  refine (start_induct (P := fun given s => (∃ facts, s.Tidy task.model facts) ∧
    s.Booked (fun i => given.filter fun f => f.timeline == i) [])
    (fun s hs => ⟨⟨_, hs.tidy hm⟩, hs.booked⟩) ?_ hs).2
  rintro given f rest hturn s fact s' ⟨⟨facts, htidy⟩, h⟩ hs
  have hf : f ∈ task.model.facts := hm.perm_factsInTurn.mem_iff.mp (by rw [hturn]; simp)
  refine ⟨⟨_, htidy.addFact hm hf hs⟩, ?_⟩
  obtain ⟨_, added, -⟩ := Edit.addFact_footprint htidy.size_eq hs
  have hres : s'.reservations = s.reservations := PartialPlan.reservations_congr added.book_eq
  refine ⟨?_, ?_, by rw [hres]; exact h.committed⟩ <;> rw [added.chronicle_eq]
  · -- a fact has no conditions, so that it brings no links
    exact h.links.enter (Token.isBlank_given _ _ _ _) _
  · convert h.facts.enter_fact (t := .given ⟨f.timeline⟩ f.state _ _) (f := f) rfl
      added.timeline_eq added.facts_eq rfl using 2 with i
    -- the facts of its timeline get one more, the others stay
    by_cases hi : i = f.timeline
    · simp [Token.given, hi]
    · simp [Token.given, hi, Ne.symm hi]

end Task

/-! ### Orderly partial plans -/

/-- A token is of the state that a condition on tokens asks for, on a timeline that it means. -/
def Chronicle.Answers (c : Chronicle) (consumer : TokenId) : Condition → TokenId → Prop
  | .uses _ _, _ => False
  | .follows state, p => ∃ t u, c.token consumer = .ok t ∧ c.token p = .ok u ∧ u.state = state ∧
      u.timeline = t.timeline
  | .metBy target state, p | .during target state, p => ∃ u host, c.token p = .ok u ∧
      u.state = state ∧ c.timeline u.timeline = .ok host ∧ host.Matches target

/-- A reservation is confirmed and gives a token the units that a condition asks for, of a resource
that the condition means and for the time of the token. -/
def PartialPlan.Provides (s : PartialPlan) (id : TokenId) (target : ObjectRef) (amount : Nat)
    (resource : ResourceId) (reservation : ReservationId) : Prop :=
  ∃ t res r, s.chronicle.token id = .ok t ∧ s.reservations.resource? resource = some res ∧
    res.Matches target ∧ s.reservations.reservation? reservation = some r ∧
    r.status = .committed ∧ r.resource = resource ∧ r.start = t.start ∧ r.stop = t.stop ∧
    r.amount = amount

/-- A partial plan whose bookkeeping is in order. -/
structure PartialPlan.Orderly (m : Model) (s : PartialPlan) : Prop where
  /-- Every token stands once in the sequence of its timeline. -/
  placed : ∀ id t, s.chronicle.token id = .ok t →
    ∃ host, s.chronicle.timeline t.timeline = .ok host ∧ host.sequence.count id = 1
  /-- A sequence lists tokens of its timeline only. -/
  sequence : ∀ timeline host id, s.chronicle.timeline timeline = .ok host → id ∈ host.sequence →
    ∃ t, s.chronicle.token id = .ok t ∧ t.timeline = timeline
  /-- A timeline begins with its facts in the order of the model. -/
  facts : ∀ timeline host, s.chronicle.timeline timeline = .ok host →
    host.facts = (m.factsOn timeline.index).length ∧
    List.Forall₂ s.chronicle.HoldsFact (host.sequence.take host.facts) (m.factsOn timeline.index)
  /-- All other tokens are planned. -/
  planned : ∀ timeline host, s.chronicle.timeline timeline = .ok host →
    ∀ id ∈ host.sequence.drop host.facts, ∃ t, s.chronicle.token id = .ok t ∧ t.origin = .planned
  /-- A planned token has a place for the support of each condition of its template. -/
  conditions : ∀ id t, s.chronicle.token id = .ok t → t.origin = .planned →
    ∃ host template, s.chronicle.timeline t.timeline = .ok host ∧
      host.template? t.state = some template ∧ t.supports.length = template.conditions.length
  /-- No link is listed twice. -/
  links : s.chronicle.links.toList.Nodup
  /-- The supports by tokens are the links, and those tokens are what the conditions ask for. -/
  token_support : ∀ id i p, s.chronicle.SupportedBy id i (.token p) ↔
    ⟨id, i, p⟩ ∈ s.chronicle.links ∧
      ∃ condition, s.chronicle.Asks id i condition ∧ s.chronicle.Answers id condition p
  /-- A reservation that supports a condition provides what the condition asks for. -/
  reservation_support : ∀ id i resource reservation,
    s.chronicle.SupportedBy id i (.reservation resource reservation) →
      ∃ target amount, s.chronicle.Asks id i (.uses target amount) ∧
        s.Provides id target amount resource reservation
  /-- No two conditions share a reservation. -/
  unshared : ∀ id id' i i' resource resource' reservation,
    s.chronicle.SupportedBy id i (.reservation resource reservation) →
      s.chronicle.SupportedBy id' i' (.reservation resource' reservation) →
        id = id' ∧ i = i' ∧ resource = resource'
  /-- Every reservation supports something. -/
  reserved : ∀ reservation r, s.reservations.reservation? reservation = some r →
    ∃ id i, s.chronicle.SupportedBy id i (.reservation r.resource reservation)
  /-- A reservation that provides what a condition of a token asks for supports this condition or
  another one of the same token that asks for as many units. -/
  provided : ∀ id target amount resource reservation,
    s.Provides id target amount resource reservation →
      ∃ i target', s.chronicle.Asks id i (.uses target' amount) ∧
        s.chronicle.SupportedBy id i (.reservation resource reservation)
  /-- A planned token is locked if and only if a condition on its predecessor is supported. -/
  locked : ∀ id t, s.chronicle.token id = .ok t → t.origin = .planned →
    (t.locked ↔ ∃ i state p, s.chronicle.Asks id i (.follows state) ∧
      s.chronicle.SupportedBy id i (.token p))
  /-- What supports a condition on the predecessor is the predecessor. -/
  predecessor : ∀ id i state p, s.chronicle.Asks id i (.follows state) →
    s.chronicle.SupportedBy id i (.token p) → s.chronicle.predecessor? id = .ok (some p)
  /-- The token of a goal is of the state of the goal, on its timeline. -/
  goals : ∀ g id, s.chronicle.goalSupport? g = .ok (some id) → ∃ goal t, m.goals[g]? = some goal ∧
    s.chronicle.token id = .ok t ∧ t.timeline = ⟨goal.timeline⟩ ∧ t.state = goal.state

namespace PartialPlan

variable {m : Model} {facts : Nat → Nat} {s : PartialPlan}

/-- A token that supports a condition is one that the condition asks for. For a predecessor this
follows from where it stands, for a supplier it was checked when the link was made. -/
theorem Tidy.answers (h : s.Tidy m facts) {id p : TokenId} {i : Nat} {condition : Condition}
    (hasks : s.chronicle.Asks id i condition) (hsupport : s.chronicle.SupportedBy id i (.token p)) :
    s.chronicle.Answers id condition p := by
  have hserves := h.served id i condition _ hasks hsupport
  cases condition with
  | uses target amount => exact hserves
  -- the supplier may stand on any timeline that matches
  | metBy target state | during target state => exact hserves
  | follows state =>
    obtain ⟨⟨timeline, host, j, hhost, hp, hid⟩, ⟨t, ht, -⟩, u, hu, hstate⟩ := hserves
    -- neighbours are on one timeline
    obtain ⟨-, hmem⟩ := h.chronicle.sequence timeline host hhost
    obtain ⟨t', ht', htl⟩ := hmem id (List.mem_of_getElem? hid)
    obtain ⟨u', hu', htl'⟩ := hmem p (List.mem_of_getElem? hp)
    obtain rfl := Chronicle.token_inj ht ht'
    obtain rfl := Chronicle.token_inj hu hu'
    exact ⟨t, u, ht, hu, hstate, htl'.trans htl.symm⟩

/-- A reservation that supports a condition provides what is asked for. That all reservations are
confirmed holds between two decisions, but not within one. -/
theorem Tidy.provides (h : s.Tidy m facts)
    (hcommitted : ∀ id r, s.reservations.reservation? id = some r → r.status = .committed)
    {id : TokenId} {i : Nat} {resource : ResourceId} {reservation : ReservationId}
    (hsupport : s.chronicle.SupportedBy id i (.reservation resource reservation)) :
    ∃ target amount, s.chronicle.Asks id i (.uses target amount) ∧
      s.Provides id target amount resource reservation := by
  obtain ⟨condition, hasks⟩ := h.chronicle.asks_of_supportedBy hsupport
  -- only a resource condition is served by a reservation
  have hserves := h.served id i condition _ hasks hsupport
  cases condition with
  | follows state => exact hserves.elim
  | metBy target state => exact hserves.elim
  | during target state => exact hserves.elim
  | uses target amount =>
    obtain ⟨⟨res, hres, hmatch⟩, t, r, ht, hr, hresource, -, hstart, hstop, hamount⟩ := hserves
    exact ⟨target, amount, hasks, t, res, r, ht, hres, hmatch, hr, hcommitted _ _ hr, hresource,
      hstart, hstop, hamount⟩

/-- A timeline has as many facts as the model gives for it. Created timelines have no facts, and the
model has none for their numbers either. -/
theorem Tidy.length_facts (h : s.Tidy m fun i => (m.factsOn i).length) (hm : m.WellFormed)
    {id : TimelineId} {host : Timeline} (hhost : s.chronicle.timeline id = .ok host) :
    host.facts = (m.factsOn id.index).length := by
  by_cases hlt : id.index < m.timelines.length
  · obtain ⟨host', hhost', -, -, -, hfacts⟩ :=
      h.chronicle.declared _ _ (List.getElem?_eq_getElem hlt)
    obtain rfl := Chronicle.timeline_inj hhost hhost'
    exact hfacts
  · -- a created timeline has no facts, and the model gives none for its number
    have hle := Nat.le_of_not_lt hlt
    rw [(h.chronicle.created id host hhost hle).facts_eq, hm.factsOn_eq_nil hle]
    rfl

/-- Behind the facts all tokens are planned. New tokens are never put among the facts, and a fact
never comes behind one. -/
theorem Tidy.planned_of_mem_drop (h : s.Tidy m facts) {timeline : TimelineId} {host : Timeline}
    (hhost : s.chronicle.timeline timeline = .ok host) {id : TokenId}
    (hid : id ∈ host.sequence.drop host.facts) :
    ∃ t, s.chronicle.token id = .ok t ∧ t.origin = .planned := by
  obtain ⟨k, hk⟩ := List.mem_iff_getElem?.mp hid
  rw [List.getElem?_drop] at hk
  obtain ⟨t, ht, -⟩ := (h.chronicle.sequence _ _ hhost).2 id (List.mem_of_getElem? hk)
  refine ⟨t, ht, ?_⟩
  cases horigin : t.origin with
  | planned => rfl
  | fact =>
    -- facts stand in front, and this place is behind them
    have := (h.chronicle.facts_first _ _ _ _ _ hhost hk ht).mpr horigin
    omega

/-- A planned token is locked if and only if one of its conditions on its predecessor is
supported. -/
theorem Tidy.locked_iff (h : s.Tidy m facts) {id : TokenId} {t : Token}
    (ht : s.chronicle.token id = .ok t) (horigin : t.origin = .planned) :
    t.locked ↔ ∃ i state p, s.chronicle.Asks id i (.follows state) ∧
      s.chronicle.SupportedBy id i (.token p) := by
  refine ⟨h.locked id t ht horigin, ?_⟩
  rintro ⟨i, state, p, hasks, hsupport⟩
  obtain ⟨-, ⟨t', ht', hlocked⟩, -⟩ := h.served id i _ _ hasks hsupport
  obtain rfl := Chronicle.token_inj ht ht'
  exact hlocked

/-- A reservation that provides what a token asks for supports a condition of this token, because no
other token has its time. -/
theorem Tidy.exists_supportedBy_of_provides (h : s.Tidy m facts)
    (hcommitted : ∀ id r, s.reservations.reservation? id = some r → r.status = .committed)
    {id : TokenId} {amount : Nat} {target : ObjectRef} {resource : ResourceId}
    {reservation : ReservationId} (hprovides : s.Provides id target amount resource reservation) :
    ∃ i target', s.chronicle.Asks id i (.uses target' amount) ∧
      s.chronicle.SupportedBy id i (.reservation resource reservation) := by
  obtain ⟨t, -, r, ht, -, -, hr, -, rfl, hstart, -, rfl⟩ := hprovides
  obtain ⟨i, hsupport⟩ := h.accounted.reserved reservation r hr
  obtain ⟨target', amount, hasks, t', -, r', ht', -, -, hr', -, -, hstart', -, rfl⟩ :=
    h.provides hcommitted hsupport
  obtain rfl := Option.some.inj (hr.symm.trans hr')
  -- the token that has the reservation begins at the same timepoint, and so is the same one
  obtain rfl := h.chronicle.eq_of_start_eq ht ht' (hstart.symm.trans hstart')
  exact ⟨i, target', hasks, hsupport⟩

/-- A tidy partial plan whose books are kept is orderly. Tidiness gives what the structures imply of
each other, the books give what has been noted in them. -/
theorem Tidy.orderly_of_booked (h : s.Tidy m fun i => (m.factsOn i).length) (hm : m.WellFormed)
    (hbooked : s.Booked m.factsOn []) : s.Orderly m where
  placed := fun id t ht => by
    obtain ⟨host, hhost, hmem⟩ := h.chronicle.placed id t ht
    exact ⟨host, hhost, List.count_eq_one_of_mem (h.chronicle.sequence _ _ hhost).1 hmem⟩
  sequence := fun timeline host id hhost => (h.chronicle.sequence timeline host hhost).2 id
  facts := fun timeline host hhost => ⟨h.length_facts hm hhost, hbooked.facts timeline host hhost⟩
  planned := fun timeline host hhost id => h.planned_of_mem_drop hhost
  conditions := fun id t ht horigin => by
    obtain ⟨host, hhost, -⟩ := h.chronicle.placed id t ht
    obtain ⟨template, htemplate, hlength⟩ := h.chronicle.planned id t host ht hhost horigin
    exact ⟨host, template, hhost, htemplate, hlength⟩
  links := hbooked.links.nodup
  -- a link stands for a support, and what supports a condition answers it
  token_support := fun id i p => by
    rw [hbooked.links.supportedBy_iff]
    refine ⟨fun hlink => ⟨hlink, ?_⟩, And.left⟩
    have hsupport := (hbooked.links.supportedBy_iff id i p).mpr hlink
    obtain ⟨condition, hasks⟩ := h.chronicle.asks_of_supportedBy hsupport
    exact ⟨condition, hasks, h.answers hasks hsupport⟩
  reservation_support := fun id i resource reservation => h.provides hbooked.all_committed
  -- a reservation is for one condition of one token, and so is its resource
  unshared := fun id id' i i' resource resource' reservation hsupport hsupport' => by
    obtain ⟨rfl, rfl⟩ := h.accounted.unshared _ _ _ _ _ _ _ hsupport hsupport'
    exact ⟨rfl, rfl, (Support.reservation.inj (hsupport.unique hsupport')).1⟩
  reserved := fun reservation r hr => ⟨r.token, h.accounted.reserved reservation r hr⟩
  provided := fun id target amount resource reservation =>
    h.exists_supportedBy_of_provides hbooked.all_committed
  locked := fun id t ht => h.locked_iff ht
  predecessor := fun id i state p hasks hsupport =>
    h.chronicle.predecessor?_of_standsBefore (h.served id i _ _ hasks hsupport).1
  -- a goal that is looked up is one of the model
  goals := fun g id hgoal => by
    have hslot := Chronicle.goalSupport?_eq_ok.mp hgoal
    have hlt := (Array.getElem?_eq_some_iff.mp hslot).1
    rw [h.chronicle.goals_size] at hlt
    obtain ⟨t, ht, hdata⟩ :=
      h.chronicle.goals g _ id (List.getElem?_eq_getElem hlt) hslot
    exact ⟨_, t, List.getElem?_eq_getElem hlt, ht, hdata⟩

end PartialPlan

namespace Task

variable {task : Task} {s : PartialPlan}

/-- A reachable partial plan has its books kept. -/
theorem Reachable.booked (h : task.Reachable s) (hm : task.model.WellFormed) :
    s.Booked task.model.factsOn [] := by
  induction h with
  | start hs => exact booked_of_start hm hs
  | apply h hds hd _ hs ih =>
    have htidy := h.tidy hm
    exact ih.apply htidy hm (suits_of_mem_repairs htidy.chronicle hds _ hd) hs

/-- **The bookkeeping of a reachable partial plan is in order.** -/
theorem Reachable.orderly {problem : Problem} (hload : Model.load problem = .ok task.model)
    (h : task.Reachable s) : s.Orderly task.model := by
  obtain ⟨hm, -⟩ := Model.wellFormed_of_load hload
  exact (h.tidy hm).orderly_of_booked hm (h.booked hm)

end Task

/-- The partial plan from which the plan of the lantern is read off is reachable. It holds a
reservation, a link to a predecessor, one to another timeline and a goal. -/
theorem orderly_lantern : ∃ m s, Model.load lantern = .ok m ∧
    Task.Reachable ⟨m, { maxDecisions := 20 }⟩ s ∧
      Task.extract ⟨m, { maxDecisions := 20 }⟩ s = .ok lanternPlan ∧ s.Orderly m := by
  obtain ⟨m, hload⟩ := exists_load_lantern
  have hsolve := solve_lantern
  rw [Problem.solve, hload] at hsolve
  obtain ⟨s, hreachable, -, hplan⟩ := Task.exists_reachable hsolve
  exact ⟨m, s, hload, hreachable, hplan, hreachable.orderly hload⟩

/-- A lamp that takes two cells of a battery, each by a condition of its own. -/
def torch : Problem where
  resources := [{ className := "Battery", name := some "battery", capacity := some 2 }]
  timelines := [{ className := "Lamp", name := some "lamp", states := [
    { name := "On", conditions := [.uses (.named "battery") 1, .uses (.named "battery") 1] }] }]
  goals := [⟨"lamp", "On"⟩]

/-- The task to turn the lamp on. -/
def torchTask : Task where
  model := {
    resources := [⟨"battery", "Battery", some 2⟩]
    timelines := [⟨"lamp", some "Lamp", [
      { name := "On", conditions := [.uses (.named "battery") 1, .uses (.named "battery") 1] }]⟩]
    facts := []
    goals := [⟨0, "On"⟩]
    openClasses := []
    names := [("lamp", .timeline 0), ("battery", .resource 0)] }
  config := { maxDecisions := 10 }

/-- **A reservation may provide what a condition asks for and support another one.** With both
conditions of the lamp supported, the second reservation provides what the first condition asks for,
but it is the first reservation that supports it. -/
theorem exists_provides_not_supportedBy : Model.load torch = .ok torchTask.model ∧
    ∃ s, torchTask.Reachable s ∧
      s.chronicle.SupportedBy ⟨0⟩ 0 (.reservation ⟨0⟩ ⟨0⟩) ∧
      s.chronicle.SupportedBy ⟨0⟩ 1 (.reservation ⟨0⟩ ⟨1⟩) ∧
      s.Provides ⟨0⟩ (.named "battery") 1 ⟨0⟩ ⟨1⟩ ∧
      ¬ ∀ id i resource reservation,
        s.chronicle.SupportedBy id i (.reservation resource reservation) ↔
          ∃ target amount, s.chronicle.Asks id i (.uses target amount) ∧
            s.Provides id target amount resource reservation := by
  obtain ⟨s₀, s₁, s₂, s, hs₀, hs₁, hs₂, hs, hds₀, hds₁, hds₂, hfirst, hsecond, hasks, hprovides⟩ :
      ∃ s₀ s₁ s₂ s : PartialPlan, torchTask.start = .done () s₀ ∧
        torchTask.apply (.insertGoal 0 0) s₀ = .done () s₁ ∧
        torchTask.apply (.reserve ⟨0⟩ 0 ⟨0⟩ 1) s₁ = .done () s₂ ∧
        torchTask.apply (.reserve ⟨0⟩ 1 ⟨0⟩ 1) s₂ = .done () s ∧
        torchTask.repairs s₀ (.openGoal 0) = .ok [.insertGoal 0 0] ∧
        torchTask.repairs s₁ (.openCondition ⟨0⟩ 0) = .ok [.reserve ⟨0⟩ 0 ⟨0⟩ 1] ∧
        torchTask.repairs s₂ (.openCondition ⟨0⟩ 1) = .ok [.reserve ⟨0⟩ 1 ⟨0⟩ 1] ∧
        s.chronicle.SupportedBy ⟨0⟩ 0 (.reservation ⟨0⟩ ⟨0⟩) ∧
        s.chronicle.SupportedBy ⟨0⟩ 1 (.reservation ⟨0⟩ ⟨1⟩) ∧
        s.chronicle.Asks ⟨0⟩ 0 (.uses (.named "battery") 1) ∧
        s.Provides ⟨0⟩ (.named "battery") 1 ⟨0⟩ ⟨1⟩ := by
    -- the plan is computed, and the four facts about it are read off
    refine ⟨_, _, _, _, rfl, rfl, rfl, rfl, rfl, rfl, rfl, ?_, ?_, ?_, ?_⟩
    · exact ⟨_, rfl, rfl⟩
    · exact ⟨_, rfl, rfl⟩
    · exact ⟨_, _, _, rfl, rfl, rfl, rfl⟩
    · exact ⟨_, _, _, rfl, rfl, Eq.refl "battery", rfl, rfl, rfl, rfl, rfl, rfl⟩
  -- each decision is the only repair of the flaw that is next
  have hreachable : torchTask.Reachable s :=
    .apply (.apply (.apply (.start hs₀) hds₀ (by simp) rfl hs₁) hds₁ (by simp) rfl hs₂)
      hds₂ (by simp) rfl hs
  refine ⟨rfl, s, hreachable, hfirst, hsecond, hprovides, fun hiff => ?_⟩
  -- the place of the first condition is taken by the first reservation
  have hshared := (hiff _ _ _ _).mpr ⟨_, _, hasks, hprovides⟩
  exact absurd (hshared.unique hfirst) (by simp)

end TemporalPlanning
