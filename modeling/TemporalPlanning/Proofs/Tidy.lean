import TemporalPlanning.Proofs.Footprint

/-!
# Tidy partial plans

A partial plan is tidy (`PartialPlan.Tidy`) if it has two timepoints for each token, its chronicle
is well formed, every support fits the condition that it was noted down for, every reservation
supports one condition, and planned tokens are locked for a cause. Every step of a decision that
succeeds keeps a partial plan tidy, whatever the network looks like, provided that what the decision
proposes fits: a token for a goal is of the goal's state, a supplier is one that the condition
means, a resource is one that the condition means.
-/

namespace TemporalPlanning

/-- A tidy partial plan for a model, with `facts i` facts on the declared timeline `i`. -/
structure PartialPlan.Tidy (m : Model) (facts : Nat → Nat) (s : PartialPlan) : Prop where
  size_eq : s.network.size = 2 * s.chronicle.tokens.size + 1
  chronicle : s.chronicle.WellFormed m facts
  served : s.chronicle.AllServed s.reservations
  accounted : s.chronicle.Accounted s.reservations
  locked : s.chronicle.LockedForCause

/-- Reservations stay accounted for when an open condition is supported by a new one. Its number has
never been used, so that it cannot be in a second slot; the old ones stay in the slots where they
were. -/
theorem Chronicle.Accounted.reserve {c : Chronicle} {b : ReservationBook} (h : c.Accounted b)
    {t : Token} {k : Nat} {r : Reservation} (ht : c.token r.token = .ok t)
    (hfree : t.supports[k]? = some none) (hfresh : ∀ id i resource,
      ¬ c.SupportedBy id i (.reservation resource ⟨b.reservations.size⟩)) :
    (c.setSupport r.token k (some (.reservation r.resource ⟨b.reservations.size⟩))).Accounted
      (b.addReservation r) := by
  -- an old reservation keeps its holder, and the new one is held by the condition that was open
  refine ⟨fun id r' hr' => ?_, fun id id' i i' resource resource' reservation hs hs' => ?_⟩
  · simp only [Chronicle.supportedBy_setSupport ht hfree]
    rcases ReservationBook.reservation?_addReservation.mp hr' with hold | ⟨rfl, rfl⟩
    · obtain ⟨i, hi⟩ := h.reserved id r' hold
      exact ⟨i, .inl hi⟩
    · exact ⟨k, .inr ⟨rfl, rfl, rfl⟩⟩
  · rw [Chronicle.supportedBy_setSupport ht hfree] at hs hs'
    -- each of the two supports is old or the new one: only the mixed cases have to be excluded
    rcases hs with hs | ⟨rfl, rfl, heq⟩ <;> rcases hs' with hs' | ⟨rfl, rfl, heq'⟩
    · exact h.unshared id id' i i' resource resource' reservation hs hs'
    · -- nothing was supported by the new reservation before
      obtain ⟨-, rfl⟩ := Support.reservation.inj heq'
      exact absurd hs (hfresh _ _ _)
    · obtain ⟨-, rfl⟩ := Support.reservation.inj heq
      exact absurd hs' (hfresh _ _ _)
    · exact ⟨rfl, rfl⟩

namespace PartialPlan

variable {task : Task} {m : Model} {facts : Nat → Nat} {s s' : PartialPlan}

/-- A reservation supports a condition that asks for it. It is one of the token that reserves, and
the times are those of that token. -/
theorem Tidy.exists_asks (h : s.Tidy m facts) {id : ReservationId} {r : Reservation}
    (hr : s.reservations.reservation? id = some r) :
    ∃ i target res t, s.chronicle.Asks r.token i (.uses target r.amount) ∧
      s.chronicle.SupportedBy r.token i (.reservation r.resource id) ∧
      s.reservations.resource? r.resource = some res ∧ res.Matches target ∧
      s.chronicle.token r.token = .ok t ∧ r.start = t.start ∧ r.stop = t.stop := by
  obtain ⟨i, hsupport⟩ := h.accounted.reserved id r hr
  obtain ⟨condition, hasks⟩ := h.chronicle.asks_of_supportedBy hsupport
  have hserves := h.served _ _ _ _ hasks hsupport
  -- a reservation serves conditions on resources only, and it repeats what its condition says
  cases condition with
  | uses target amount =>
    obtain ⟨⟨res, hres, hmatch⟩, t, r', ht, hr', -, -, hstart, hstop, rfl⟩ := hserves
    obtain rfl := Option.some.inj (hr.symm.trans hr')
    exact ⟨i, target, res, t, hasks, hsupport, hres, hmatch, ht, hstart, hstop⟩
  | follows state => exact hserves.elim
  | metBy target state => exact hserves.elim
  | during target state => exact hserves.elim

/-- A reservation that supports something exists. The slot names the reservation and its resource,
and both are as the condition of the slot asks. -/
theorem Tidy.exists_reservation (h : s.Tidy m facts) {id : TokenId} {i : Nat}
    {resource : ResourceId} {reservation : ReservationId}
    (hsupport : s.chronicle.SupportedBy id i (.reservation resource reservation)) :
    ∃ target amount res r, s.chronicle.Asks id i (.uses target amount) ∧
      s.reservations.resource? resource = some res ∧ res.Matches target ∧
      s.reservations.reservation? reservation = some r ∧ r.resource = resource ∧
      r.token = id ∧ r.amount = amount := by
  obtain ⟨condition, hasks⟩ := h.chronicle.asks_of_supportedBy hsupport
  have hserves := h.served _ _ _ _ hasks hsupport
  -- the other kinds of conditions are not served by reservations
  cases condition with
  | uses target amount =>
    obtain ⟨⟨res, hres, hmatch⟩, t, r, ht, hr, hresource, htoken, -, -, hamount⟩ := hserves
    exact ⟨target, amount, res, r, hasks, hres, hmatch, hr, hresource, htoken, hamount⟩
  | follows state => exact hserves.elim
  | metBy target state => exact hserves.elim
  | during target state => exact hserves.elim

/-! ### Tokens -/

/-- A token that enters where its timeline takes it keeps a partial plan tidy. The token has no
supports yet, so that nothing new is served or reserved; only its place has to be accounted for. -/
theorem Tidy.enter (h : s.Tidy m facts) {t : Token} {position : Nat}
    (hblank : t.IsBlank) (hlocked : t.origin = .planned → t.locked = false)
    (hgrows : s.chronicle.Grows (s.chronicle.enter t position))
    (hsize : s'.network.size = s.network.size + 2) (hbook : s'.book = s.book)
    (hchron : s'.chronicle = s.chronicle.enter t position)
    {facts' : Nat → Nat} (hwf : s'.chronicle.WellFormed m facts') : s'.Tidy m facts' := by
  have hres : s'.reservations = s.reservations := PartialPlan.reservations_congr hbook
  -- a token brings two timepoints; a blank one has no supports, so that nothing else is new
  refine ⟨?_, hwf, ?_, ?_, ?_⟩
  · rw [hsize, h.size_eq, hchron]
    simp only [Chronicle.enter, Chronicle.updateTimeline, Chronicle.addToken, Array.size_push]
    omega
  · rw [hchron, hres]
    exact h.served.enter h.chronicle hgrows hblank
  · rw [hchron, hres]
    exact h.accounted.enter hblank
  · rw [hchron]
    exact h.locked.enter hgrows hblank hlocked

/-- Placing a token keeps a partial plan tidy. It is planned, unlocked and without supports, and its
place was checked by the edit. -/
theorem Tidy.place (h : s.Tidy m facts) {id : TimelineId} {state : String} {position : Nat}
    {token : TokenId} (hs : Edit.place id state position s = .done token s') : s'.Tidy m facts := by
  obtain ⟨host, template, placed, -⟩ := Edit.place_footprint h.size_eq hs
  refine h.enter (Token.isBlank_planned _ _ _ _) (fun _ => rfl)
    (placed.chronicle_eq ▸ placed.grows) placed.size_eq placed.book_eq placed.chronicle_eq ?_
  -- the new token is planned, so the facts in front stay as they are
  have hwf := h.chronicle.enter (t := .planned id state s.chronicle.tokens.size
    template.conditions.length) placed.timeline_eq placed.takes.le_length ⟨rfl, rfl⟩
    (fun hfact => by cases hfact)
    (fun _ => ⟨placed.takes.facts_le, template, placed.template_eq, List.length_replicate⟩)
    (fun hfact => by cases hfact)
  rw [placed.chronicle_eq]
  simpa only [Token.planned, reduceCtorEq, false_and, if_false] using hwf

/-- Adding a fact of a declared timeline keeps a partial plan tidy. The timeline holds nothing but
facts at that point, or the edit would have been a fault. -/
theorem Tidy.addFact (h : s.Tidy m facts) (hm : m.WellFormed) {f : GroundRef} (hf : f ∈ m.facts)
    {fact : TokenId} (hs : Edit.addFact ⟨f.timeline⟩ f.state s = .done fact s') :
    s'.Tidy m (fun i => if i = f.timeline then facts i + 1 else facts i) := by
  obtain ⟨host, added, -⟩ := Edit.addFact_footprint h.size_eq hs
  have hhost := added.timeline_eq
  obtain ⟨d, hd, hdeclared⟩ := hm.facts f hf
  obtain ⟨host', hhost', -, hclass, hstates, -⟩ := h.chronicle.declared _ d hd
  obtain rfl := Chronicle.timeline_inj hhost hhost'
  -- the timeline of a fact is a declared one, with the states of its declaration
  have hgiven : (Token.given ⟨f.timeline⟩ f.state s.chronicle.tokens.size
      host.tail?.isSome).IsGiven host := by
    refine ⟨rfl, fun hsome => ?_⟩
    rw [hclass] at hsome
    rw [Timeline.template?, hstates]
    exact hdeclared hsome
  -- a fact is no planned token, and all that is asked of a planned one is void
  refine h.enter (Token.isBlank_given _ _ _ _) (fun hplanned => by cases hplanned)
    (Chronicle.grows_enter hhost fun k u hk _ => by simp at hk) added.size_eq added.book_eq
    added.chronicle_eq ?_
  have hwf := h.chronicle.enter (t := .given ⟨f.timeline⟩ f.state s.chronicle.tokens.size
    host.tail?.isSome) hhost (Nat.le_refl _) ⟨rfl, rfl⟩
    (fun _ => ⟨added.facts_eq.symm, added.facts_eq, hgiven⟩) (fun hplanned => by cases hplanned)
    (fun _ => (List.getElem?_eq_some_iff.mp hd).1)
  rw [added.chronicle_eq]
  simpa only [Token.given, true_and] using hwf

/-! ### Supports -/

/-- Noting something down that leaves the book alone keeps a partial plan tidy, if the new supports
fit. -/
theorem Tidy.note (h : s.Tidy m facts) (hsize : s'.network.size = s.network.size)
    (hbook : s'.book = s.book) (halike : s.chronicle.Alike s'.chronicle)
    (hgrows : s.chronicle.Grows s'.chronicle)
    (hsupports : ∀ id i support, s.chronicle.SupportedBy id i support →
      s'.chronicle.SupportedBy id i support)
    (new : ∀ id i support, s'.chronicle.SupportedBy id i support →
      s.chronicle.SupportedBy id i support ∨ ∃ p, support = .token p ∧
        ∀ condition, s'.chronicle.Asks id i condition →
          s'.chronicle.Serves s.reservations id condition support)
    (hlocked : s'.chronicle.LockedForCause) : s'.Tidy m facts := by
  have hwf := h.chronicle
  have hres : s'.reservations = s.reservations := PartialPlan.reservations_congr hbook
  -- served: an old support serves what it served, and a new one serves by assumption
  refine ⟨by rw [hsize, h.size_eq, halike.size_tokens], hwf.of_alike halike, ?_, ⟨?_, ?_⟩, hlocked⟩
  · rw [hres]
    refine h.served.grows hwf hgrows (.refl _) fun id i support hsupport => ?_
    rcases new id i support hsupport with hold | ⟨p, -, hnew⟩
    · exact .inl hold
    · exact .inr hnew
  · -- a reservation is held by the support that held it
    intro id r hr
    rw [hres] at hr
    obtain ⟨i, hi⟩ := h.accounted.reserved id r hr
    exact ⟨i, hsupports _ _ _ hi⟩
  · intro id id' i i' r r' reservation hs hs'
    -- what is new is a support by a token
    have old : ∀ {id i r}, s'.chronicle.SupportedBy id i (.reservation r reservation) →
        s.chronicle.SupportedBy id i (.reservation r reservation) := by
      intro id i r hs
      exact (new id i _ hs).resolve_right fun ⟨p, heq, _⟩ => absurd heq (by simp)
    exact h.accounted.unshared id id' i i' r r' reservation (old hs) (old hs')

/-- A supplier that stands right before a locked token serves its condition, and so does a supplier
on another timeline that the condition means. -/
theorem serves_linkTo (hwf : s.chronicle.WellFormed m facts) {consumer supplier : TokenId} {i : Nat}
    {relation : Relation} {condition : Condition} {t : Token} {b : ReservationBook}
    (ht : s.chronicle.token consumer = .ok t) (hrelation : condition.relation? = some relation)
    (hsupplies : s.chronicle.Supplies supplier condition)
    (hadjacent : relation = .adjacent → s.chronicle.predecessor? consumer = .ok (some supplier)) :
    (s.chronicle.linkTo consumer i supplier relation).Serves b consumer condition
      (.token supplier) := by
  have hgrows : s.chronicle.Grows (s.chronicle.linkTo consumer i supplier relation) :=
    Chronicle.grows_linkTo
  cases condition with
  | uses target amount => cases hrelation
  | metBy target state | during target state =>
    refine Chronicle.Serves.grows ?_ hgrows (.refl _)
    exact hsupplies
  | follows state =>
    -- the link itself locks the token, as the relation is adjacent
    obtain rfl := Option.some.inj hrelation
    obtain ⟨w, hw, hstate⟩ := hsupplies
    obtain ⟨w', hw', -, hstate', -⟩ := hgrows.token supplier w hw
    exact ⟨Chronicle.alike_linkTo.standsBefore (hwf.standsBefore_of_predecessor? (hadjacent rfl)),
      ⟨_, Chronicle.token_linkTo.mpr ⟨t, ht, if_pos rfl⟩, rfl⟩, w', hw', hstate'.trans hstate⟩

/-- Linking a token locks it only for a condition on its predecessor. That is the cause which the
lock is recorded for, and the slot of that condition is the one filled here. -/
theorem lockedForCause_linkTo (h : s.chronicle.LockedForCause) {consumer supplier : TokenId}
    {i : Nat} {relation : Relation} {condition : Condition} {t : Token}
    (ht : s.chronicle.token consumer = .ok t) (hfree : t.supports[i]? = some none)
    (hasks : s.chronicle.Asks consumer i condition)
    (hrelation : condition.relation? = some relation) :
    (s.chronicle.linkTo consumer i supplier relation).LockedForCause := by
  have hgrows : s.chronicle.Grows (s.chronicle.linkTo consumer i supplier relation) :=
    Chronicle.grows_linkTo
  refine Chronicle.LockedForCause.grows h hgrows
    (fun id k support hs => (Chronicle.supportedBy_linkTo ht hfree).mpr (.inl hs)) ?_
  -- a token is locked by this link, or it was locked before for a cause that is still there
  intro id t' ht' horigin hlocked
  obtain ⟨v, hv, rfl⟩ := Chronicle.token_linkTo.mp ht'
  by_cases hid : id = consumer ∧ relation = .adjacent
  · obtain ⟨rfl, rfl⟩ := hid
    -- only a condition on the predecessor makes neighbours
    cases condition with
    | follows state =>
      exact .inr ⟨i, state, supplier, hasks.grows hgrows,
        (Chronicle.supportedBy_linkTo ht hfree).mpr (.inr ⟨rfl, rfl, rfl⟩)⟩
    | uses target amount => cases hrelation
    | metBy target state => cases hrelation
    | during target state => cases hrelation
  · refine .inl ⟨v, hv, ?_⟩
    split at horigin
    · next heq =>
      rw [if_pos heq] at hlocked
      have hne : relation ≠ .adjacent := fun hr => hid ⟨heq, hr⟩
      exact ⟨horigin, by simpa [hne] using hlocked⟩
    · next hne =>
      rw [if_neg hne] at hlocked
      exact ⟨horigin, hlocked⟩

/-- Linking a token to a supplier that its condition means keeps a partial plan tidy. The slot was
free, the supplier is of the right kind, and for adjacent tokens the lock gets its cause at the same
time. -/
theorem Tidy.linkTo (h : s.Tidy m facts) {consumer supplier : TokenId} {i : Nat}
    {relation : Relation} {condition : Condition}
    (hasks : s.chronicle.Asks consumer i condition)
    (hrelation : condition.relation? = some relation)
    (hsupplies : s.chronicle.Supplies supplier condition) {u : Unit}
    (hs : Task.linkTo consumer i supplier relation s = .done u s') : s'.Tidy m facts := by
  obtain ⟨t, p, linked, -⟩ := Task.linkTo_footprint hs
  have ht := linked.consumer_eq
  have hchron := linked.chronicle_eq
  have hgrows : s.chronicle.Grows s'.chronicle := hchron ▸ Chronicle.grows_linkTo
  have hsupport : ∀ id k support, s'.chronicle.SupportedBy id k support ↔
      s.chronicle.SupportedBy id k support ∨
        (id = consumer ∧ k = i ∧ support = .token supplier) := by
    intro id k support
    rw [hchron]
    exact Chronicle.supportedBy_linkTo ht linked.free
  -- the link leaves the network and the book as they are, so that only its support is to be
  -- examined
  refine h.note linked.size_eq linked.book_eq (hchron ▸ Chronicle.alike_linkTo) hgrows
    (fun id k support hs => (hsupport _ _ _).mpr (.inl hs)) (fun id k support hs => ?_)
    (hchron ▸ lockedForCause_linkTo h.locked ht linked.free hasks hrelation)
  -- the one new support is by a token that the condition means
  rcases (hsupport _ _ _).mp hs with hold | ⟨rfl, rfl, rfl⟩
  · exact .inl hold
  · refine .inr ⟨supplier, rfl, fun condition' hasks' => ?_⟩
    obtain rfl := hasks.unique (hasks'.of_grows h.chronicle hgrows ht)
    rw [hchron]
    exact serves_linkTo h.chronicle ht hrelation hsupplies linked.adjacent

/-! ### Reservations -/

/-- Reserving a resource that a condition means keeps a partial plan tidy. The new reservation and
the slot that refers to it are made together, so that neither is ever without the other between two
edits of the search. -/
theorem Tidy.reserveFor (h : s.Tidy m facts) {id : TokenId} {i amount : Nat}
    {target : ObjectRef} {resource : ResourceId} {res : Resource}
    (hasks : s.chronicle.Asks id i (.uses target amount))
    (hres : s.reservations.resource? resource = some res) (hmatch : res.Matches target)
    {reservation : ReservationId}
    (hs : Task.reserveFor id i resource amount s = .done reservation s') : s'.Tidy m facts := by
  have hwf := h.chronicle
  obtain ⟨t, ht, hfree, rfl, hnet, hbook, hchron⟩ := Task.reserveFor_eq_done hs
  have hnetwork : s'.network = s.network := PartialPlan.network_congr hnet
  have halike : s.chronicle.Alike s'.chronicle := hchron ▸ Chronicle.alike_setSupport _ _ _
  have hgrows : s.chronicle.Grows s'.chronicle := hchron ▸ Chronicle.grows_setSupport _ _ _
  have hgrows' : s.reservations.Grows s'.reservations :=
    hbook ▸ ReservationBook.grows_addReservation _
  have hsupport : ∀ id' k support, s'.chronicle.SupportedBy id' k support ↔
      s.chronicle.SupportedBy id' k support ∨ (id' = id ∧ k = i ∧
        support = .reservation resource ⟨s.reservations.reservations.size⟩) := by
    intro id' k support
    rw [hchron]
    exact Chronicle.supportedBy_setSupport ht hfree
  -- the book has no reservation of the new number yet, so that no condition relies on it
  have hfresh : ∀ id' k resource',
      ¬ s.chronicle.SupportedBy id' k
        (.reservation resource' ⟨s.reservations.reservations.size⟩) := by
    intro id' k resource' hs'
    obtain ⟨_, _, _, r, -, -, -, hr, -⟩ := h.exists_reservation hs'
    exact absurd (ReservationBook.index_lt_of_reservation hr) (lt_irrefl _)
  -- the new reservation repeats the timepoints of its token, and is not yet confirmed
  have hreservation : s'.reservations.reservation? ⟨s.reservations.reservations.size⟩ =
      some ⟨resource, id, t.start, t.stop, amount, .tentative⟩ := by
    rw [hbook]
    exact ReservationBook.reservation?_addReservation.mpr (.inr ⟨rfl, rfl⟩)
  -- no token is added, so that what remains is: served, accounted for, and locked for cause
  refine ⟨by rw [hnetwork, h.size_eq, halike.size_tokens], hwf.of_alike halike, ?_, ?_, ?_⟩
  · refine h.served.grows hwf hgrows hgrows' fun id' k support hs' => ?_
    rcases (hsupport _ _ _).mp hs' with hold | ⟨rfl, rfl, rfl⟩
    · exact .inl hold
    · -- the new support is what the one condition in its place asks for
      refine .inr fun condition hasks' => ?_
      obtain rfl := hasks.unique (hasks'.of_grows hwf hgrows ht)
      obtain ⟨t', ht', -, -, hstart, hstop, -⟩ := hgrows.token id' t ht
      exact ⟨⟨res, hgrows'.resource _ _ hres, hmatch⟩, t', _, ht', hreservation, rfl, rfl,
        hstart.symm, hstop.symm, rfl⟩
  · rw [hbook, hchron]
    exact h.accounted.reserve (r := ⟨resource, id, t.start, t.stop, amount, .tentative⟩) ht hfree
      hfresh
  · -- a reservation locks no token
    refine Chronicle.LockedForCause.grows h.locked hgrows
      (fun id' k support hs' => (hsupport _ _ _).mpr (.inl hs'))
      fun id' t' ht' horigin hlocked => ?_
    obtain ⟨v, hv, -, -, -, -, horigin', -⟩ := halike.symm.token ht'
    rw [hchron] at ht'
    exact .inl ⟨v, hv, horigin'.trans horigin,
      (Chronicle.locked_setSupport hv ht').symm.trans hlocked⟩

/-- Confirming a reservation adds nothing to a book. The status is the only field that changes. -/
theorem commit_grows {id : ReservationId} {u : Unit} (hs : Edit.commit id s = .done u s') :
    s.reservations.Grows s'.reservations ∧
      s'.reservations.resource? = s.reservations.resource? ∧
      ∀ id' r, s'.reservations.reservation? id' = some r →
        ∃ status, s.reservations.reservation? id' = some { r with status } := by
  obtain ⟨-, -, hbook⟩ := Edit.commit_eq_done hs
  rw [hbook]
  refine ⟨ReservationBook.grows_setStatus _ _, rfl, fun id' r hr => ?_⟩
  obtain ⟨r', hr', rfl⟩ := ReservationBook.reservation?_setStatus.mp hr
  exact ⟨r'.status, by split <;> exact hr'⟩

/-- Confirming a reservation keeps a partial plan tidy. None of the clauses speaks of the status,
since within a decision reservations are still tentative. -/
theorem Tidy.commit (h : s.Tidy m facts) {id : ReservationId} {u : Unit}
    (hs : Edit.commit id s = .done u s') : s'.Tidy m facts := by
  obtain ⟨hnet, hchron, -⟩ := Edit.commit_eq_done hs
  obtain ⟨hgrows, -, hreservation⟩ := commit_grows hs
  have hnetwork : s'.network = s.network := PartialPlan.network_congr hnet
  have hchronicle : s'.chronicle = s.chronicle := PartialPlan.chronicle_congr hchron
  -- the book has the same reservations as before, but for the status of one
  refine ⟨?_, ?_, ?_, ⟨fun id r hr => ?_, ?_⟩, ?_⟩ <;> rw [hchronicle]
  · rw [hnetwork, h.size_eq]
  · exact h.chronicle
  · exact h.served.grows h.chronicle (.refl _) hgrows fun _ _ _ hs => .inl hs
  · obtain ⟨status, hr⟩ := hreservation id r hr
    exact h.accounted.reserved id { r with status } hr
  · exact h.accounted.unshared
  · exact h.locked

/-! ### Goals -/

/-- Sealing a timeline keeps a partial plan tidy. A seal says where tokens may come from now on, and
nothing about those that are there. -/
theorem Tidy.setSealed (h : s.Tidy m facts) (hnet : s'.net = s.net) (hbook : s'.book = s.book)
    {timeline : TimelineId} {sealed : Bool}
    (hchron : s'.chronicle = s.chronicle.setSealed timeline sealed) : s'.Tidy m facts := by
  have hsupport : s'.chronicle.SupportedBy = s.chronicle.SupportedBy := by
    rw [hchron]
    rfl
  -- the seal is no support, so every slot keeps its own
  refine h.note (by rw [network, hnet]) hbook (hchron ▸ Chronicle.alike_setSealed _ _)
    (hchron ▸ Chronicle.grows_setSealed) (fun _ _ _ hs => by rwa [hsupport])
    (fun _ _ _ hs => .inl (by rwa [hsupport] at hs)) ?_
  rw [hchron]
  exact Chronicle.LockedForCause.grows h.locked Chronicle.grows_setSealed (fun _ _ _ hs => hs)
    fun _ t ht horigin hlocked => .inl ⟨t, ht, horigin, hlocked⟩

/-- Noting down the token of a goal keeps a partial plan tidy. The token is of the timeline and the
state that the goal asks for, which is all that is recorded about it. -/
theorem Tidy.setGoalSupport (h : s.Tidy m facts) {g : Nat} {goal : GroundRef} {id : TokenId}
    {t : Token} (hgoal : m.goals[g]? = some goal) (ht : s.chronicle.token id = .ok t)
    (htl : t.timeline = ⟨goal.timeline⟩) (hstate : t.state = goal.state) (hnet : s'.net = s.net)
    (hbook : s'.book = s.book) (hchron : s'.chronicle = s.chronicle.setGoalSupport g (some id)) :
    s'.Tidy m facts := by
  have hres : s'.reservations = s.reservations := PartialPlan.reservations_congr hbook
  -- of a tidy plan only the well-formedness speaks of goals
  refine ⟨?_, ?_, ?_, ?_, ?_⟩ <;> rw [hchron]
  · rw [network, hnet]
    exact h.size_eq
  · exact h.chronicle.setGoalSupport hgoal ht htl hstate
  · rw [hres]
    exact h.served.grows h.chronicle Chronicle.grows_setGoalSupport (.refl _)
      fun _ _ _ hs => .inl hs
  · rw [hres]
    exact ⟨h.accounted.reserved, h.accounted.unshared⟩
  · exact Chronicle.LockedForCause.grows h.locked Chronicle.grows_setGoalSupport
      (fun _ _ _ hs => hs) fun _ t ht horigin hlocked => .inl ⟨t, ht, horigin, hlocked⟩

/-- Serving a goal by a token of its timeline and state keeps a partial plan tidy. -/
theorem Tidy.serveGoal (h : s.Tidy task.model facts) {g : Nat} {goal : GroundRef} {id : TokenId}
    {t : Token} (hgoal : task.model.goals[g]? = some goal) (ht : s.chronicle.token id = .ok t)
    (htl : t.timeline = ⟨goal.timeline⟩) (hstate : t.state = goal.state) {u : Unit}
    (hs : task.serveGoal g id s = .done u s') : s'.Tidy task.model facts := by
  obtain ⟨-, hnet, hbook, hchron⟩ := Task.serveGoal_eq_done hs
  rcases hchron with hchron | ⟨-, timeline, hchron⟩
  · exact h.setGoalSupport hgoal ht htl hstate hnet hbook hchron
  · let s₁ : PartialPlan := ⟨s.net, s.book, .fresh (s.chronicle.setGoalSupport g (some id))⟩
    have hs₁ : s₁.Tidy task.model facts := h.setGoalSupport hgoal ht htl hstate rfl rfl rfl
    exact hs₁.setSealed hnet hbook hchron

/-! ### Orders and new objects -/

/-- Posting a constraint keeps a partial plan tidy. Only the number of timepoints is counted, and
that stays the same. -/
theorem Tidy.post (h : s.Tidy m facts) {c : Constraint} {u : Unit}
    (hs : Edit.post c s = .done u s') : s'.Tidy m facts := by
  obtain ⟨hsize, hbook, hchron⟩ := Edit.post_footprint hs
  have hchronicle : s'.chronicle = s.chronicle := PartialPlan.chronicle_congr hchron
  have hres : s'.reservations = s.reservations := PartialPlan.reservations_congr hbook
  -- a constraint adds no timepoint, and neither the chronicle nor the book knows of constraints
  refine ⟨?_, ?_, ?_, ?_, ?_⟩ <;> rw [hchronicle]
  · rw [hsize, h.size_eq]
  · exact h.chronicle
  · rw [hres]
    exact h.served
  · rw [hres]
    exact h.accounted
  · exact h.locked

/-- Creating a timeline for a class, under a new name, keeps a partial plan tidy. -/
theorem Tidy.addTimeline (h : s.Tidy m facts) {name : String} {className : Option String}
    {states : List StateTemplate} {synthesized : Bool}
    (hnew : ({ name, className, states, synthesized } : Timeline).Created m)
    (hname : ∀ id t, s.chronicle.timeline id = .ok t → t.name ≠ name) {id : TimelineId}
    (hs : Edit.addTimeline name className states synthesized s = .done id s') :
    s'.Tidy m facts ∧ s'.net = s.net ∧ s'.book = s.book ∧ s.chronicle.Grows s'.chronicle ∧
      s'.chronicle = s.chronicle.addTimeline { name, className, states, synthesized } ∧
      s'.chronicle.timeline id = .ok { name, className, states, synthesized } := by
  obtain ⟨chron, hchron, rfl⟩ := Edit.onChronicle_eq_done.mp hs
  obtain ⟨rfl, rfl⟩ := Prod.mk.inj (Except.ok.inj hchron)
  exact ⟨⟨h.size_eq, h.chronicle.addTimeline hnew rfl hname,
    h.served.grows h.chronicle Chronicle.grows_addTimeline (.refl _) fun _ _ _ hs => .inl hs,
    ⟨h.accounted.reserved, h.accounted.unshared⟩, h.locked.addTimeline⟩, rfl, rfl,
    Chronicle.grows_addTimeline, rfl, Chronicle.timeline_addTimeline.mpr (.inr ⟨rfl, rfl⟩)⟩

/-- Creating a resource keeps a partial plan tidy. No slot refers to it yet. -/
theorem Tidy.addResource (h : s.Tidy m facts) {new : Resource} {id : ResourceId}
    (hs : Edit.addResource new s = .done id s') :
    s'.Tidy m facts ∧ s'.net = s.net ∧ s'.chron = s.chron ∧
      s'.reservations = s.reservations.addResource new ∧
      s'.reservations.resource? id = some new := by
  obtain ⟨book, hbook, rfl⟩ := Edit.onBook_eq_done.mp hs
  obtain ⟨rfl, rfl⟩ := Prod.mk.inj (Except.ok.inj hbook)
  exact ⟨⟨h.size_eq, h.chronicle, h.served.grows h.chronicle (.refl _)
    (ReservationBook.grows_addResource _) fun _ _ _ hs => .inl hs,
    ⟨h.accounted.reserved, h.accounted.unshared⟩, h.locked⟩, rfl, rfl, rfl,
    ReservationBook.resource?_addResource.mpr (.inr ⟨rfl, rfl⟩)⟩

end PartialPlan

end TemporalPlanning
