import TemporalPlanning.Proofs.Search.Embedding

/-!
# Following a solution

An edit leads to something if it does not get stuck and, unless it is forbidden, ends with it
(`Edit.Leads`). The steps of decisions lead from a partial plan that is part of a solution to
another one that is, if what they create has a place in the solution and if the dates and the
bindings of the solution are as they say. Above all, a token that fills a gap can be placed there
(`PartialPlan.EmbedsIn.place_leads`).
-/

namespace TemporalPlanning

namespace Edit

variable {α β : Type} {s : PartialPlan}

/-- An edit does not get stuck, and if it succeeds then `Q` holds of its result. -/
def Leads (e : Edit α) (s : PartialPlan) (Q : α → PartialPlan → Prop) : Prop :=
  (∀ why s', e s ≠ .stuck why s') ∧ ∀ a s', e s = .done a s' → Q a s'

variable {Q R : α → PartialPlan → Prop} {e : Edit α}

/-- An edit that does not get stuck leads to where it ends. -/
theorem Unstuck.leads (h : e.Unstuck s) : e.Leads s fun a s' => e s = .done a s' :=
  ⟨h, fun _ _ hs => hs⟩

theorem Leads.mono (h : e.Leads s Q) (hQR : ∀ a s', Q a s' → R a s') : e.Leads s R :=
  ⟨h.1, fun a s' hs => hQR a s' (h.2 a s' hs)⟩

/-- Edits that lead on one after the other lead on together. The second may rely on what the first
has led to, which is how a decision is followed edit by edit. -/
theorem Leads.bind {f : α → Edit β} {R : β → PartialPlan → Prop} (h : e.Leads s Q)
    (hf : ∀ a s', Q a s' → (f a).Leads s' R) : (e >>= f).Leads s R := by
  constructor
  · intro why s' hs
    rcases bind_eq_stuck.mp hs with hs | ⟨a, s₁, h₁, hs⟩
    · exact h.1 why s' hs
    · exact (hf a s₁ (h.2 a s₁ h₁)).1 why s' hs
  · intro b s' hs
    obtain ⟨a, s₁, h₁, hs⟩ := bind_eq_done.mp hs
    exact (hf a s₁ (h.2 a s₁ h₁)).2 b s' hs

theorem Leads.pure {a : α} (h : Q a s) : (Pure.pure a : Edit α).Leads s Q := by
  refine ⟨fun why s' => pure_ne_stuck, fun a' s' hs => ?_⟩
  obtain ⟨rfl, rfl⟩ := pure_eq_done.mp hs
  exact h

/-- An edit leads on from a partial plan as one does that acts in the same way there. -/
theorem Leads.congr {e' : Edit α} (h : e s = e' s) (he : e'.Leads s Q) : e.Leads s Q := by
  rw [Leads, h]
  exact he

variable {m : Model} {facts : Nat → Nat} {horizon : Option Int} {date : Timepoint → Int}
  {id : TimelineId} {state : String} {position : Nat}

/-! ### Steps that are not stuck -/

/-- A token is placed where its dates fit: the constraints of its interval and of its neighbours
hold of given dates, so that none of them is refused. -/
theorem place_leads (h : s.Ready m facts horizon) (hm : m.WellFormed)
    (hsize : s.network.size + 1 < Network.sizeLimit) {host : Timeline}
    (hhost : s.chronicle.timeline id = .ok host) {template : StateTemplate}
    (htemplate : host.template? state = some template) (hdate : s.network.Fits date)
    (hfit : (Token.planned id state s.chronicle.tokens.size template.conditions.length).FitsAt
      s.chronicle host position horizon date) :
    (place id state position).Leads s fun token s' =>
      place id state position s = .done token s' := by
  refine Unstuck.leads (.bind ?_ fun token s₁ h₁ => .bind ?_ fun _ _ _ => unstuck_pure)
  · -- its interval fits into the network
    have hstart := hfit.start
    have hstop := hfit.stop
    have hduration := hfit.duration
    have hn : 2 * s.chronicle.tokens.size + 1 = s.network.size := h.size_eq.symm
    have hn' : 2 * s.chronicle.tokens.size + 2 = s.network.size + 1 := by omega
    rw [show (Token.planned id state s.chronicle.tokens.size template.conditions.length).state =
      state from rfl, Timeline.durationOf_eq htemplate] at hduration
    simp only [Token.planned, hn, hn'] at hstart hstop hduration
    refine .congr (instantiate_apply hhost htemplate) (.bind ?_ fun _ _ _ => unstuck_onChronicle)
    exact h.steady.unstuck_addInterval hsize hdate hstart hstop hduration
  · -- and so do the orders with its neighbours
    refine .of_allowed fun hallowed => ?_
    obtain ⟨host', template', created, st₁, fits₁⟩ := instantiate_eq_done h hm hsize h₁
    obtain rfl := created.token_eq
    obtain rfl := Chronicle.timeline_inj hhost created.timeline_eq
    obtain rfl := Option.some.inj (htemplate.symm.trans created.template_eq)
    obtain ⟨t, host', previous, next, ht, hhost', hinsertable, hprevious, hnext⟩ :=
      hallowed.insert
    refine .congr (insert_apply ht hhost' hinsertable hprevious hnext)
      (.bind ?_ fun _ _ _ => unstuck_onChronicle)
    rw [created.chronicle_eq] at ht hhost'
    obtain rfl := Chronicle.token_inj (Chronicle.token_addToken.mpr (.inr ⟨rfl, rfl⟩)) ht
    obtain rfl := Chronicle.timeline_inj hhost hhost'
    have hfits : s₁.network.Fits date :=
      (fits₁ date).mpr ⟨hdate, hfit.start, hfit.stop, hfit.duration⟩
    -- the order of the solution is what is posted between the neighbours
    have hholds := (holds_neighbourly_iff h.chronicle created.chronicle_eq hhost hprevious
      hnext).mpr ⟨hfit.previous, hfit.next⟩
    exact st₁.unstuck_postAll within_neighbourly hfits hholds

/-- A fact is added where it follows on. None of the constraints is refused, because the given dates
obey them all, and nothing else can stop the edit. -/
theorem addFact_leads (h : s.Ready m facts horizon) (hm : m.WellFormed)
    (hsize : s.network.size + 1 < Network.sizeLimit) {host : Timeline}
    (hhost : s.chronicle.timeline id = .ok host) (hdate : s.network.Fits date)
    (hfit : (Token.given id state s.chronicle.tokens.size host.tail?.isSome).FollowsOn
      s.chronicle host horizon date) :
    (addFact id state).Leads s fun fact s' => addFact id state s = .done fact s' := by
  refine Unstuck.leads (.of_allowed fun hallowed => ?_)
  -- whether the fact may be added was not asked so far, only whether it would fit
  obtain ⟨host', previous, hhost', hfacts, hprevious⟩ := hallowed.addFact
  obtain rfl := Chronicle.timeline_inj hhost hhost'
  have hn : 2 * s.chronicle.tokens.size + 1 = s.network.size := h.size_eq.symm
  have hn' : 2 * s.chronicle.tokens.size + 2 = s.network.size + 1 := by omega
  have hstart := hfit.start
  have hstop := hfit.stop
  have hduration := hfit.duration
  simp only [Token.given, hn, hn'] at hstart hstop hduration
  refine .congr (addFact_apply hhost hfacts hprevious) (.bind ?_ fun r s₁ h₁ => .bind ?_
    fun _ _ _ => .bind unstuck_onChronicle fun _ _ _ => .bind unstuck_onChronicle
      fun _ _ _ => unstuck_pure)
  · exact h.steady.unstuck_addInterval hsize hdate hstart hstop hduration
  · obtain ⟨rfl, st₁, -, -, -, fits₁⟩ :=
      h.steady.addInterval hsize (h.chronicle.durationOf_isValid hm hhost state) h₁
    -- its interval is there, and its start is all that is left to be posted
    refine st₁.unstuck_post ((fits₁ date).mpr ⟨hdate, hstart, hstop, hduration⟩) ?_
    rw [Constraint.holds_exactly, sub_eq_zero]
    have hfirst := hfit.first
    have hprevious' := hfit.previous
    simp only [Token.given, hn] at hfirst hprevious'
    -- the first fact starts at the origin, any other where the one before stops
    revert hprevious hprevious' hfirst
    cases host.tail? with
    | none =>
      cases previous with
      | none => exact fun _ hfirst _ => hfirst rfl
      | some u => exact fun hlooks => hlooks.elim
    | some q =>
      cases previous with
      | none => exact fun hlooks => hlooks.elim
      | some u => exact fun hlooks _ hprevious => (hprevious q u rfl hlooks).symm

end Edit

namespace Task

variable {s : PartialPlan} {horizon : Option Int} {date : Timepoint → Int}

open Edit

/-- A token is linked to its supplier if dates relate them. A link is refused by the network only,
and the dates show that the network has room for what the link posts. -/
theorem linkTo_leads (h : s.network.Steady horizon) (hdate : s.network.Fits date)
    {consumer supplier : TokenId} {i : Nat} {relation : Relation}
    (hholds : ∀ t u, s.chronicle.token consumer = .ok t → s.chronicle.token supplier = .ok u →
      relation.Holds date u t) :
    (linkTo consumer i supplier relation).Leads s fun u s' =>
      linkTo consumer i supplier relation s = .done u s' := by
  refine Unstuck.leads (.of_allowed fun hallowed => ?_)
  obtain ⟨t, u, ht, hu, hadjacent⟩ := linkTo_lookup hallowed
  -- only the constraints can be refused, and those hold on the dates
  have hpost : (postAll (relation.constraints u t)).Unstuck s :=
    h.unstuck_postAll Relation.within_constraints hdate
      (Relation.holds_constraints.mpr (hholds t u ht hu))
  refine .congr (linkTo_apply ht hu hadjacent)
    (hpost.bind fun _ _ _ => .bind ?_ fun _ _ _ => unstuck_onChronicle)
  unfold lockFor
  split
  · split
    · exact unstuck_onChronicle
    · exact unstuck_pure
  · exact unstuck_pure
  · exact unstuck_pure

/-- A reservation posts no constraint and does not get stuck. -/
theorem reserveFor_leads {id : TokenId} {i amount : Nat} {resource : ResourceId} :
    (reserveFor id i resource amount).Leads s fun reservation s' =>
      reserveFor id i resource amount s = .done reservation s' :=
  Unstuck.leads <| .bind unstuck_query fun _ _ _ => .bind unstuck_onBook fun _ _ _ =>
    .bind unstuck_onChronicle fun _ _ _ => unstuck_pure

/-- Serving a goal posts no constraint and does not get stuck. -/
theorem serveGoal_leads {task : Task} {goal : Nat} {id : TokenId} :
    (task.serveGoal goal id).Leads s fun u s' => task.serveGoal goal id s = .done u s' := by
  refine Unstuck.leads (.bind unstuck_onChronicle fun _ s₁ _ => ?_)
  unfold sealGoal
  split
  · exact .bind unstuck_query fun _ _ _ => unstuck_onChronicle
  · exact unstuck_pure

end Task

namespace PartialPlan

variable {task : Task} {m : Model} {facts : Nat → Nat} {s s' : PartialPlan} {p : Plan}
  {place : TokenId → Nat} {date : Timepoint → Int} {horizon : Option Int} {id : TimelineId}
  {host : Timeline} {position k : Nat} {pt : PlanToken}

/-! ### Notes in a partial plan -/

/-- What is noted down in a partial plan leaves it within a solution, if new supports agree with the
solution. Links, reservations and the supports of goals are noted so; they move no token and date no
timepoint. -/
theorem EmbedsIn.note (h : s.EmbedsIn m p place date) (hfits : s'.network.Fits date)
    (hresources : s'.reservations.resources = s.reservations.resources)
    (htimelines : s'.chronicle.timelines = s.chronicle.timelines)
    (htokens : ∀ q t', s'.chronicle.token q = .ok t' → ∃ t, s.chronicle.token q = .ok t ∧
      t'.timeline = t.timeline ∧ t'.state = t.state ∧ t'.start = t.start ∧ t'.stop = t.stop)
    (hadjacent : ∀ q i r, s'.chronicle.SupportedBy q i (.token r) →
      s.chronicle.SupportedBy q i (.token r) ∨
        ∀ state, s.chronicle.Asks q i (.follows state) → place q = place r + 1)
    (hbound : ∀ q i resource reservation,
      s'.chronicle.SupportedBy q i (.reservation resource reservation) →
        s.chronicle.SupportedBy q i (.reservation resource reservation) ∨
          ∀ t host, s.chronicle.token q = .ok t → s.chronicle.timeline t.timeline = .ok host →
            ∃ pt r, p.At host.name (place q) pt ∧ s.reservations.resource? resource = some r ∧
              pt.bindings[i]? = some (.named r.name)) : s'.EmbedsIn m p place date := by
  -- timelines and tokens are what they were, so only the new supports are left to compare
  have hhosts : ∀ id host, s'.chronicle.timeline id = .ok host ↔
      s.chronicle.timeline id = .ok host := by
    intro id host
    rw [Chronicle.timeline, Chronicle.timeline, htimelines]
  -- states and timelines are the same, so that a token asks for nothing new
  have hasks : ∀ q i condition, s'.chronicle.Asks q i condition →
      s.chronicle.Asks q i condition := by
    rintro q i condition ⟨t', host, template, ht', hhost, htemplate, hi⟩
    obtain ⟨t, ht, htl, hstate, -⟩ := htokens q t' ht'
    rw [htl, hhosts] at hhost
    rw [hstate] at htemplate
    exact ⟨t, host, template, ht, hhost, htemplate, hi⟩
  exact {
    fits := hfits
    origin := h.origin
    timelines := by
      rw [htimelines]
      exact h.timelines
    resources := by
      rw [hresources]
      exact h.resources
    unsealed := fun id host hhost => h.unsealed id host ((hhosts id host).mp hhost)
    token := fun q t' host ht' hhost => by
      obtain ⟨t, ht, htl, hstate, hstart, hstop⟩ := htokens q t' ht'
      rw [htl, hhosts] at hhost
      obtain ⟨pt, hpt, hmirrors⟩ := h.token q t host ht hhost
      exact ⟨pt, hpt, by rw [hstate]; exact hmirrors.state, by rw [hstart]; exact hmirrors.start,
        by rw [hstop]; exact hmirrors.stop⟩
    increasing := fun id host hhost => h.increasing id host ((hhosts id host).mp hhost)
    facts := fun id host j q hhost => h.facts id host j q ((hhosts id host).mp hhost)
    -- an old support is adjacent already, a new one by assumption
    adjacent := fun q i state r hq hsupport => by
      rcases hadjacent q i r hsupport with hold | hnew
      · exact h.adjacent q i state r (hasks _ _ _ hq) hold
      · exact hnew state (hasks _ _ _ hq)
    -- the same for what is bound; the resource has kept its name
    bound := fun q i resource reservation t' host hsupport ht' hhost => by
      obtain ⟨t, ht, htl, -⟩ := htokens q t' ht'
      rw [htl, hhosts] at hhost
      have hresource : s'.reservations.resource? resource = s.reservations.resource? resource := by
        rw [ReservationBook.resource?, ReservationBook.resource?, hresources]
      rw [hresource]
      rcases hbound q i resource reservation hsupport with hold | hnew
      · exact h.bound q i resource reservation t host hold ht hhost
      · exact hnew t host ht hhost }

/-- Only the chronicle, the resources and the solutions of the network matter. -/
theorem EmbedsIn.congr (h : s.EmbedsIn m p place date) (hfits : s'.network.Fits date)
    (hresources : s'.reservations.resources = s.reservations.resources)
    (hchron : s'.chronicle = s.chronicle) : s'.EmbedsIn m p place date :=
  h.note hfits hresources (by rw [hchron])
    (fun q t ht => ⟨t, hchron ▸ ht, rfl, rfl, rfl, rfl⟩)
    (fun q i r hsupport => .inl (hchron ▸ hsupport))
    fun q i resource reservation hsupport => .inl (hchron ▸ hsupport)

/-- Linking a token to its supplier stays within the solution. Places and dates stay as they are; a
condition on the predecessor asks in addition that the two are neighbours in the solution. -/
theorem EmbedsIn.linkTo (h : s.EmbedsIn m p place date) (hsteady : s.network.Steady horizon)
    {consumer supplier : TokenId} {i : Nat} {relation : Relation}
    (hholds : ∀ t u, s.chronicle.token consumer = .ok t → s.chronicle.token supplier = .ok u →
      relation.Holds date u t)
    (hadjacent : ∀ state, s.chronicle.Asks consumer i (.follows state) →
      place consumer = place supplier + 1) :
    (Task.linkTo consumer i supplier relation).Leads s fun _ s' =>
      s'.EmbedsIn m p place date ∧ s'.network.Steady horizon := by
  refine (Task.linkTo_leads hsteady h.fits hholds).mono fun _ s' hs => ?_
  obtain ⟨t, u, linked, hsteady', hfits⟩ := Task.linkTo_eq_done hsteady hs
  have ht := linked.consumer_eq
  have hchron := linked.chronicle_eq
  -- the only new support is that of the link, which the solution has as well
  refine ⟨h.note ((hfits date).mpr ⟨h.fits, hholds t u ht linked.supplier_eq⟩)
    (by rw [reservations, linked.book_eq]) ?_ ?_ ?_ ?_, hsteady'⟩
  · -- noting a link alters tokens, but no timeline
    rw [hchron]
    cases relation <;> rfl
  · intro q t' ht'
    rw [hchron] at ht'
    obtain ⟨t, ht, hstate⟩ := Chronicle.token_linkTo.mp ht'
    refine ⟨t, ht, ?_⟩
    split at hstate <;> subst hstate <;> exact ⟨rfl, rfl, rfl, rfl⟩
  · -- the new support is adjacent if it is to be
    intro q n r hsupport
    rw [hchron, Chronicle.supportedBy_linkTo ht linked.free] at hsupport
    refine hsupport.imp id ?_
    rintro ⟨rfl, rfl, heq⟩ state hasks
    obtain rfl := Support.token.inj heq
    exact hadjacent state hasks
  · intro q n resource reservation hsupport
    rw [hchron, Chronicle.supportedBy_linkTo ht linked.free] at hsupport
    exact hsupport.imp id fun hnew => absurd hnew.2.2 (by simp)

/-- Reserving what the solution binds stays within the solution. No date changes, since a
reservation does not constrain the network by itself. -/
theorem EmbedsIn.reserveFor (h : s.EmbedsIn m p place date) {q : TokenId} {i amount : Nat}
    {resource : ResourceId}
    (hbound : ∀ t host, s.chronicle.token q = .ok t → s.chronicle.timeline t.timeline = .ok host →
      ∃ pt r, p.At host.name (place q) pt ∧ s.reservations.resource? resource = some r ∧
        pt.bindings[i]? = some (.named r.name)) :
    (Task.reserveFor q i resource amount).Leads s fun _ s' => s'.EmbedsIn m p place date := by
  refine Task.reserveFor_leads.mono fun reservation s' hs => ?_
  obtain ⟨t, ht, hfree, rfl, hnet, hbook, hchron⟩ := Task.reserveFor_eq_done hs
  -- the only new support is the reservation, of the resource that the solution binds
  refine h.note (by rw [network, hnet]; exact h.fits) (by rw [hbook]; rfl) (by rw [hchron]; rfl)
    ?_ ?_ ?_
  · intro q' t' ht'
    rw [hchron] at ht'
    obtain ⟨t, ht, hstate⟩ := Chronicle.token_updateToken.mp ht'
    refine ⟨t, ht, ?_⟩
    split at hstate <;> subst hstate <;> exact ⟨rfl, rfl, rfl, rfl⟩
  · intro q' n r hsupport
    rw [hchron, Chronicle.supportedBy_setSupport ht hfree] at hsupport
    exact hsupport.imp id fun hnew => absurd hnew.2.2 (by simp)
  · intro q' n resource' reservation hsupport
    rw [hchron, Chronicle.supportedBy_setSupport ht hfree] at hsupport
    refine hsupport.imp id ?_
    rintro ⟨rfl, rfl, heq⟩
    obtain ⟨rfl, -⟩ := Support.reservation.inj heq
    exact hbound

/-- Serving a goal stays within the solution, if goals need not come last. The token of a goal is
recorded beside the tokens, and no clause of the embedding looks at that record. -/
theorem EmbedsIn.serveGoal (h : s.EmbedsIn m p place date) (hfinal : task.config.finalGoals = false)
    {goal : Nat} {q : TokenId} :
    (task.serveGoal goal q).Leads s fun _ s' => s'.EmbedsIn m p place date := by
  refine Task.serveGoal_leads.mono fun _ s' hs => ?_
  obtain ⟨-, hnet, hbook, hchron | ⟨hsealed, -⟩⟩ := Task.serveGoal_eq_done hs
  · refine h.note (by rw [network, hnet]; exact h.fits) (by rw [reservations, hbook])
      (by rw [hchron]; rfl) (fun q t ht => ?_) (fun q i r hsupport => .inl ?_)
      fun q i resource reservation hsupport => .inl ?_
    · rw [hchron] at ht
      exact ⟨t, ht, rfl, rfl, rfl, rfl⟩
    · rw [hchron] at hsupport
      exact hsupport
    · rw [hchron] at hsupport
      exact hsupport
  · -- where goals need not come last no timeline is sealed
    rw [hfinal] at hsealed
    exact absurd hsealed (by simp)

/-- Posting a constraint that the solution obeys stays within it. -/
theorem EmbedsIn.post (h : s.EmbedsIn m p place date) (hsteady : s.network.Steady horizon)
    {c : Constraint} (hc : c.Within Duration.limit) (hholds : c.Holds date) :
    (Edit.post c).Leads s fun _ s' => s'.EmbedsIn m p place date := by
  refine (hsteady.unstuck_post h.fits hholds).leads.mono fun _ s' hs => ?_
  obtain ⟨-, -, hbook, hchron, hfits⟩ := hsteady.post hc hs
  exact h.congr ((hfits date).mpr ⟨h.fits, hholds⟩) (by rw [reservations, hbook])
    (by rw [chronicle, hchron])

/-- Confirming reservations stays within the solution. -/
theorem EmbedsIn.commitAll (h : s.EmbedsIn m p place date) (ids : List ReservationId) :
    (Task.commitAll ids).Leads s fun _ s' => s'.EmbedsIn m p place date := by
  induction ids generalizing s with
  | nil => exact .pure h
  | cons id ids ih =>
    refine Edit.unstuck_onBook.leads.bind fun _ s' hs => ih ?_
    obtain ⟨hnet, hchron, hbook⟩ := Edit.commit_eq_done hs
    exact h.congr (by rw [network, hnet]; exact h.fits) (by rw [hbook]; rfl)
      (by rw [chronicle, hchron])

end PartialPlan

/-! ### New tokens -/

/-- Dates with those of a token of a plan for the interval of the `n`-th token. -/
def datesWith (date : Timepoint → Int) (n : Nat) (pt : PlanToken) : Timepoint → Int :=
  Function.update (Function.update date ⟨2 * n + 1⟩ pt.start) ⟨2 * n + 2⟩ pt.stop

section Dates

variable {date : Timepoint → Int} {n : Nat} {pt : PlanToken}

/-- A new token starts when its token in the solution does. -/
@[simp] theorem datesWith_start : datesWith date n pt ⟨2 * n + 1⟩ = pt.start := by
  rw [datesWith, Function.update_of_ne (by simp), Function.update_self]

@[simp] theorem datesWith_stop : datesWith date n pt ⟨2 * n + 2⟩ = pt.stop :=
  Function.update_self _ _ _

theorem datesWith_of_lt {t : Timepoint} (h : t.index < 2 * n + 1) :
    datesWith date n pt t = date t := by
  have hstart : t ≠ ⟨2 * n + 1⟩ := fun heq => by
    rw [heq] at h
    exact lt_irrefl _ h
  have hstop : t ≠ ⟨2 * n + 2⟩ := fun heq => by
    rw [heq] at h
    exact absurd h (by simp)
  rw [datesWith, Function.update_of_ne hstop, Function.update_of_ne hstart]

end Dates

namespace PartialPlan

variable {task : Task} {m : Model} {facts : Nat → Nat} {s s' : PartialPlan} {p : Plan}
  {place : TokenId → Nat} {date : Timepoint → Int} {horizon : Option Int} {id : TimelineId}
  {host : Timeline} {position k : Nat} {pt : PlanToken}

/-- The tokens that exist already keep their places when a new token gets one. -/
theorem update_token {q : TokenId} {t : Token} (ht : s.chronicle.token q = .ok t) :
    Function.update place ⟨s.chronicle.tokens.size⟩ k q = place q :=
  Function.update_of_ne (Chronicle.ne_next_of_token ht) _ _

theorem update_place (hwf : s.chronicle.WellFormed m facts)
    (hhost : s.chronicle.timeline id = .ok host) {q : TokenId} (hq : q ∈ host.sequence) :
    Function.update place ⟨s.chronicle.tokens.size⟩ k q = place q := by
  obtain ⟨u, hu, -⟩ := (hwf.sequence id host hhost).2 q hq
  exact update_token hu

/-- The tokens that exist already keep their places and dates. -/
theorem datesWith_token (place : TokenId → Nat) (k : Nat) (date : Timepoint → Int)
    (pt : PlanToken) (hwf : s.chronicle.WellFormed m facts) {q : TokenId} {t : Token}
    (ht : s.chronicle.token q = .ok t) :
    Function.update place ⟨s.chronicle.tokens.size⟩ k q = place q ∧
      datesWith date s.chronicle.tokens.size pt t.start = date t.start ∧
      datesWith date s.chronicle.tokens.size pt t.stop = date t.stop := by
  obtain ⟨hstart, hstop⟩ := hwf.timepoints_lt ht
  exact ⟨update_token ht, datesWith_of_lt hstart, datesWith_of_lt hstop⟩

/-- The network before does not know the new dates. -/
theorem fits_datesWith (pt : PlanToken) (h : s.Ready m facts horizon)
    (hdate : s.network.Fits date) :
    s.network.Fits (datesWith date s.chronicle.tokens.size pt) := by
  refine hdate.congr h.steady.closed.square fun t ht => datesWith_of_lt ?_
  rw [Network.contains_iff, h.size_eq] at ht
  exact ht

/-- A sequence stays in order when a token enters a gap. -/
theorem EmbedsIn.increasing_enter (h : s.EmbedsIn m p place date)
    (hwf : s.chronicle.WellFormed m facts) (hhost : s.chronicle.timeline id = .ok host)
    (hgap : Gap place host.sequence position k) (origin : TokenOrigin) :
    Increasing (Function.update place ⟨s.chronicle.tokens.size⟩ k)
      (host.withToken origin position ⟨s.chronicle.tokens.size⟩).sequence := by
  have hordered : Increasing place host.sequence := h.increasing _ _ hhost
  refine hordered.insertIdx ?_ fun q => update_place hwf hhost
  rw [Function.update_self]
  exact hgap

/-- The facts stay in their places when a token enters a gap. A planned token enters behind all
facts; a fact enters directly behind them and takes the next place of the solution. -/
theorem EmbedsIn.facts_enter (h : s.EmbedsIn m p place date) (hwf : s.chronicle.WellFormed m facts)
    (hhost : s.chronicle.timeline id = .ok host) (hgap : Gap place host.sequence position k)
    {origin : TokenOrigin} (hfact : origin = .fact → position = host.facts ∧ k = host.facts)
    {j : Nat} {q : TokenId}
    (hj : j < (host.withToken origin position ⟨s.chronicle.tokens.size⟩).facts)
    (hq : (host.withToken origin position ⟨s.chronicle.tokens.size⟩).sequence[j]? = some q) :
    Function.update place ⟨s.chronicle.tokens.size⟩ k q = j := by
  have hle := h.facts_le_of_gap hwf hhost hgap
  simp only [Timeline.withToken, List.getElem?_insertIdx] at hj hq
  -- the facts that were there stand in front of the gap
  have hfront : j < host.facts → Function.update place ⟨s.chronicle.tokens.size⟩ k q = j := by
    intro hlt
    rw [if_pos (by omega)] at hq
    rw [update_place hwf hhost (List.mem_of_getElem? hq)]
    exact h.facts _ _ j q hhost hlt hq
  cases origin with
  | planned => exact hfront hj
  -- a new fact is placed just behind the others, as the plan's next fact is
  | fact =>
    obtain ⟨rfl, rfl⟩ := hfact rfl
    rcases Nat.lt_or_eq_of_le (Nat.le_of_lt_succ hj) with hlt | rfl
    · exact hfront hlt
    · rw [if_neg (lt_irrefl _), if_pos rfl, if_pos hgap.le_length] at hq
      obtain rfl := Option.some.inj hq
      exact Function.update_self _ _ _

/-- The new token has its place and its dates in the solution, and the tokens that were there keep
theirs. -/
theorem EmbedsIn.token_enter (h : s.EmbedsIn m p place date) (hwf : s.chronicle.WellFormed m facts)
    {t : Token} (htime : t.start = ⟨2 * s.chronicle.tokens.size + 1⟩ ∧
      t.stop = ⟨2 * s.chronicle.tokens.size + 2⟩)
    (hhost : s.chronicle.timeline t.timeline = .ok host) (hpt : p.At host.name k pt)
    (hstate : pt.state = t.state) {q : TokenId} {u : Token} {host' : Timeline}
    (hu : (s.chronicle.enter t position).token q = .ok u)
    (hhost' : (s.chronicle.enter t position).timeline u.timeline = .ok host') :
    ∃ qt, p.At host'.name (Function.update place ⟨s.chronicle.tokens.size⟩ k q) qt ∧
      qt.Mirrors (datesWith date s.chronicle.tokens.size pt) u := by
  obtain ⟨g, hg, hname, -⟩ := Chronicle.exists_timeline_of_enter hhost hhost'
  rw [hname]
  rcases Chronicle.token_enter.mp hu with hold | ⟨rfl, rfl⟩
  · obtain ⟨hplace, hstart, hstop⟩ := datesWith_token place k date pt hwf hold
    obtain ⟨qt, hqt, hmirrors⟩ := h.token q u g hold hg
    rw [hplace]
    exact ⟨qt, hqt, hmirrors.state, hmirrors.start.trans hstart.symm,
      hmirrors.stop.trans hstop.symm⟩
  · -- the new token stands where the plan's token does, and its dates were chosen so
    obtain rfl := Chronicle.timeline_inj hhost hg
    rw [Function.update_self]
    exact ⟨pt, hpt, hstate, by rw [htime.1, datesWith_start], by rw [htime.2, datesWith_stop]⟩

/-- A new token has no supports yet, so that what is right behind its supporter was there before,
and so was the supporter. -/
theorem EmbedsIn.adjacent_enter (h : s.EmbedsIn m p place date)
    (hwf : s.chronicle.WellFormed m facts) (hserved : s.chronicle.AllServed s.reservations)
    {t : Token} (hblank : t.IsBlank) (hgrows : s.chronicle.Grows (s.chronicle.enter t position))
    {q r : TokenId} {i : Nat} {state : String}
    (hasks : (s.chronicle.enter t position).Asks q i (.follows state))
    (hsupport : (s.chronicle.enter t position).SupportedBy q i (.token r)) :
    Function.update place ⟨s.chronicle.tokens.size⟩ k q =
      Function.update place ⟨s.chronicle.tokens.size⟩ k r + 1 := by
  have hold := (Chronicle.supportedBy_enter hblank).mp hsupport
  obtain ⟨u, hu⟩ := hold.exists_token
  have hasks' := hasks.of_grows hwf hgrows hu
  obtain ⟨v, hv⟩ := hserved.exists_token hasks' hold
  rw [update_token hu, update_token hv]
  exact h.adjacent q i state r hasks' hold

/-- What the tokens have reserved is still what the solution binds in their places. The new token
has reserved nothing, and the old ones keep their places. -/
theorem EmbedsIn.bound_enter (h : s.EmbedsIn m p place date) {t : Token} (hblank : t.IsBlank)
    (hhost : s.chronicle.timeline t.timeline = .ok host) {q : TokenId} {i : Nat}
    {resource : ResourceId} {reservation : ReservationId} {u : Token} {host' : Timeline}
    (hsupport : (s.chronicle.enter t position).SupportedBy q i (.reservation resource reservation))
    (hu : (s.chronicle.enter t position).token q = .ok u)
    (hhost' : (s.chronicle.enter t position).timeline u.timeline = .ok host') :
    ∃ qt r, p.At host'.name (Function.update place ⟨s.chronicle.tokens.size⟩ k q) qt ∧
      s.reservations.resource? resource = some r ∧ qt.bindings[i]? = some (.named r.name) := by
  obtain ⟨g, hg, hname, -⟩ := Chronicle.exists_timeline_of_enter hhost hhost'
  have hold := (Chronicle.supportedBy_enter hblank).mp hsupport
  obtain ⟨v, hv⟩ := hold.exists_token
  obtain rfl := Chronicle.token_inj (Chronicle.token_enter.mpr (.inl hv)) hu
  rw [hname, update_token hv]
  exact h.bound q i resource reservation _ g hold hv hg

/-- A token that enters a gap stays within the solution. It gets the free place of the solution and
the dates that the solution has there; what was there before keeps both. -/
theorem EmbedsIn.enter (h : s.EmbedsIn m p place date) (hwf : s.chronicle.WellFormed m facts)
    (hserved : s.chronicle.AllServed s.reservations) {t : Token}
    (htime : t.start = ⟨2 * s.chronicle.tokens.size + 1⟩ ∧
      t.stop = ⟨2 * s.chronicle.tokens.size + 2⟩)
    (hblank : t.IsBlank) (hhost : s.chronicle.timeline t.timeline = .ok host)
    (hgap : Gap place host.sequence position k)
    (hunlocked : ∀ q u, host.sequence[position]? = some q → s.chronicle.token q = .ok u →
      u.locked = false)
    (hpt : p.At host.name k pt) (hstate : pt.state = t.state)
    (hfact : t.origin = .fact → position = host.facts ∧ k = host.facts)
    (hbook : s'.book = s.book) (hchron : s'.chronicle = s.chronicle.enter t position)
    (hfits : s'.network.Fits (datesWith date s.chronicle.tokens.size pt)) :
    s'.EmbedsIn m p (Function.update place ⟨s.chronicle.tokens.size⟩ k)
      (datesWith date s.chronicle.tokens.size pt) where
  fits := hfits
  origin := (datesWith_of_lt (t := .origin) (Nat.succ_pos _)).trans h.origin
  timelines := by
    rw [hchron, Chronicle.enter, Chronicle.updateTimeline, Array.size_modify]
    exact h.timelines
  resources := by
    rw [PartialPlan.reservations_congr hbook]
    exact h.resources
  -- each clause is the old one for old tokens and timelines, and a matter of the gap for the new
  -- token
  unsealed := by
    rw [hchron]
    intro id host' hhost'
    obtain ⟨g, hg, -, hsealed, -⟩ := Chronicle.exists_timeline_of_enter hhost hhost'
    exact hsealed.trans (h.unsealed id g hg)
  token := by
    rw [hchron]
    exact fun _ _ _ => h.token_enter hwf htime hhost hpt hstate
  increasing := by
    rw [hchron]
    intro id host' hhost'
    obtain ⟨g, hg, -, -, rfl | ⟨rfl, rfl, rfl⟩⟩ := Chronicle.exists_timeline_of_enter hhost hhost'
    · -- the sequence is the old one, and its tokens keep their places
      intro i j q r hij hq hr
      rw [update_place hwf hg (List.mem_of_getElem? hq),
        update_place hwf hg (List.mem_of_getElem? hr)]
      exact h.increasing id _ hg i j q r hij hq hr
    · exact h.increasing_enter hwf hhost hgap t.origin
  facts := by
    rw [hchron]
    intro id host' j q hhost' hj hq
    obtain ⟨g, hg, -, -, rfl | ⟨rfl, rfl, rfl⟩⟩ := Chronicle.exists_timeline_of_enter hhost hhost'
    · rw [update_place hwf hg (List.mem_of_getElem? hq)]
      exact h.facts id _ j q hg hj hq
    · exact h.facts_enter hwf hhost hgap hfact hj hq
  adjacent := by
    rw [hchron]
    exact fun _ _ _ _ =>
      h.adjacent_enter hwf hserved hblank (Chronicle.grows_enter hhost hunlocked)
  bound := by
    rw [hchron, PartialPlan.reservations_congr hbook]
    exact fun _ _ _ _ _ _ => h.bound_enter hblank hhost

/-- The dates of a token of a solution lie within the horizon. The two new timepoints get the dates
of the token, so that these lie in the window of every timepoint. -/
theorem EmbedsIn.holds_window (h : s.EmbedsIn m p place date) (hp : p.Within horizon)
    {name : String} (hpt : p.At name k pt) :
    (Constraint.mk .origin ⟨2 * s.chronicle.tokens.size + 1⟩ 0 horizon).Holds
        (datesWith date s.chronicle.tokens.size pt) ∧
      (Constraint.mk .origin ⟨2 * s.chronicle.tokens.size + 2⟩ 0 horizon).Holds
        (datesWith date s.chronicle.tokens.size pt) := by
  have horigin : datesWith date s.chronicle.tokens.size pt .origin = 0 :=
    (datesWith_of_lt (t := .origin) (Nat.succ_pos _)).trans h.origin
  simp only [Constraint.Holds, horigin, datesWith_start, datesWith_stop, sub_zero]
  exact hpt.window hp

/-- A token of a solution lasts as its timeline allows. The verifier has compared its duration with
that of the state, on the declaration that the timeline of the partial plan has too. -/
theorem EmbedsIn.contains_duration (h : s.EmbedsIn m p place date) (hm : m.WellFormed)
    (hp : p.Solves m horizon) (hwf : s.chronicle.WellFormed m facts)
    (hhost : s.chronicle.timeline id = .ok host) (hpt : p.At host.name k pt) :
    (host.durationOf pt.state).contains
      (datesWith date s.chronicle.tokens.size pt ⟨2 * s.chronicle.tokens.size + 2⟩ -
        datesWith date s.chronicle.tokens.size pt ⟨2 * s.chronicle.tokens.size + 1⟩) := by
  obtain ⟨d, hd, hname, -, hstates, -⟩ := h.exists_declared hwf hhost
  rw [hname] at hpt
  have hduration := (hp.obeys hm hd hpt).duration
  rw [TimelineDef.durationOf, TimelineDef.template?, ← hstates] at hduration
  rw [datesWith_start, datesWith_stop]
  exact hduration

/-- The tokens of a timeline have the dates of their places, also among the dates with those of a
new token. -/
theorem EmbedsIn.exists_neighbour (h : s.EmbedsIn m p place date)
    (hwf : s.chronicle.WellFormed m facts) (hhost : s.chronicle.timeline id = .ok host)
    (pt : PlanToken) {q : TokenId} {u : Token} (hq : q ∈ host.sequence)
    (hu : s.chronicle.token q = .ok u) :
    ∃ qt, p.At host.name (place q) qt ∧
      datesWith date s.chronicle.tokens.size pt u.start = qt.start ∧
      datesWith date s.chronicle.tokens.size pt u.stop = qt.stop := by
  obtain ⟨v, hv, htl⟩ := (hwf.sequence id host hhost).2 q hq
  obtain rfl := Chronicle.token_inj hu hv
  obtain ⟨qt, hqt, hmirrors⟩ := h.token q u host hu (by rw [htl]; exact hhost)
  obtain ⟨-, hstart, hstop⟩ := datesWith_token place 0 date pt hwf hu
  exact ⟨qt, hqt, hstart.trans hmirrors.start.symm, hstop.trans hmirrors.stop.symm⟩

/-- With the dates of the solution, a planned token that falls into a gap fits there. Its neighbours
in the sequence have places on either side of the gap, and the solution's tokens are in order there.
-/
theorem EmbedsIn.fitsAt_planned (h : s.EmbedsIn m p place date)
    (hwf : s.chronicle.WellFormed m facts) (hm : m.WellFormed) (hp : p.Solves m horizon)
    (hhost : s.chronicle.timeline id = .ok host) (hgap : Gap place host.sequence position k)
    (hpt : p.At host.name k pt) (n : Nat) :
    (Token.planned id pt.state s.chronicle.tokens.size n).FitsAt s.chronicle host position horizon
      (datesWith date s.chronicle.tokens.size pt) := by
  obtain ⟨hstart, hstop⟩ := h.holds_window hp.within hpt
  -- both neighbours have places of the solution, whose tokens do not overlap
  refine ⟨hstart, hstop, h.contains_duration hm hp hwf hhost hpt, fun q u hq hu => ?_,
    fun q u hq hu => ?_⟩
  · cases position with
    | zero => exact absurd hq (by simp [Chronicle.before?])
    | succ l =>
      obtain ⟨qt, hqt, -, hdate⟩ := h.exists_neighbour hwf hhost pt (List.mem_of_getElem? hq) hu
      rw [hdate, Token.planned, datesWith_start]
      exact hp.stop_le_start hm hqt hpt (hgap.before l q hq (Nat.lt_succ_self l))
  · obtain ⟨qt, hqt, hdate, -⟩ := h.exists_neighbour hwf hhost pt (List.mem_of_getElem? hq) hu
    rw [hdate, Token.planned, datesWith_stop]
    exact hp.stop_le_start hm hpt hqt (hgap.behind position q hq (Nat.le_refl _))

/-- A token of a state on a timeline has its place in a solution, and the place falls into a gap. -/
def Fills (p : Plan) (s : PartialPlan) (place : TokenId → Nat) (id : TimelineId) (state : String)
    (position k : Nat) (pt : PlanToken) : Prop :=
  ∃ host, s.chronicle.timeline id = .ok host ∧ host.className.isSome ∧
    Gap place host.sequence position k ∧ p.At host.name k pt ∧ pt.state = state

/-- A token that fills a gap can be placed there, and stays within the solution: its dates in the
solution fit the network, and the timeline takes it. -/
theorem EmbedsIn.place_leads (h : s.EmbedsIn task.model p place date)
    (hs : s.Sound task task.factCount) (hm : task.model.WellFormed)
    (hp : p.Solves task.model task.config.horizon)
    (hsize : s.network.size + 1 < Network.sizeLimit) {state : String}
    (hfills : s.Fills p place id state position k pt) :
    (Edit.place id state position).Leads s fun token s' =>
      token = ⟨s.chronicle.tokens.size⟩ ∧ s'.network.Steady task.config.horizon ∧
      s.chronicle.Grows s'.chronicle ∧
      s'.EmbedsIn task.model p (Function.update place ⟨s.chronicle.tokens.size⟩ k)
        (datesWith date s.chronicle.tokens.size pt) ∧
      ∃ n, s'.chronicle =
        s.chronicle.enter (.planned id state s.chronicle.tokens.size n) position := by
  obtain ⟨host, hhost, hclass, hgap, hpt, rfl⟩ := hfills
  have hwf := hs.ready.chronicle
  have htakes := h.takes hs hhost hgap
  obtain ⟨template, htemplate⟩ := h.exists_template hs hm hp hhost hclass hpt
  have hfit := h.fitsAt_planned hwf hm hp hhost hgap hpt template.conditions.length
  -- the new timepoints get the dates of the solution, the old ones keep theirs
  have hdate := fits_datesWith pt hs.ready h.fits
  refine (Edit.place_leads hs.ready hm hsize hhost htemplate hdate hfit).mono
    fun token s' hdone => ?_
  -- the insertion is accepted on those dates, and its result is read off the edit
  obtain ⟨host', template', placed, hsteady, hfits⟩ := Edit.place_eq_done hs.ready hm hsize hdone
  obtain rfl := Chronicle.timeline_inj hhost placed.timeline_eq
  obtain rfl := Option.some.inj (htemplate.symm.trans placed.template_eq)
  refine ⟨placed.token_eq, hsteady, placed.grows, ?_, _, placed.chronicle_eq⟩
  exact h.enter (t := .planned id pt.state s.chronicle.tokens.size template.conditions.length) hwf
    hs.served ⟨rfl, rfl⟩ (Token.isBlank_planned _ _ _ _) hhost hgap htakes.unlocked hpt rfl
    (fun hfact => by cases hfact) placed.book_eq placed.chronicle_eq
    ((hfits _).mpr ⟨hdate, hfit⟩)

end PartialPlan

end TemporalPlanning
