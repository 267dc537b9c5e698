import TemporalPlanning.Proofs.Trail
import TemporalPlanning.Proofs.Chronicle.WellFormed

/-!
# Supports and dates

What a planned token asks for is served by what was noted down as its support: a condition on a
resource by a reservation that fits it, a condition on a predecessor by the token right before, to
which the token is locked, and a condition on another timeline by a token there
(`Chronicle.Serves`). Once served, a condition stays so, because a chronicle only grows
(`Chronicle.Serves.grows`) and nothing comes between a locked token and the one before it.

The dates of a solution respect a chronicle if every token lasts as long as its state allows, every
token ends before the next one on its timeline starts, and every token is related to those that
support it as its conditions say (`Chronicle.Respects`).
-/

namespace TemporalPlanning

/-- Whether a timeline is one that a reference means. -/
def Timeline.Matches (t : Timeline) : ObjectRef → Prop
  | .named name => t.name = name
  | .anyOf className => t.className = some className

/-- A timeline keeps matching. -/
theorem Timeline.Matches.congr {t t' : Timeline} {target : ObjectRef} (h : t.Matches target)
    (hname : t'.name = t.name) (hclass : t'.className = t.className) : t'.Matches target := by
  cases target with
  | named name => exact hname.trans h
  | anyOf className => exact hclass.trans h

/-- Whether a resource is one that a reference means. -/
def Resource.Matches (r : Resource) : ObjectRef → Prop
  | .named name => r.name = name
  | .anyOf className => r.className = className

/-- How the dates of a token have to fit those of the token that supports it. -/
def Relation.Holds (date : Timepoint → Int) (supplier consumer : Token) : Relation → Prop
  | .adjacent | .metBy => date supplier.stop = date consumer.start
  | .during => date supplier.start ≤ date consumer.start ∧ date consumer.stop ≤ date supplier.stop

/-- Whether two tokens are related in time depends on their timepoints only. -/
theorem Relation.Holds.congr {date : Timepoint → Int} {u u' t t' : Token} {relation : Relation}
    (h : relation.Holds date u t) (hu : u'.start = u.start ∧ u'.stop = u.stop)
    (ht : t'.start = t.start ∧ t'.stop = t.stop) : relation.Holds date u' t' := by
  unfold Relation.Holds at h ⊢
  rw [hu.1, hu.2, ht.1, ht.2]
  exact h

/-- The duration that a timeline allows a token of a state. -/
def Timeline.durationOf (t : Timeline) (state : String) : Duration :=
  ((t.template? state).map (·.duration)).getD .standard

/-- Two books of reservations, of which the second one has at least the resources and reservations
of the first. -/
structure ReservationBook.Grows (b b' : ReservationBook) : Prop where
  resource : ∀ id r, b.resource? id = some r → b'.resource? id = some r
  reservation : ∀ id r, b.reservation? id = some r →
    ∃ status, b'.reservation? id = some { r with status }

namespace ReservationBook

theorem Grows.refl (b : ReservationBook) : b.Grows b :=
  ⟨fun _ _ h => h, fun _ r h => ⟨r.status, h⟩⟩

end ReservationBook

namespace Chronicle

variable {c c' : Chronicle} {b b' : ReservationBook} {m : Model} {facts : Nat → Nat}

/-! ### Conditions and supports of tokens -/

/-- The state of a token has a condition in place `i`. -/
def Asks (c : Chronicle) (id : TokenId) (i : Nat) (condition : Condition) : Prop :=
  ∃ t host template, c.token id = .ok t ∧ c.timeline t.timeline = .ok host ∧
    host.template? t.state = some template ∧ template.conditions[i]? = some condition

/-- A support is noted down in place `i` of a token. -/
def SupportedBy (c : Chronicle) (id : TokenId) (i : Nat) (support : Support) : Prop :=
  ∃ t, c.token id = .ok t ∧ t.supports[i]? = some (some support)

/-- One token stands right before another one. -/
def StandsBefore (c : Chronicle) (p q : TokenId) : Prop :=
  ∃ id host j, c.timeline id = .ok host ∧ host.sequence[j]? = some p ∧
    host.sequence[j + 1]? = some q

/-- A support fits a condition of a token. -/
def Serves (c : Chronicle) (b : ReservationBook) (id : TokenId) : Condition → Support → Prop
  | .uses target amount, .reservation resource reservation =>
    (∃ r, b.resource? resource = some r ∧ r.Matches target) ∧
      ∃ t r, c.token id = .ok t ∧ b.reservation? reservation = some r ∧ r.resource = resource ∧
        r.token = id ∧ r.start = t.start ∧ r.stop = t.stop ∧ r.amount = amount
  | .follows state, .token p =>
    c.StandsBefore p id ∧ (∃ t, c.token id = .ok t ∧ t.locked) ∧
      ∃ u, c.token p = .ok u ∧ u.state = state
  | .metBy target state, .token p | .during target state, .token p =>
    ∃ u host, c.token p = .ok u ∧ u.state = state ∧ c.timeline u.timeline = .ok host ∧
      host.Matches target
  | _, _ => False

/-- A token is of the state that a condition wants, and on a timeline that the condition means. -/
def Supplies (c : Chronicle) (p : TokenId) : Condition → Prop
  | .uses _ _ => False
  | .follows state => ∃ u, c.token p = .ok u ∧ u.state = state
  | .metBy target state | .during target state =>
    ∃ u host, c.token p = .ok u ∧ u.state = state ∧ c.timeline u.timeline = .ok host ∧
      host.Matches target

theorem Supplies.exists_token {c : Chronicle} {p : TokenId} {condition : Condition}
    (h : c.Supplies p condition) : ∃ u, c.token p = .ok u := by
  cases condition with
  | uses target amount => exact h.elim
  | follows state => exact h.imp fun _ hu => hu.1
  | metBy target state | during target state => exact h.imp fun _ ⟨_, hu, _⟩ => hu

/-- Everything noted down as a support fits. -/
def AllServed (c : Chronicle) (b : ReservationBook) : Prop :=
  ∀ id i condition support, c.Asks id i condition → c.SupportedBy id i support →
    c.Serves b id condition support

/-- Every reservation supports one condition, and no two conditions share a reservation. -/
structure Accounted (c : Chronicle) (b : ReservationBook) : Prop where
  reserved : ∀ id r, b.reservation? id = some r →
    ∃ i, c.SupportedBy r.token i (.reservation r.resource id)
  unshared : ∀ id id' i i' r r' reservation, c.SupportedBy id i (.reservation r reservation) →
    c.SupportedBy id' i' (.reservation r' reservation) → id = id' ∧ i = i'

/-- A planned token is locked only for a condition on its predecessor. -/
def LockedForCause (c : Chronicle) : Prop :=
  ∀ id t, c.token id = .ok t → t.origin = .planned → t.locked →
    ∃ i state p, c.Asks id i (.follows state) ∧ c.SupportedBy id i (.token p)

/-! ### Growth -/

/-- Two chronicles, of which the second one has at least the tokens and timelines of the first, and
no token between a locked token and the one before it. -/
structure Grows (c c' : Chronicle) : Prop where
  token : ∀ id t, c.token id = .ok t → ∃ t', c'.token id = .ok t' ∧ t'.timeline = t.timeline ∧
    t'.state = t.state ∧ t'.start = t.start ∧ t'.stop = t.stop ∧ (t.locked → t'.locked)
  timeline : ∀ id h, c.timeline id = .ok h → ∃ h', c'.timeline id = .ok h' ∧ h'.name = h.name ∧
    h'.className = h.className ∧ h'.states = h.states
  standsBefore : ∀ p q t, c.token q = .ok t → t.locked → c.StandsBefore p q → c'.StandsBefore p q

theorem Grows.refl (c : Chronicle) : c.Grows c :=
  ⟨fun _ t h => ⟨t, h, rfl, rfl, rfl, rfl, id⟩, fun _ h hh => ⟨h, hh, rfl, rfl, rfl⟩,
    fun _ _ _ _ _ h => h⟩

/-- **A condition stays served.** What serves it, be it a reservation or a token, is still there and
still of the kind that the condition asks for; statuses and locks may change on the way. -/
theorem Serves.grows {id : TokenId} {condition : Condition} {support : Support}
    (h : c.Serves b id condition support) (hc : c.Grows c') (hb : b.Grows b') :
    c'.Serves b' id condition support := by
  -- the supplier of a condition on another timeline
  have supplied : ∀ {target : ObjectRef} {state : String} {p : TokenId},
      (∃ u host, c.token p = .ok u ∧ u.state = state ∧ c.timeline u.timeline = .ok host ∧
        host.Matches target) →
      ∃ u host, c'.token p = .ok u ∧ u.state = state ∧ c'.timeline u.timeline = .ok host ∧
        host.Matches target := by
    rintro target state p ⟨u, host, hu, hstate, hhost, hmatch⟩
    obtain ⟨u', hu', htl, hstate', -⟩ := hc.token p u hu
    obtain ⟨host', hhost', hname, hclass, -⟩ := hc.timeline _ host hhost
    exact ⟨u', host', hu', hstate'.trans hstate, by rw [htl]; exact hhost',
      hmatch.congr hname hclass⟩
  -- a reservation serves what uses a resource, and a token everything else
  cases condition with
  | uses target amount =>
    cases support with
    | reservation resource reservation =>
      obtain ⟨⟨r, hr, hmatch⟩, t, res, ht, hres, hresource, htoken, hstart, hstop, hamount⟩ := h
      obtain ⟨t', ht', -, -, hstart', hstop', -⟩ := hc.token id t ht
      -- its reservation may have been confirmed, which changes the status alone
      obtain ⟨status, hres'⟩ := hb.reservation _ _ hres
      exact ⟨⟨r, hb.resource _ _ hr, hmatch⟩, t', _, ht', hres', hresource, htoken,
        hstart.trans hstart'.symm, hstop.trans hstop'.symm, hamount⟩
    | token p => exact h
  | follows state =>
    cases support with
    | reservation resource reservation => exact h
    | token p =>
      obtain ⟨hbefore, ⟨t, ht, hlocked⟩, u, hu, hstate⟩ := h
      obtain ⟨t', ht', -, -, -, -, hlocked'⟩ := hc.token id t ht
      obtain ⟨u', hu', -, hstate', -⟩ := hc.token p u hu
      exact ⟨hc.standsBefore p id t ht hlocked hbefore, ⟨t', ht', hlocked' hlocked⟩, u', hu',
        hstate'.trans hstate⟩
  | metBy target state =>
    cases support with
    | reservation resource reservation => exact h
    | token p => exact supplied h
  | during target state =>
    cases support with
    | reservation resource reservation => exact h
    | token p => exact supplied h

/-- An old token asks for what it has asked for before. What it asks for depends on its state and
its timeline, and growing changes neither. -/
theorem Asks.of_grows (hwf : c.WellFormed m facts) (hc : c.Grows c') {id : TokenId} {t : Token}
    (ht : c.token id = .ok t) {i : Nat} {condition : Condition} (h : c'.Asks id i condition) :
    c.Asks id i condition := by
  obtain ⟨t', host', template, ht', hhost', htemplate, hcondition⟩ := h
  obtain ⟨host, hhost, -⟩ := hwf.placed id t ht
  obtain ⟨u, hu, htl, hstate, -⟩ := hc.token id t ht
  obtain rfl := token_inj ht' hu
  obtain ⟨g, hg, -, -, hstates⟩ := hc.timeline _ host hhost
  rw [← htl] at hg
  -- the token stands on the same timeline with the same state, and the declaration is the same
  obtain rfl := timeline_inj hhost' hg
  refine ⟨t, host, template, ht, hhost, ?_, hcondition⟩
  rw [Timeline.template?, ← hstates, ← hstate]
  exact htemplate

/-- What a token asks for, it keeps asking for. -/
theorem Asks.grows {id : TokenId} {i : Nat} {condition : Condition} (h : c.Asks id i condition)
    (hc : c.Grows c') : c'.Asks id i condition := by
  obtain ⟨t, host, template, ht, hhost, htemplate, hcondition⟩ := h
  obtain ⟨t', ht', htl, hstate, -⟩ := hc.token id t ht
  obtain ⟨host', hhost', -, -, hstates⟩ := hc.timeline _ host hhost
  refine ⟨t', host', template, ht', by rw [htl]; exact hhost', ?_, hcondition⟩
  rw [Timeline.template?, hstates, hstate]
  exact htemplate

/-- A place of a token belongs to one condition. -/
theorem Asks.unique {id : TokenId} {i : Nat} {condition condition' : Condition}
    (h : c.Asks id i condition) (h' : c.Asks id i condition') : condition = condition' := by
  obtain ⟨t, host, template, ht, hhost, htemplate, hcondition⟩ := h
  obtain ⟨t', host', template', ht', hhost', htemplate', hcondition'⟩ := h'
  obtain rfl := token_inj ht ht'
  obtain rfl := timeline_inj hhost hhost'
  obtain rfl := Option.some.inj (htemplate.symm.trans htemplate')
  exact Option.some.inj (hcondition.symm.trans hcondition')

theorem SupportedBy.unique {id : TokenId} {i : Nat} {support support' : Support}
    (h : c.SupportedBy id i support) (h' : c.SupportedBy id i support') : support = support' := by
  obtain ⟨t, ht, hslot⟩ := h
  obtain ⟨t', ht', hslot'⟩ := h'
  obtain rfl := token_inj ht ht'
  exact Option.some.inj (Option.some.inj (hslot.symm.trans hslot'))

theorem SupportedBy.exists_token {id : TokenId} {i : Nat} {support : Support}
    (h : c.SupportedBy id i support) : ∃ t, c.token id = .ok t :=
  h.imp fun _ ht => ht.1

/-- Where a support is noted down there is a condition. A well-formed token has as many slots as its
state has conditions, so that no slot is left over. -/
theorem WellFormed.asks_of_supportedBy (hwf : c.WellFormed m facts) {id : TokenId} {i : Nat}
    {support : Support} (h : c.SupportedBy id i support) : ∃ condition, c.Asks id i condition := by
  obtain ⟨t, ht, hslot⟩ := h
  obtain ⟨host, hhost, -⟩ := hwf.placed id t ht
  -- the slot is there, so its number is below the number of slots
  have hlt := (List.getElem?_eq_some_iff.mp hslot).1
  -- facts have no places for supports, and planned tokens have one for each condition
  cases horigin : t.origin with
  | fact =>
    rw [(hwf.fact id t host ht hhost horigin).1] at hlt
    exact absurd hlt (Nat.not_lt_zero i)
  | planned =>
    obtain ⟨template, htemplate, hlength⟩ := hwf.planned id t host ht hhost horigin
    exact ⟨_, t, host, template, ht, hhost, htemplate,
      List.getElem?_eq_getElem (by rw [← hlength]; exact hlt)⟩

/-- All conditions stay served if every new support fits. It is the form in which each edit of the
search is checked: the old supports are carried over, and only the new ones need an argument. -/
theorem AllServed.grows (h : c.AllServed b) (hwf : c.WellFormed m facts) (hc : c.Grows c')
    (hb : b.Grows b')
    (new : ∀ id i support, c'.SupportedBy id i support → c.SupportedBy id i support ∨
      ∀ condition, c'.Asks id i condition → c'.Serves b' id condition support) :
    c'.AllServed b' := by
  intro id i condition support hasks hsupport
  rcases new id i support hsupport with hold | hnew
  · obtain ⟨t, ht, hslot⟩ := hold
    exact (h id i condition support (hasks.of_grows hwf hc ht) ⟨t, ht, hslot⟩).grows hc hb
  · exact hnew condition hasks

/-- A token that supports a condition exists. -/
theorem AllServed.exists_token (h : c.AllServed b) {id p : TokenId} {i : Nat}
    {condition : Condition}
    (hasks : c.Asks id i condition) (hsupport : c.SupportedBy id i (.token p)) :
    ∃ u, c.token p = .ok u := by
  have hserves := h id i condition _ hasks hsupport
  cases condition with
  | uses target amount => exact hserves.elim
  | follows state => exact hserves.2.2.imp fun u hu => hu.1
  | metBy target state | during target state => exact hserves.imp fun u ⟨_, hu, _⟩ => hu

/-! ### Dates -/

/-- Dates that respect a chronicle. -/
structure Respects (c : Chronicle) (date : Timepoint → Int) : Prop where
  duration : ∀ id t host, c.token id = .ok t → c.timeline t.timeline = .ok host →
    (host.durationOf t.state).contains (date t.stop - date t.start)
  ordered : ∀ id host (i j : Nat) p q t u, c.timeline id = .ok host → i < j →
    host.sequence[i]? = some p → host.sequence[j]? = some q → c.token p = .ok t →
      c.token q = .ok u → date t.stop ≤ date u.start
  linked : ∀ id i condition relation p t u, c.Asks id i condition →
    condition.relation? = some relation → c.SupportedBy id i (.token p) → c.token id = .ok t →
      c.token p = .ok u → relation.Holds date u t

/-- The duration of a token of a well-formed chronicle is valid. A state without a template has the
standard duration, which is valid as well. -/
theorem WellFormed.durationOf_isValid (hwf : c.WellFormed m facts) (hm : m.WellFormed)
    {id : TimelineId} {host : Timeline} (hhost : c.timeline id = .ok host) (state : String) :
    (host.durationOf state).isValid := by
  unfold Timeline.durationOf
  cases htemplate : host.template? state with
  | none => rfl
  | some template =>
    -- the timeline has the states of a declaration of the model, and those were checked on loading
    obtain ⟨d, hd, -, hstates⟩ := hwf.timelineTemplate? hm hhost
    have hmem : template ∈ d.states := by
      rw [hstates]
      exact List.mem_of_find?_eq_some htemplate
    exact (hm.allValid d (Model.mem_of_timelineTemplate? hd)).2 template hmem

/-- No token ends before it starts. -/
theorem Respects.start_le_stop {date : Timepoint → Int} (h : c.Respects date)
    (hwf : c.WellFormed m facts) (hm : m.WellFormed) {id : TokenId} {t : Token}
    (ht : c.token id = .ok t) : date t.start ≤ date t.stop := by
  obtain ⟨host, hhost, -⟩ := hwf.placed id t ht
  have hlength := Duration.nonneg_of_contains (hwf.durationOf_isValid hm hhost t.state)
    (h.duration id t host ht hhost)
  omega

/-! ### Noting something down -/

/-- Chronicles of the same shape have the same neighbours. -/
theorem Alike.standsBefore (h : c.Alike c') {p q : TokenId} (hp : c.StandsBefore p q) :
    c'.StandsBefore p q := by
  obtain ⟨id, host, j, hhost, hj, hj'⟩ := hp
  obtain ⟨host', hhost', hbare⟩ := h.timeline hhost
  refine ⟨id, host', j, hhost', ?_, ?_⟩ <;> rw [hbare] <;> assumption

/-- A chronicle of the same shape has grown if no token was unlocked. Locks have to be asked for
apart, since two chronicles of one shape may differ in them. -/
theorem Alike.grows (h : c.Alike c')
    (hlocked : ∀ id t t', c.token id = .ok t → c'.token id = .ok t' → t.locked → t'.locked) :
    c.Grows c' where
  token := by
    intro id t ht
    obtain ⟨t', ht', htl, hstate, hstart, hstop, -⟩ := h.token ht
    exact ⟨t', ht', htl, hstate, hstart, hstop, hlocked id t t' ht ht'⟩
  timeline := by
    intro id g hg
    obtain ⟨g', hg', hbare⟩ := h.timeline hg
    refine ⟨g', hg', ?_⟩
    -- bare timelines differ in their seal at most
    rw [hbare]
    exact ⟨rfl, rfl, rfl⟩
  standsBefore := fun p q _ _ _ hp => h.standsBefore hp

/-- Dates respect a chronicle of the same shape if they respect its new supports. The old links are
carried over by the first chronicle, so that only the tokens that a new support relates have to be
looked at. -/
theorem Respects.of_alike {date : Timepoint → Int} (h : c.Respects date)
    (hwf : c.WellFormed m facts) (halike : c.Alike c') (hgrows : c.Grows c')
    (new : ∀ id i condition relation p t u, c'.Asks id i condition →
      condition.relation? = some relation → c'.SupportedBy id i (.token p) →
        c'.token id = .ok t → c'.token p = .ok u →
          c.SupportedBy id i (.token p) ∨ relation.Holds date u t) : c'.Respects date where
  duration := by
    intro id t' host' ht' hhost'
    obtain ⟨t, ht, htl, hstate, hstart, hstop, -⟩ := halike.symm.token ht'
    -- everything is looked up in the old chronicle, where it is the same
    obtain ⟨host, hhost, hbare⟩ := halike.symm.timeline hhost'
    have := h.duration id t host ht (by rw [htl]; exact hhost)
    rw [hbare, hstate, hstart, hstop] at this
    exact this
  ordered := by
    intro id host' i j p q t' u' hhost' hij hi hj ht' hu'
    obtain ⟨host, hhost, hbare⟩ := halike.symm.timeline hhost'
    obtain ⟨t, ht, -, -, -, hstop, -⟩ := halike.symm.token ht'
    obtain ⟨u, hu, -, -, hstart, -⟩ := halike.symm.token hu'
    rw [← hstop, ← hstart]
    exact h.ordered id host i j p q t u hhost hij (by rw [hbare]; exact hi)
      (by rw [hbare]; exact hj) ht hu
  linked := by
    intro id i condition relation p t' u' hasks hrelation hsupport ht' hu'
    -- an old support was respected before, and the dates are the same
    rcases new id i condition relation p t' u' hasks hrelation hsupport ht' hu' with hold | hholds
    · obtain ⟨t, ht, -, -, hstart, hstop, -⟩ := halike.symm.token ht'
      obtain ⟨u, hu, -, -, hstart', hstop', -⟩ := halike.symm.token hu'
      refine Relation.Holds.congr (h.linked id i condition relation p t u
        (hasks.of_grows hwf hgrows ht) hrelation hold ht hu) ⟨?_, ?_⟩ ⟨?_, ?_⟩
      · exact hstart'.symm
      · exact hstop'.symm
      · exact hstart.symm
      · exact hstop.symm
    · -- a new support respects the dates by hypothesis
      exact hholds

/-- After a support is noted down in a free place, it is there beside the old ones. Both directions
are needed: that nothing else is noted down is what keeps reservations from being counted twice. -/
theorem supportedBy_setSupport {id : TokenId} {k : Nat} {t : Token} {new : Support}
    (ht : c.token id = .ok t) (hfree : t.supports[k]? = some none) {id' : TokenId} {i : Nat}
    {support : Support} :
    (c.setSupport id k (some new)).SupportedBy id' i support ↔
      c.SupportedBy id' i support ∨ (id' = id ∧ i = k ∧ support = new) := by
  have hlt := (List.getElem?_eq_some_iff.mp hfree).1
  simp only [SupportedBy, setSupport, token_updateToken]
  -- from left to right: the place that was written to, another place of that token, or another
  -- token
  constructor
  · rintro ⟨u, ⟨v, hv, rfl⟩, hslot⟩
    split at hslot
    · next hid =>
      subst hid
      obtain rfl := token_inj ht hv
      simp only [List.getElem?_set] at hslot
      split at hslot
      · next hk =>
        exact .inr ⟨rfl, hk.symm, (Option.some.inj (Option.some.inj hslot)).symm⟩
      · exact .inl ⟨t, hv, hslot⟩
    · exact .inl ⟨v, hv, hslot⟩
  · rintro (⟨v, hv, hslot⟩ | ⟨rfl, rfl, rfl⟩)
    · refine ⟨_, ⟨v, hv, rfl⟩, ?_⟩
      split
      · next hid =>
        subst hid
        obtain rfl := token_inj ht hv
        -- what was in the place was no support
        have hne : ¬ k = i := by
          rintro rfl
          rw [hfree] at hslot
          exact absurd hslot (by simp)
        rw [List.getElem?_set_ne hne]
        exact hslot
      · exact hslot
    · refine ⟨_, ⟨t, ht, rfl⟩, ?_⟩
      rw [if_pos rfl]
      exact List.getElem?_set_self hlt

/-- Noting down supports locks and unlocks nothing. -/
theorem locked_setSupport {id : TokenId} {k : Nat} {new : Option Support} {id' : TokenId}
    {t t' : Token} (ht : c.token id' = .ok t) (ht' : (c.setSupport id k new).token id' = .ok t') :
    t'.locked = t.locked := by
  obtain ⟨u, hu, rfl⟩ := token_updateToken.mp ht'
  obtain rfl := token_inj ht hu
  split <;> rfl

/-- A support that is noted down lets the chronicle grow. -/
theorem grows_setSupport (id : TokenId) (k : Nat) (new : Option Support) :
    c.Grows (c.setSupport id k new) :=
  (alike_setSupport id k new).grows fun _ _ _ ht ht' hlocked =>
    (locked_setSupport ht ht').trans hlocked

/-- To lock a token leaves all supports as they are. Locks and slots are different fields of a
token, and no support speaks of locks. -/
theorem supportedBy_setLocked {id id' : TokenId} {locked : Bool} {i : Nat} {support : Support} :
    (c.setLocked id locked).SupportedBy id' i support ↔ c.SupportedBy id' i support := by
  simp only [SupportedBy, setLocked, token_updateToken]
  constructor
  · rintro ⟨u, ⟨v, hv, rfl⟩, hslot⟩
    refine ⟨v, hv, ?_⟩
    -- locking a token changes no slot, whichever token it is
    split at hslot <;> exact hslot
  · rintro ⟨v, hv, hslot⟩
    refine ⟨_, ⟨v, hv, rfl⟩, ?_⟩
    split <;> exact hslot

/-- Locks keep their causes when the chronicle grows. The last hypothesis is about tokens that are
locked only now: each of them has to name the condition it was locked for. -/
theorem LockedForCause.grows (h : c.LockedForCause) (hgrows : c.Grows c')
    (supports : ∀ id i support, c.SupportedBy id i support → c'.SupportedBy id i support)
    (new : ∀ id t', c'.token id = .ok t' → t'.origin = .planned → t'.locked →
      (∃ t, c.token id = .ok t ∧ t.origin = .planned ∧ t.locked) ∨
        ∃ i state p, c'.Asks id i (.follows state) ∧ c'.SupportedBy id i (.token p)) :
    c'.LockedForCause := by
  intro id t' ht' horigin hlocked
  rcases new id t' ht' horigin hlocked with ⟨t, ht, horigin, hlocked⟩ | hcause
  · obtain ⟨i, state, p, hasks, hsupport⟩ := h id t ht horigin hlocked
    exact ⟨i, state, p, hasks.grows hgrows, supports id i _ hsupport⟩
  · exact hcause

/-! ### Linking a token to its supplier -/

theorem setLocked_eq_self {id : TokenId} {t : Token} (ht : c.token id = .ok t)
    (hlocked : t.locked = true) : c.setLocked id true = c := by
  obtain ⟨timelines, tokens, links, goalSupports⟩ := c
  simp only [setLocked, updateToken, Chronicle.mk.injEq, and_true, true_and]
  refine modify_eq_self fun u hu => ?_
  obtain rfl := Option.some.inj ((token_eq_ok.mp ht).symm.trans hu)
  rw [← hlocked]

/-- Locks a token to the one before it if the relation asks for that. -/
def lockFor (c : Chronicle) (relation : Relation) (id : TokenId) : Chronicle :=
  match relation with
  | .adjacent => c.setLocked id true
  | .metBy | .during => c

/-- Notes down that a token supports a condition of another one. -/
def linkTo (c : Chronicle) (consumer : TokenId) (i : Nat) (supplier : TokenId)
    (relation : Relation) : Chronicle :=
  ((c.lockFor relation consumer).setSupport consumer i (some (.token supplier))).addLink
    ⟨consumer, i, supplier⟩

variable {consumer supplier : TokenId} {i : Nat} {relation : Relation}

/-- The tokens after a link is made. Only the consumer changes: the slot of the condition is filled,
and the token is locked if the two have to stay neighbours. -/
theorem token_linkTo {id : TokenId} {u : Token} :
    (c.linkTo consumer i supplier relation).token id = .ok u ↔ ∃ t, c.token id = .ok t ∧
      (if id = consumer then
        { t with
          supports := t.supports.set i (some (.token supplier))
          locked := if relation = .adjacent then true else t.locked }
      else t) = u := by
  -- the list of links is no part of any token, so that two updates of the consumer are left
  show ((c.lockFor relation consumer).setSupport consumer i (some (.token supplier))).token id =
    .ok u ↔ _
  rw [setSupport, token_updateToken]
  -- only neighbours are locked
  cases relation with
  | metBy | during =>
    refine exists_congr fun t => and_congr_right fun _ => ?_
    simp only [reduceCtorEq, if_false]
  | adjacent =>
    simp only [lockFor, setLocked, token_updateToken]
    constructor
    · rintro ⟨_, ⟨t, ht, rfl⟩, rfl⟩
      refine ⟨t, ht, ?_⟩
      split <;> simp
    · rintro ⟨t, ht, rfl⟩
      refine ⟨_, ⟨t, ht, rfl⟩, ?_⟩
      split <;> simp

/-- A link changes no timeline, and of tokens only supports and locks. -/
theorem alike_linkTo : c.Alike (c.linkTo consumer i supplier relation) := by
  refine Alike.trans ?_ ((alike_setSupport _ _ _).trans (alike_addLink _))
  cases relation with
  | adjacent => exact alike_setLocked _ _
  | metBy | during => exact .refl c

/-- A link lets the chronicle grow: a token that is locked stays so. -/
theorem grows_linkTo : c.Grows (c.linkTo consumer i supplier relation) := by
  refine alike_linkTo.grows fun id t t' ht ht' hlocked => ?_
  obtain ⟨u, hu, rfl⟩ := token_linkTo.mp ht'
  obtain rfl := token_inj ht hu
  split
  · simp [hlocked]
  · exact hlocked

/-- After a link is made in a free place, the supports are the old ones and that by the supplier. -/
theorem supportedBy_linkTo {t : Token} (ht : c.token consumer = .ok t)
    (hfree : t.supports[i]? = some none) {id : TokenId} {k : Nat} {support : Support} :
    (c.linkTo consumer i supplier relation).SupportedBy id k support ↔
      c.SupportedBy id k support ∨ (id = consumer ∧ k = i ∧ support = .token supplier) := by
  show ((c.lockFor relation consumer).setSupport consumer i (some (.token supplier))).SupportedBy
    id k support ↔ _
  cases relation with
  | metBy | during => exact supportedBy_setSupport ht hfree
  -- the lock comes first, and it keeps the slot free
  | adjacent =>
    have ht' : (c.setLocked consumer true).token consumer = .ok { t with locked := true } :=
      token_updateToken.mpr ⟨t, ht, if_pos rfl⟩
    exact (supportedBy_setSupport ht' hfree).trans (or_congr_left supportedBy_setLocked)

end Chronicle

end TemporalPlanning
