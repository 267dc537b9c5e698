import TemporalPlanning.Proofs.Placing
import TemporalPlanning.Proofs.Reservation.Book

/-!
# What the steps of decisions leave behind

For each step of a decision that has succeeded, the lemmas of this file say what it found and what
it left behind of the timelines and the reservations. They take the network as it is, whatever its
distances: of the network they say how many timepoints there are, and which constraints were posted
on the way.
-/

namespace TemporalPlanning

/-- A fact; it is the `index`-th token. -/
def Token.given (timeline : TimelineId) (state : String) (index : Nat) (locked : Bool) : Token :=
  { timeline, state, start := ⟨2 * index + 1⟩, stop := ⟨2 * index + 2⟩, origin := .fact,
    supports := [], locked }

/-- A fact has no conditions, and so nothing supports it. -/
theorem Token.isBlank_given (timeline : TimelineId) (state : String) (index : Nat) (locked : Bool) :
    (Token.given timeline state index locked).IsBlank := by
  intro i support h
  simp [Token.given] at h

/-- The constraints that relate a token to the one that supports it. -/
def Relation.constraints (supplier consumer : Token) : Relation → List Constraint
  | .adjacent | .metBy => [.exactly supplier.stop consumer.start 0]
  | .during =>
    [.precedes supplier.start consumer.start, .precedes consumer.stop supplier.stop]

/-- All that is posted for a link has the bound 0, so that a steady network takes it. -/
theorem Relation.within_constraints {supplier consumer : Token} {relation : Relation} :
    ∀ k ∈ relation.constraints supplier consumer, k.Within Duration.limit := by
  cases relation with
  | adjacent | metBy => exact List.forall_mem_singleton.mpr (Network.within_exactly_zero _ _)
  | during =>
    exact List.forall_mem_cons.mpr ⟨Network.within_precedes _ _,
      List.forall_mem_singleton.mpr (Network.within_precedes _ _)⟩

/-- Dates obey what is posted for a link exactly if the two tokens are related as the link says. -/
theorem Relation.holds_constraints {supplier consumer : Token} {relation : Relation}
    {date : Timepoint → Int} :
    (∀ k ∈ relation.constraints supplier consumer, k.Holds date) ↔
      relation.Holds date supplier consumer := by
  cases relation <;> simp [constraints, Holds, sub_eq_zero, eq_comm]

namespace Edit

variable {s s' : PartialPlan} {id : TimelineId} {state : String} {position : Nat}

/-! ### Timepoints and constraints -/

/-- Posting a constraint changes distances only: there are as many timepoints as before, and the
book and the chronicle are left alone. -/
theorem post_footprint {c : Constraint} {u : Unit} (hs : post c s = .done u s') :
    s'.network.size = s.network.size ∧ s'.book = s.book ∧ s'.chron = s.chron := by
  obtain ⟨-, -, rfl⟩ := post_eq_done.mp hs
  exact ⟨TrackedNetwork.size_enforce _ _, rfl, rfl⟩

/-- Posting constraints changes distances only, however many they are. The sizes and the two other
components are the same at the end as after each of them. -/
theorem postAll_footprint {cs : List Constraint} {u : Unit} (hs : postAll cs s = .done u s') :
    s'.network.size = s.network.size ∧ s'.book = s.book ∧ s'.chron = s.chron := by
  induction cs generalizing s with
  | nil =>
    obtain ⟨-, rfl⟩ := pure_eq_done.mp hs
    exact ⟨rfl, rfl, rfl⟩
  | cons c cs ih =>
    -- the first constraint, and then those behind it
    obtain ⟨_, s₁, h₁, h₂⟩ := bind_eq_done.mp hs
    obtain ⟨size₁, book₁, chron₁⟩ := post_footprint h₁
    obtain ⟨size₂, book₂, chron₂⟩ := ih h₂
    exact ⟨size₂.trans size₁, book₂.trans book₁, chron₂.trans chron₁⟩

/-- A new timepoint gets the next free number, and the book and the chronicle are left alone. -/
theorem addTimepoint_footprint {t : Timepoint} (hs : addTimepoint s = .done t s') :
    t = ⟨s.network.size⟩ ∧ s'.network.size = s.network.size + 1 ∧ s'.book = s.book ∧
      s'.chron = s.chron := by
  obtain ⟨rfl, rfl⟩ := onNetwork_eq_done.mp hs
  refine ⟨rfl, ?_, rfl, rfl⟩
  show (TrackedNetwork.postIfAdmitted _ _).value.size = _
  -- the new timepoint is there whether or not its window could be posted
  unfold TrackedNetwork.postIfAdmitted
  split
  · rw [TrackedNetwork.size_enforce]
    exact Network.size_extend _
  · exact Network.size_extend _

/-- The start of an interval gets the next free timepoint and its end the one after that. -/
theorem addInterval_footprint {d : Duration} {r : Timepoint × Timepoint}
    (hs : addInterval d s = .done r s') :
    r = (⟨s.network.size⟩, ⟨s.network.size + 1⟩) ∧ s'.network.size = s.network.size + 2 ∧
      s'.book = s.book ∧ s'.chron = s.chron := by
  obtain ⟨t, s₁, h₁, hs⟩ := bind_eq_done.mp hs
  obtain ⟨u, s₂, h₂, hs⟩ := bind_eq_done.mp hs
  obtain ⟨_, s₃, h₃, hs⟩ := bind_eq_done.mp hs
  obtain ⟨rfl, rfl⟩ := pure_eq_done.mp hs
  -- the start and the end, in this order; the constraint between them adds nothing
  obtain ⟨rfl, size₁, book₁, chron₁⟩ := addTimepoint_footprint h₁
  obtain ⟨rfl, size₂, book₂, chron₂⟩ := addTimepoint_footprint h₂
  obtain ⟨size₃, book₃, chron₃⟩ := post_footprint h₃
  refine ⟨by rw [size₁], by rw [size₃, size₂, size₁], ?_, ?_⟩
  · exact book₃.trans (book₂.trans book₁)
  · exact chron₃.trans (chron₂.trans chron₁)

/-! ### Placing a token -/

/-- What creating a token leaves behind: it is of a declared state, and stands nowhere yet. -/
structure Instantiated (s : PartialPlan) (id : TimelineId) (state : String) (host : Timeline)
    (template : StateTemplate) (token : TokenId) (s' : PartialPlan) : Prop where
  timeline_eq : s.chronicle.timeline id = .ok host
  template_eq : host.template? state = some template
  token_eq : token = ⟨s.chronicle.tokens.size⟩
  size_eq : s'.network.size = s.network.size + 2
  book_eq : s'.book = s.book
  chronicle_eq : s'.chronicle = s.chronicle.addToken
    (.planned id state s.chronicle.tokens.size template.conditions.length)

/-- A created token has the next two timepoints for its own. The states of its timeline were looked
up first, and an undeclared state is a dead end. -/
theorem instantiate_footprint (hsize : s.network.size = 2 * s.chronicle.tokens.size + 1)
    {token : TokenId} (hs : instantiate id state s = .done token s') :
    ∃ host template, Instantiated s id state host template token s' ∧
      ∃ r s₁, addInterval template.duration s = .done r s₁ ∧ s'.net = s₁.net := by
  obtain ⟨host, hhost, -⟩ := Allowed.query_bind (Allowed.of_done hs)
  cases htemplate : host.template? state with
  | none =>
    -- an undeclared state is a dead end
    rw [show instantiate id state s = _ from query_bind_apply hhost, htemplate] at hs
    exact absurd hs stop_ne_done
  | some template =>
    rw [instantiate_apply hhost htemplate] at hs
    obtain ⟨r, s₁, h₁, h₂⟩ := bind_eq_done.mp hs
    obtain ⟨rfl, size₁, book₁, chron₁⟩ := addInterval_footprint h₁
    obtain ⟨rfl, net₂, book₂, chron₂⟩ := addToken_eq_done.mp h₂
    have hchron : s₁.chronicle = s.chronicle := PartialPlan.chronicle_congr chron₁
    -- with two timepoints for each token, the number of tokens tells the numbers of the new ones
    refine ⟨host, template, ⟨hhost, htemplate, by rw [hchron], ?_, book₂.trans book₁, ?_⟩, _, s₁,
      h₁, net₂⟩
    · rw [PartialPlan.network_congr net₂, size₁]
    · rw [show s'.chronicle = _ from congrArg Trailed.value chron₂]
      show s₁.chronicle.addToken _ = _
      rw [hchron, hsize]
      rfl

/-- What placing a token leaves behind: the token has entered the chronicle at a place where its
timeline takes it. -/
structure Placed (s : PartialPlan) (id : TimelineId) (state : String) (position : Nat)
    (host : Timeline) (template : StateTemplate) (token : TokenId) (s' : PartialPlan) : Prop where
  timeline_eq : s.chronicle.timeline id = .ok host
  template_eq : host.template? state = some template
  takes : s.chronicle.Takes host position
  token_eq : token = ⟨s.chronicle.tokens.size⟩
  size_eq : s'.network.size = s.network.size + 2
  book_eq : s'.book = s.book
  chronicle_eq : s'.chronicle = s.chronicle.enter
    (.planned id state s.chronicle.tokens.size template.conditions.length) position

/-- A placed token lets the chronicle grow, since nothing enters in front of a locked one. -/
theorem Placed.grows {host : Timeline} {template : StateTemplate} {token : TokenId}
    (h : Placed s id state position host template token s') :
    s.chronicle.Grows s'.chronicle := by
  rw [h.chronicle_eq]
  exact Chronicle.grows_enter h.timeline_eq h.takes.unlocked

/-- A placed token was created and put in order with its neighbours. This says what was read and
posted on the way without judging it; which solutions remain is told from it where the network is
known to be steady. -/
theorem place_footprint (hsize : s.network.size = 2 * s.chronicle.tokens.size + 1)
    {token : TokenId} (hs : place id state position s = .done token s') :
    ∃ host template, Placed s id state position host template token s' ∧
      ∃ previous next s₁ s₂ u, instantiate id state s = .done token s₁ ∧
        Looks s₁ (Chronicle.before? host.sequence position) previous ∧
        Looks s₁ host.sequence[position]? next ∧
        postAll (neighbourly (.planned id state s.chronicle.tokens.size
          template.conditions.length) previous next) s₁ = .done u s₂ ∧ s'.net = s₂.net := by
  obtain ⟨token', s₁, h₁, hs⟩ := bind_eq_done.mp hs
  obtain ⟨_, s₂, h₂, hs⟩ := bind_eq_done.mp hs
  obtain ⟨rfl, rfl⟩ := pure_eq_done.mp hs
  obtain ⟨host, template, created, -⟩ := instantiate_footprint hsize h₁
  obtain rfl := created.token_eq
  obtain ⟨t, host', previous, next, ht, hhost', hinsertable, hprevious, hnext⟩ :=
    Allowed.insert (Allowed.of_done h₂)
  -- what the steps look up was there before the token was created
  rw [insert_apply ht hhost' hinsertable hprevious hnext] at h₂
  rw [created.chronicle_eq] at ht hhost' hinsertable
  obtain rfl := Chronicle.token_inj (Chronicle.token_addToken.mpr (.inr ⟨rfl, rfl⟩)) ht
  obtain rfl := Chronicle.timeline_inj created.timeline_eq hhost'
  obtain ⟨host', hhost', htakes⟩ := Chronicle.isInsertable_eq_ok hinsertable
  obtain rfl := Chronicle.timeline_inj created.timeline_eq hhost'
  -- the test of the position was passed, so that the timeline takes the token there
  have htakes := htakes.mp rfl
  obtain ⟨_, s₃, h₃, h₄⟩ := bind_eq_done.mp h₂
  obtain ⟨size₃, book₃, chron₃⟩ := postAll_footprint h₃
  obtain ⟨net₄, book₄, chron₄⟩ := perform_eq_done.mp h₄
  refine ⟨host, template, ⟨created.timeline_eq, created.template_eq, ⟨htakes.facts_le,
    htakes.le_length, fun k u hk hu => htakes.unlocked k u hk (Chronicle.token_addToken.mpr
      (.inl hu)), htakes.unsealed⟩, rfl, ?_, book₄.trans (book₃.trans created.book_eq), ?_⟩,
    previous, next, s₁, s₃, _, h₁, hprevious, hnext, h₃, net₄⟩
  · rw [PartialPlan.network_congr net₄, size₃, created.size_eq]
  · -- to add a token and then put it in place is to enter it
    rw [show s₂.chronicle = _ from congrArg Trailed.value chron₄]
    show s₃.chronicle.insertToken _ _ _ = _
    rw [PartialPlan.chronicle_congr chron₃, created.chronicle_eq]
    exact Chronicle.insertToken_addToken rfl

/-! ### Adding a fact -/

/-- What adding a fact looks up. -/
theorem Allowed.addFact (h : (Edit.addFact id state).Allowed s) :
    ∃ host previous, s.chronicle.timeline id = .ok host ∧
      host.facts = host.sequence.length ∧ Looks s host.tail? previous := by
  obtain ⟨host, hhost, h⟩ := Allowed.query_bind h
  split at h
  · exact absurd rfl (h _)
  · next heq =>
    obtain ⟨previous, hprevious, -⟩ := Allowed.mapM_token_bind h
    exact ⟨host, previous, hhost, not_not.mp heq, hprevious⟩

/-- Adding a fact is creating its interval, letting it start where the fact before it ends, and
putting it behind that. -/
theorem addFact_apply {host : Timeline} {previous : Option Token}
    (hhost : s.chronicle.timeline id = .ok host) (hfacts : host.facts = host.sequence.length)
    (hprevious : Looks s host.tail? previous) :
    addFact id state s = (addInterval (host.durationOf state) >>= fun r =>
      post (.exactly ((previous.map (·.stop)).getD .origin) r.1 0) >>= fun _ =>
      addToken
        { timeline := id, state, start := r.1, stop := r.2, origin := .fact, supports := [],
          locked := previous.isSome } >>= fun fact =>
      perform (.newFact id) (·.appendFact id fact) >>= fun _ => pure fact) s := by
  refine (query_bind_apply hhost).trans ?_
  rw [if_neg (not_not.mpr hfacts)]
  exact mapM_token_bind_apply hprevious

/-- What adding a fact leaves behind: the fact stands behind the others. -/
structure FactAdded (s : PartialPlan) (id : TimelineId) (state : String) (host : Timeline)
    (s' : PartialPlan) : Prop where
  timeline_eq : s.chronicle.timeline id = .ok host
  facts_eq : host.facts = host.sequence.length
  size_eq : s'.network.size = s.network.size + 2
  book_eq : s'.book = s.book
  chronicle_eq : s'.chronicle = s.chronicle.enter
    (.given id state s.chronicle.tokens.size host.tail?.isSome) host.sequence.length

/-- An added fact was given its interval, which starts where the fact before it ends. As for a
planned token, the states on the way are named, so that the effect on the solutions can be computed
from the two edits of the network. -/
theorem addFact_footprint (hsize : s.network.size = 2 * s.chronicle.tokens.size + 1)
    {fact : TokenId} (hs : addFact id state s = .done fact s') :
    ∃ host, FactAdded s id state host s' ∧
      ∃ previous r s₁ s₂ u, Looks s host.tail? previous ∧
        addInterval (host.durationOf state) s = .done r s₁ ∧
        post (.exactly ((previous.map (·.stop)).getD .origin) r.1 0) s₁ = .done u s₂ ∧
        s'.net = s₂.net := by
  obtain ⟨host, previous, hhost, hfacts, hprevious⟩ := Allowed.addFact (Allowed.of_done hs)
  rw [addFact_apply hhost hfacts hprevious] at hs
  obtain ⟨r, s₁, h₁, hs⟩ := bind_eq_done.mp hs
  obtain ⟨_, s₂, h₂, hs⟩ := bind_eq_done.mp hs
  obtain ⟨k, s₃, h₃, hs⟩ := bind_eq_done.mp hs
  obtain ⟨_, s₄, h₄, hs⟩ := bind_eq_done.mp hs
  obtain ⟨rfl, rfl⟩ := pure_eq_done.mp hs
  -- four steps: the interval, where it starts, the token, and its place at the end of the timeline
  obtain ⟨rfl, size₁, book₁, chron₁⟩ := addInterval_footprint h₁
  obtain ⟨size₂, book₂, chron₂⟩ := post_footprint h₂
  obtain ⟨rfl, net₃, book₃, chron₃⟩ := addToken_eq_done.mp h₃
  obtain ⟨net₄, book₄, chron₄⟩ := perform_eq_done.mp h₄
  have hchron₂ : s₂.chronicle = s.chronicle := PartialPlan.chronicle_congr (chron₂.trans chron₁)
  -- a fact is locked to the one before it
  have hlocked : previous.isSome = host.tail?.isSome := by
    revert hprevious
    cases host.tail? <;> cases previous <;> simp [Looks]
  refine ⟨host, ⟨hhost, hfacts, ?_, book₄.trans (book₃.trans (book₂.trans book₁)), ?_⟩,
    previous, _, s₁, s₂, _, hprevious, h₁, h₂, net₄.trans net₃⟩
  · rw [PartialPlan.network_congr (net₄.trans net₃), size₂, size₁]
  · rw [show s₄.chronicle = _ from congrArg Trailed.value chron₄]
    show s₃.chronicle.appendFact _ _ = _
    rw [show s₃.chronicle = _ from congrArg Trailed.value chron₃]
    show (s₂.chronicle.addToken _).appendFact _ ⟨s₂.chronicle.tokens.size⟩ = _
    rw [hchron₂, hlocked, hsize]
    exact Chronicle.appendFact_addToken
      (t := .given id state s.chronicle.tokens.size host.tail?.isSome) rfl hhost

/-! ### Creating an object -/

/-- A new timeline gets the next free handle, and the network and the book are left alone. -/
theorem addTimeline_footprint {name : String} {className : Option String}
    {states : List StateTemplate} {synthesized : Bool}
    (hs : addTimeline name className states synthesized s = .done id s') :
    id = ⟨s.chronicle.timelines.size⟩ ∧ s'.net = s.net ∧ s'.book = s.book ∧
      s'.chronicle = s.chronicle.addTimeline { name, className, states, synthesized } := by
  obtain ⟨chron, hchron, rfl⟩ := onChronicle_eq_done.mp hs
  obtain ⟨rfl, rfl⟩ := Prod.mk.inj (Except.ok.inj hchron)
  exact ⟨rfl, rfl, rfl, rfl⟩

/-- A new resource gets the next free handle, and the network and the chronicle are left alone. -/
theorem addResource_footprint {new : Resource} {i : ResourceId}
    (hs : addResource new s = .done i s') :
    i = ⟨s.reservations.resources.size⟩ ∧ s'.net = s.net ∧ s'.chron = s.chron ∧
      s'.reservations = s.reservations.addResource new := by
  obtain ⟨book, hbook, rfl⟩ := onBook_eq_done.mp hs
  obtain ⟨rfl, rfl⟩ := Prod.mk.inj (Except.ok.inj hbook)
  exact ⟨rfl, rfl, rfl, rfl⟩

/-! ### Supports -/

/-- A support takes a free place. A filled slot or one that is not there would be a fault, so that
an edit that is done has found it free. -/
theorem support_value {chron chron' : TrackedChronicle} {id : TokenId} {i : Nat} {new : Support}
    (h : chron.support id i new = .ok chron') :
    ∃ t, chron.value.token id = .ok t ∧ t.supports[i]? = some none ∧
      chron'.value = chron.value.setSupport id i (some new) := by
  obtain ⟨t, ht, h⟩ := Fault.bind_eq_ok.mp h
  refine ⟨t, ht, ?_⟩
  split at h
  · exact absurd h (by simp)
  · exact absurd h (by simp)
  · -- an index out of range and a filled slot are faults
    next hfree =>
    obtain rfl := Except.ok.inj h
    exact ⟨hfree, rfl⟩

/-- A support is noted down in a place that was free, and nothing else changes. -/
theorem support_eq_done {id : TokenId} {i : Nat} {new : Support} {u : Unit}
    (hs : support id i new s = .done u s') :
    ∃ t, s.chronicle.token id = .ok t ∧ t.supports[i]? = some none ∧ s'.net = s.net ∧
      s'.book = s.book ∧ s'.chronicle = s.chronicle.setSupport id i (some new) := by
  obtain ⟨chron, hmap, rfl⟩ := onChronicle_eq_done.mp hs
  obtain ⟨chron', hchron, heq⟩ := Fault.map_eq_ok.mp hmap
  obtain ⟨rfl, -⟩ := Prod.mk.inj heq
  obtain ⟨t, ht, hfree, hvalue⟩ := support_value hchron
  exact ⟨t, ht, hfree, rfl, rfl, hvalue⟩

/-- A link is a support by a token, noted down in a place that was free, and an entry in the list of
links. -/
theorem link_eq_done {consumer supplier : TokenId} {i : Nat} {u : Unit}
    (hs : link consumer i supplier s = .done u s') :
    ∃ t, s.chronicle.token consumer = .ok t ∧ t.supports[i]? = some none ∧ s'.net = s.net ∧
      s'.book = s.book ∧ s'.chronicle =
        (s.chronicle.setSupport consumer i (some (.token supplier))).addLink
          ⟨consumer, i, supplier⟩ := by
  obtain ⟨chron, hmap, rfl⟩ := onChronicle_eq_done.mp hs
  obtain ⟨chron', hchron, heq⟩ := Fault.map_eq_ok.mp hmap
  obtain ⟨rfl, -⟩ := Prod.mk.inj heq
  obtain ⟨chron'', hsupport, hlink⟩ := Fault.bind_eq_ok.mp hchron
  obtain rfl := Except.ok.inj hlink
  -- a link fills the slot and is entered in the list of links
  obtain ⟨t, ht, hfree, hvalue⟩ := support_value hsupport
  refine ⟨t, ht, hfree, rfl, rfl, ?_⟩
  rw [← hvalue]
  rfl

/-- The token of a goal is noted down in its place, which was free. A goal is never served twice:
the second time would be a fault. -/
theorem supportGoal_eq_done {goal : Nat} {id : TokenId} {u : Unit}
    (hs : supportGoal goal id s = .done u s') :
    s.chronicle.goalSupports[goal]? = some none ∧ s'.net = s.net ∧ s'.book = s.book ∧
      s'.chronicle = s.chronicle.setGoalSupport goal (some id) := by
  obtain ⟨chron, hmap, rfl⟩ := onChronicle_eq_done.mp hs
  obtain ⟨chron, hchron, heq⟩ := Fault.map_eq_ok.mp hmap
  obtain ⟨rfl, -⟩ := Prod.mk.inj heq
  unfold TrackedChronicle.supportGoal at hchron
  -- a goal that is not there, or that is served, is a fault
  split at hchron
  · exact absurd hchron (by simp)
  · exact absurd hchron (by simp)
  · next hfree =>
    obtain rfl := Except.ok.inj hchron
    exact ⟨hfree, rfl, rfl, rfl⟩

/-- Locks a token that is not locked yet, if the relation asks for it. -/
def lockFor (relation : Relation) (id : TokenId) (t : Token) : Edit Unit :=
  match relation with
  | .adjacent => if !t.locked then perform (.locked id) (·.setLocked id true) else pure ()
  | .metBy | .during => pure ()

/-- Only to make neighbours of two tokens locks the one behind. The network and the book are left
alone. -/
theorem lockFor_eq_done {relation : Relation} {id : TokenId} {t : Token} {u : Unit}
    (ht : s.chronicle.token id = .ok t) (hs : lockFor relation id t s = .done u s') :
    s'.net = s.net ∧ s'.book = s.book ∧ s'.chronicle = s.chronicle.lockFor relation id := by
  unfold lockFor at hs
  cases relation with
  | adjacent =>
    -- a token is locked once only
    cases hlocked : t.locked with
    | true =>
      rw [hlocked] at hs
      obtain ⟨-, rfl⟩ := pure_eq_done.mp hs
      exact ⟨rfl, rfl, (Chronicle.setLocked_eq_self ht hlocked).symm⟩
    | false =>
      rw [hlocked] at hs
      obtain ⟨hnet, hbook, hchron⟩ := perform_eq_done.mp hs
      exact ⟨hnet, hbook, congrArg Trailed.value hchron⟩
  | metBy | during =>
    obtain ⟨-, rfl⟩ := pure_eq_done.mp hs
    exact ⟨rfl, rfl, rfl⟩

/-- Confirming a reservation changes nothing but its status. A reservation that is confirmed already
is left alone, which comes to the same. -/
theorem commit_eq_done {id : ReservationId} {u : Unit} (hs : commit id s = .done u s') :
    s'.net = s.net ∧ s'.chron = s.chron ∧
      s'.reservations = s.reservations.setStatus id .committed := by
  obtain ⟨book, hmap, rfl⟩ := onBook_eq_done.mp hs
  obtain ⟨book, hcommit, heq⟩ := Fault.map_eq_ok.mp hmap
  obtain ⟨rfl, -⟩ := Prod.mk.inj heq
  refine ⟨rfl, rfl, ?_⟩
  -- reservations that are unknown or withdrawn cannot be confirmed
  unfold TrackedBook.commit at hcommit
  split at hcommit
  · exact absurd hcommit (by simp)
  · exact absurd hcommit (by simp)
  · next r hr =>
    -- to confirm again what is confirmed changes nothing
    split at hcommit
    · next hstatus =>
      obtain rfl := Except.ok.inj hcommit
      exact (ReservationBook.setStatus_eq_self hr hstatus).symm
    · obtain rfl := Except.ok.inj hcommit
      rfl

/-- Only neighbours are joined. -/
theorem join_lookup {before after : TokenId} (h : (join before after).Allowed s) :
    s.chronicle.predecessor? after = .ok (some before) := by
  obtain ⟨predecessor, hpredecessor, h⟩ := Allowed.query_bind h
  split at h
  · exact absurd rfl (h _)
  · next heq =>
    rw [hpredecessor, not_not.mp heq]

/-- Making neighbours of two tokens is to post that they meet and then to lock the one behind, if it
has the other for its predecessor. -/
theorem join_apply {before after : TokenId} {a b : Token} (ha : s.chronicle.token after = .ok a)
    (hb : s.chronicle.token before = .ok b)
    (hadjacent : s.chronicle.predecessor? after = .ok (some before)) :
    join before after s =
      (post (.exactly b.stop a.start 0) >>= fun _ => lockFor .adjacent after a) s := by
  refine (query_bind_apply hadjacent).trans ?_
  rw [if_neg (not_not.mpr rfl)]
  exact (query_bind_apply hb).trans (query_bind_apply ha)

end Edit

namespace Task

variable {s s' : PartialPlan}

open Edit

/-- What linking a token to its supplier looks up. -/
theorem linkTo_lookup {consumer supplier : TokenId} {i : Nat} {relation : Relation}
    (h : (linkTo consumer i supplier relation).Allowed s) :
    ∃ t p, s.chronicle.token consumer = .ok t ∧ s.chronicle.token supplier = .ok p ∧
      (relation = .adjacent → s.chronicle.predecessor? consumer = .ok (some supplier)) := by
  obtain ⟨t, ht, h⟩ := Allowed.query_bind h
  obtain ⟨p, hp, h⟩ := Allowed.query_bind h
  refine ⟨t, p, ht, hp, ?_⟩
  rintro rfl
  exact join_lookup (Allowed.of_bind h)

/-- Linking a token to its supplier is relating them in time, locking the token if they have to be
neighbours, and recording the support. -/
theorem linkTo_apply {consumer supplier : TokenId} {i : Nat} {relation : Relation} {t p : Token}
    (ht : s.chronicle.token consumer = .ok t) (hp : s.chronicle.token supplier = .ok p)
    (hadjacent : relation = .adjacent → s.chronicle.predecessor? consumer = .ok (some supplier)) :
    linkTo consumer i supplier relation s =
      (postAll (relation.constraints p t) >>= fun _ => lockFor relation consumer t >>= fun _ =>
        link consumer i supplier) s := by
  refine (query_bind_apply ht).trans ((query_bind_apply hp).trans ?_)
  cases relation with
  | metBy => exact post_bind_apply
  | during =>
    refine Eq.trans (bind_congr_apply fun _ s₁ => ?_) post_bind_postAll_bind_apply
    exact post_bind_apply
  -- the adjacency was checked by `join`, which reads it from the chronicle
  | adjacent =>
    show (join supplier consumer >>= fun _ => link consumer i supplier) s = _
    rw [bind_apply, join_apply ht hp (hadjacent rfl), ← bind_apply, bind_assoc_apply]
    exact post_bind_apply

/-- What linking a token `t` to a supplier `p` leaves behind: the token is supported, and locked if
the two have to be neighbours. -/
structure Linked (s : PartialPlan) (consumer : TokenId) (i : Nat) (supplier : TokenId)
    (relation : Relation) (t p : Token) (s' : PartialPlan) : Prop where
  consumer_eq : s.chronicle.token consumer = .ok t
  supplier_eq : s.chronicle.token supplier = .ok p
  adjacent : relation = .adjacent → s.chronicle.predecessor? consumer = .ok (some supplier)
  free : t.supports[i]? = some none
  size_eq : s'.network.size = s.network.size
  book_eq : s'.book = s.book
  chronicle_eq : s'.chronicle = s.chronicle.linkTo consumer i supplier relation

/-- A token that was linked to a supplier was related to it in time. The constraints of the relation
come first; if the network refuses them, nothing has been noted down in the chronicle yet. -/
theorem linkTo_footprint {consumer supplier : TokenId} {i : Nat} {relation : Relation} {u : Unit}
    (hs : linkTo consumer i supplier relation s = .done u s') :
    ∃ t p, Linked s consumer i supplier relation t p s' ∧
      ∃ s₁ u', postAll (relation.constraints p t) s = .done u' s₁ ∧ s'.net = s₁.net := by
  obtain ⟨t, p, ht, hp, hadjacent⟩ := linkTo_lookup (Allowed.of_done hs)
  rw [linkTo_apply ht hp hadjacent] at hs
  -- first the dates are related, then the consumer is locked, and then the link is noted down
  obtain ⟨_, s₁, h₁, hs⟩ := bind_eq_done.mp hs
  obtain ⟨_, s₂, h₂, h₃⟩ := bind_eq_done.mp hs
  obtain ⟨size₁, book₁, chron₁⟩ := postAll_footprint h₁
  have hchron₁ : s₁.chronicle = s.chronicle := PartialPlan.chronicle_congr chron₁
  obtain ⟨net₂, book₂, chron₂⟩ := lockFor_eq_done (by rw [hchron₁]; exact ht) h₂
  obtain ⟨t', ht', hfree, net₃, book₃, chron₃⟩ := link_eq_done h₃
  refine ⟨t, p, ⟨ht, hp, hadjacent, ?_, ?_, book₃.trans (book₂.trans book₁), ?_⟩, s₁, _, h₁,
    net₃.trans net₂⟩
  · -- locking leaves the supports alone
    rw [chron₂, hchron₁] at ht'
    cases relation with
    | adjacent =>
      obtain ⟨v, hv, rfl⟩ := Chronicle.token_updateToken.mp ht'
      obtain rfl := Chronicle.token_inj ht hv
      rw [if_pos rfl] at hfree
      exact hfree
    | metBy | during =>
      obtain rfl := Chronicle.token_inj ht ht'
      exact hfree
  · rw [PartialPlan.network_congr (net₃.trans net₂), size₁]
  · rw [chron₃, chron₂, hchron₁, Chronicle.linkTo]

/-- What reserving units for a condition of a token `t` leaves behind: the condition is supported by
a new reservation for the time of the token. -/
structure Reserved (s : PartialPlan) (id : TokenId) (i : Nat) (resource : ResourceId)
    (amount : Nat) (t : Token) (reservation : ReservationId) (s' : PartialPlan) : Prop where
  token_eq : s.chronicle.token id = .ok t
  free : t.supports[i]? = some none
  reservation_eq : reservation = ⟨s.reservations.reservations.size⟩
  net_eq : s'.net = s.net
  reservations_eq : s'.reservations = s.reservations.addReservation
    ⟨resource, id, t.start, t.stop, amount, .tentative⟩
  chronicle_eq :
    s'.chronicle = s.chronicle.setSupport id i (some (.reservation resource reservation))

/-- A reservation was made for a condition that was open, with the timepoints of the token. It is
tentative, and the network is left alone. -/
theorem reserveFor_eq_done {id : TokenId} {i amount : Nat} {resource : ResourceId}
    {reservation : ReservationId}
    (hs : reserveFor id i resource amount s = .done reservation s') :
    ∃ t, Reserved s id i resource amount t reservation s' := by
  obtain ⟨t, ht, hs⟩ := query_bind_eq_done.mp hs
  obtain ⟨r, s₁, h₁, hs⟩ := bind_eq_done.mp hs
  obtain ⟨h₂, rfl⟩ := unit_bind_pure_eq_done.mp hs
  obtain ⟨book, hbook, rfl⟩ := onBook_eq_done.mp h₁
  obtain ⟨rfl, rfl⟩ := Prod.mk.inj (Except.ok.inj hbook)
  obtain ⟨t', ht', hfree, net₂, book₂, chron₂⟩ := support_eq_done h₂
  obtain rfl := Chronicle.token_inj ht ht'
  exact ⟨t, ht, hfree, rfl, net₂, congrArg Trailed.value book₂, chron₂⟩

/-- If goals have to come last, the timeline of a goal is closed. A timeline that is closed already
is not closed again, so that the trail records each closing once. -/
theorem sealGoal_eq_done {task : Task} {goal : Nat} {u : Unit}
    (hs : task.sealGoal goal s = .done u s') :
    s'.net = s.net ∧ s'.book = s.book ∧
      (task.config.finalGoals = false ∧ s'.chronicle = s.chronicle ∨
        task.config.finalGoals ∧ ∃ g host, task.model.goals[goal]? = some g ∧
          s.chronicle.timeline ⟨g.timeline⟩ = .ok host ∧
          s'.chronicle = if host.sealed then s.chronicle
            else s.chronicle.setSealed ⟨g.timeline⟩ true) := by
  unfold sealGoal at hs
  -- without the restriction on goals there is nothing to do
  split at hs
  · next hfinal =>
    obtain ⟨g, hg, hs⟩ := query_bind_eq_done.mp hs
    obtain ⟨chron, hmap, rfl⟩ := onChronicle_eq_done.mp hs
    obtain ⟨chron, hchron, heq⟩ := Fault.map_eq_ok.mp hmap
    obtain ⟨rfl, -⟩ := Prod.mk.inj heq
    obtain ⟨host, hhost, hseal⟩ := Fault.bind_eq_ok.mp hchron
    obtain rfl := Except.ok.inj hseal
    refine ⟨rfl, rfl, .inr ⟨hfinal, g, host, Fault.require_eq_ok.mp hg, hhost, ?_⟩⟩
    -- a timeline that is closed already is left as it is
    cases host.sealed <;> rfl
  · next hfinal =>
    obtain ⟨-, rfl⟩ := pure_eq_done.mp hs
    exact ⟨rfl, rfl, .inl ⟨Bool.eq_false_iff.mpr hfinal, rfl⟩⟩

/-- A goal is served by the token given for it; its timeline may have been sealed. -/
theorem serveGoal_eq_done {task : Task} {goal : Nat} {id : TokenId} {u : Unit}
    (hs : task.serveGoal goal id s = .done u s') :
    s.chronicle.goalSupports[goal]? = some none ∧ s'.net = s.net ∧ s'.book = s.book ∧
      (s'.chronicle = s.chronicle.setGoalSupport goal (some id) ∨
        task.config.finalGoals ∧ ∃ timeline, s'.chronicle =
          (s.chronicle.setGoalSupport goal (some id)).setSealed timeline true) := by
  obtain ⟨_, s₁, h₁, h₂⟩ := bind_eq_done.mp hs
  obtain ⟨hfree, hnet₁, hbook₁, hvalue⟩ := supportGoal_eq_done h₁
  obtain ⟨hnet₂, hbook₂, hseal⟩ := sealGoal_eq_done h₂
  refine ⟨hfree, hnet₂.trans hnet₁, hbook₂.trans hbook₁, ?_⟩
  rw [hvalue] at hseal
  -- a timeline is sealed only with the goals final, and not a second time
  rcases hseal with ⟨-, hchron⟩ | ⟨hfinal, g, host, -, -, hchron⟩
  · exact .inl hchron
  · split at hchron
    · exact .inl hchron
    · exact .inr ⟨hfinal, ⟨g.timeline⟩, hchron⟩

end Task

end TemporalPlanning
