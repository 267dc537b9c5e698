import TemporalPlanning.Proofs.Search.Decisions
import TemporalPlanning.Proofs.Search.Proposals

/-!
# Decisions without fault

An edit is safe at a partial plan (`Edit.SafeAt`) if it is not forbidden there, and something is
known of what it leaves behind when it gets stuck. In a sound partial plan every step of a decision
is safe if what it relies on is there: a place where the timeline takes a token, an open condition
or goal, neighbours that are to be joined, reservations that are to be confirmed. So a decision that
suits and is applicable is safe (`Task.safeAt_apply`), and what it leaves behind
halfway is legible (`PartialPlan.Legible`): its flaws can be described, and its timepoints have
dates.
-/

namespace TemporalPlanning

/-- A partial plan whose flaws can be listed and described, and whose timepoints have dates. -/
structure PartialPlan.Legible (task : Task) (s : PartialPlan) : Prop where
  presentable : s.Presentable task.model
  steady : s.network.Steady task.config.horizon

namespace PartialPlan

variable {task : Task} {facts : Nat → Nat} {s s' : PartialPlan}

theorem Sound.legible (h : s.Sound task facts) : s.Legible task :=
  ⟨h.tidy.presentable, h.ready.steady⟩

/-- Timepoints are not taken away. -/
theorem contains_of_size_le (hsize : s.network.size ≤ s'.network.size) {t : Timepoint}
    (ht : s.network.contains t) : s'.network.contains t :=
  Network.contains_iff.mpr ((Network.contains_iff.mp ht).trans_le hsize)

/-- A partial plan stays legible when only its network changes. The other two components are looked
at through the size of the network only, since timepoints have to be in it. -/
theorem Legible.of_network (h : s.Legible task) (hsteady : s'.network.Steady task.config.horizon)
    (hsize : s.network.size ≤ s'.network.size) (hbook : s'.book = s.book)
    (hchron : s'.chron = s.chron) : s'.Legible task := by
  refine ⟨⟨fun id r hr => ?_, ?_, ?_⟩, hsteady⟩
  · rw [reservations, hbook] at hr
    exact (h.presentable.dated id r hr).imp (contains_of_size_le hsize) (contains_of_size_le hsize)
  · rw [chronicle, hchron]
    exact h.presentable.hosted
  · rw [chronicle, hchron]
    exact h.presentable.goals_size

end PartialPlan

namespace Chronicle

/-- An open condition can be supported, as its slot is there and empty. -/
theorem IsOpen.exists_support {chron : TrackedChronicle} {consumer : TokenId} {i : Nat}
    (h : chron.value.IsOpen consumer i) (new : Support) :
    ∃ chron', chron.support consumer i new = .ok chron' := by
  obtain ⟨t, ht, hfree⟩ := h
  refine Fault.exists_bind ⟨t, ht⟩ fun u hu => ?_
  obtain rfl := Chronicle.token_inj ht hu
  rw [hfree]
  exact ⟨_, rfl⟩

/-- Locking a token leaves its conditions open. -/
theorem IsOpen.lockFor {c : Chronicle} {consumer : TokenId} {i : Nat} (h : c.IsOpen consumer i)
    (relation : Relation) : (c.lockFor relation consumer).IsOpen consumer i := by
  cases relation with
  | adjacent =>
    obtain ⟨t, ht, hfree⟩ := h
    exact ⟨_, Chronicle.token_updateToken.mpr ⟨t, ht, rfl⟩, by rw [if_pos rfl]; exact hfree⟩
  | metBy | during => exact h

end Chronicle

namespace Edit

variable {α β : Type} {P : PartialPlan → Prop} {s s' : PartialPlan}

/-! ### Edits without fault -/

/-- An edit is not forbidden, and `P` holds of what it leaves behind when it gets stuck. -/
def SafeAt (P : PartialPlan → Prop) (e : Edit α) (s : PartialPlan) : Prop :=
  match e s with
  | .done _ _ => True
  | .stuck _ s' => P s'
  | .forbidden _ => False

theorem SafeAt.of_done {e : Edit α} {a : α} (h : e s = .done a s') : e.SafeAt P s := by
  rw [SafeAt, h]
  trivial

/-- So is one that gets stuck, if what is asked for holds of what it leaves behind. -/
theorem SafeAt.of_stuck {e : Edit α} {why : DeadEnd} (h : e s = .stuck why s') (hP : P s') :
    e.SafeAt P s := by
  rw [SafeAt, h]
  exact hP

/-- Safety depends on what an edit does there, and on nothing else. -/
theorem SafeAt.congr {e e' : Edit α} (heq : e s = e' s) (h : e'.SafeAt P s) : e.SafeAt P s := by
  rw [SafeAt, heq]
  exact h

/-- Where a safe edit gets stuck, what is asked for holds of what it leaves behind. -/
theorem SafeAt.stuck {e : Edit α} (h : e.SafeAt P s) {why : DeadEnd} (hs : e s = .stuck why s') :
    P s' := by
  rw [SafeAt, hs] at h
  exact h

theorem SafeAt.allowed {e : Edit α} (h : e.SafeAt P s) : e.Allowed s := by
  intro why hwhy
  rw [SafeAt, hwhy] at h
  exact h

theorem safeAt_pure (a : α) : (pure a : Edit α).SafeAt P s := trivial

theorem safeAt_stop {why : DeadEnd} (h : P s) : (stop why : Edit α).SafeAt P s := h

/-- An edit is safe that goes on safely from where a safe one has succeeded. -/
theorem SafeAt.bind {x : Edit α} {f : α → Edit β} (hx : x.SafeAt P s)
    (hf : ∀ a s', x s = .done a s' → (f a).SafeAt P s') : (x >>= f).SafeAt P s := by
  rw [SafeAt, bind_apply]
  cases h : x s with
  | done a s' => exact hf a s' h
  | stuck why s' => exact hx.stuck h
  | forbidden why => exact absurd h (hx.allowed why)

/-- A look-up that succeeds is safe before a safe edit. -/
theorem SafeAt.query_bind {f : PartialPlan → Except Fault α} {g : α → Edit β} {a : α}
    (ha : f s = .ok a) (hg : (g a).SafeAt P s) : (query f >>= g).SafeAt P s :=
  .congr (query_bind_apply ha) hg

theorem safeAt_onBook {f : TrackedBook → Except Fault (TrackedBook × α)}
    (h : ∃ r, f s.book = .ok r) : (onBook f).SafeAt P s := by
  obtain ⟨⟨book, a⟩, hf⟩ := h
  exact .of_done (onBook_eq_done.mpr ⟨book, hf, rfl⟩)

theorem safeAt_onChronicle {f : TrackedChronicle → Except Fault (TrackedChronicle × α)}
    (h : ∃ r, f s.chron = .ok r) : (onChronicle f).SafeAt P s := by
  obtain ⟨⟨chron, a⟩, hf⟩ := h
  exact .of_done (onChronicle_eq_done.mpr ⟨chron, hf, rfl⟩)

/-! ### Timepoints and constraints -/

theorem safeAt_addTimepoint : addTimepoint.SafeAt P s := .of_done (onNetwork_eq_done.mpr ⟨rfl, rfl⟩)

/-- A constraint that is refused changes nothing. -/
theorem safeAt_post (h : P s) {c : Constraint}
    (hc : s.network.contains c.first ∧ s.network.contains c.second) : (post c).SafeAt P s := by
  by_cases hadmits : s.network.admits c
  · exact .of_done (a := ()) (post_eq_done.mpr ⟨hc, hadmits, rfl⟩)
  · exact .of_stuck (post_eq_stuck.mpr ⟨hc, hadmits, rfl, rfl⟩) h

variable {task : Task}

open PartialPlan (Legible)

/-- A list of constraints is posted without fault, if their timepoints are there. The network may
refuse one of them, and what has been posted until then stays. -/
theorem safeAt_postAll (h : s.Legible task) {cs : List Constraint}
    (hwithin : ∀ c ∈ cs, c.Within Duration.limit)
    (hcontains : ∀ c ∈ cs, s.network.contains c.first ∧ s.network.contains c.second) :
    (postAll cs).SafeAt (Legible task) s := by
  induction cs generalizing s with
  | nil => exact safeAt_pure ()
  | cons c cs ih =>
    obtain ⟨hc, hcs⟩ := List.forall_mem_cons.mp hcontains
    obtain ⟨hwithin', hwithins⟩ := List.forall_mem_cons.mp hwithin
    refine (safeAt_post h hc).bind fun _ s₁ h₁ => ?_
    obtain ⟨hsteady, hsize, hbook, hchron, -⟩ := h.steady.post hwithin' h₁
    -- posting adds no timepoint and loses none
    exact ih (h.of_network hsteady hsize.ge hbook hchron) hwithins fun c hc =>
      (hcs c hc).imp (PartialPlan.contains_of_size_le hsize.ge)
        (PartialPlan.contains_of_size_le hsize.ge)

/-- The interval of a token is added without fault. The two timepoints are there when the duration
is posted between them. -/
theorem safeAt_addInterval (h : s.Legible task) (hsize : s.network.size + 1 < Network.sizeLimit)
    (d : Duration) : (addInterval d).SafeAt (Legible task) s := by
  refine safeAt_addTimepoint.bind fun t s₁ h₁ => ?_
  obtain ⟨rfl, st₁, size₁, book₁, chron₁, -⟩ := h.steady.addTimepoint (by omega) h₁
  refine safeAt_addTimepoint.bind fun u s₂ h₂ => ?_
  obtain ⟨rfl, st₂, size₂, book₂, chron₂, -⟩ := st₁.addTimepoint (by omega) h₂
  have hlegible := h.of_network st₂ (by omega) (book₂.trans book₁) (chron₂.trans chron₁)
  -- the duration is posted between the two timepoints that were just added
  refine (safeAt_post hlegible ⟨?_, ?_⟩).bind fun _ _ _ => safeAt_pure _
  · rw [Network.contains_iff, size₂, size₁]
    exact Nat.lt_add_right 1 (Nat.lt_succ_self _)
  · rw [Network.contains_iff, size₂]
    exact Nat.lt_succ_self _

/-! ### Placing a token -/

variable {facts : Nat → Nat} {id : TimelineId} {state : String} {position : Nat}

/-- A token is created without fault on a timeline that is there. -/
theorem safeAt_instantiate (h : s.Legible task)
    (hsize : s.network.size + 1 < Network.sizeLimit) {host : Timeline}
    (hhost : s.chronicle.timeline id = .ok host) :
    (instantiate id state).SafeAt (Legible task) s := by
  refine .query_bind hhost ?_
  split
  · exact safeAt_stop h
  · exact (safeAt_addInterval h hsize _).bind fun _ _ _ => safeAt_onChronicle ⟨_, rfl⟩

/-- A created token leaves a partial plan legible, and all tokens have their timepoints. The token
stands in no sequence yet, which is why well-formedness cannot be kept here and a weaker property
takes its place. -/
theorem legible_of_instantiate (h : s.Sound task facts) (hm : task.model.WellFormed)
    (hsize : s.network.size + 1 < Network.sizeLimit) {token : TokenId}
    (hs : instantiate id state s = .done token s') :
    s'.Legible task ∧ ∀ k u, s'.chronicle.token k = .ok u →
      s'.network.contains u.start ∧ s'.network.contains u.stop := by
  obtain ⟨host, template, created, hsteady, -⟩ := instantiate_eq_done h.ready hm hsize hs
  have hchron := created.chronicle_eq
  have hsize' := created.size_eq
  -- the network only grows, so old timepoints stay
  have grown : ∀ t, s.network.contains t → s'.network.contains t :=
    fun t => PartialPlan.contains_of_size_le (by omega)
  refine ⟨⟨⟨fun k r hr => ?_, fun k u hu => ?_, ?_⟩, hsteady⟩, fun k u hu => ?_⟩
  · rw [PartialPlan.reservations, created.book_eq] at hr
    exact (Task.contains_of_reservation h.tidy hr).imp (grown _) (grown _)
  · -- the slots of the goals are not touched
    rw [hchron] at hu ⊢
    rcases Chronicle.token_addToken.mp hu with hold | ⟨-, rfl⟩
    · exact h.tidy.presentable.hosted k u hold
    · exact ⟨host, created.timeline_eq⟩
  · rw [hchron]
    exact h.tidy.presentable.goals_size
  · rw [hchron] at hu
    rcases Chronicle.token_addToken.mp hu with hold | ⟨-, rfl⟩
    · exact (Task.contains_of_token h.tidy hold).imp (grown _) (grown _)
    · simp only [Network.contains_iff, Token.planned, hsize', h.ready.size_eq]
      omega

/-- A place that takes a token takes it when one more token has been created. -/
theorem isInsertable_addToken {c : Chronicle} {m : Model} (hwf : c.WellFormed m facts) {t : Token}
    (h : c.isInsertable id position = .ok true) :
    (c.addToken t).isInsertable id position = .ok true := by
  obtain ⟨host, hhost, htakes⟩ := Chronicle.isInsertable_eq_ok h
  have htakes := htakes.mp rfl
  have hold : ∀ k ∈ host.sequence, ∃ u, c.token k = .ok u := hwf.exists_of_mem hhost
  -- the test still succeeds, since no token has gone
  obtain ⟨insertable, hinsertable⟩ := Chronicle.exists_isInsertable (c := c.addToken t) hhost
    (fun k hk => (hold k hk).imp fun _ hu => Chronicle.token_addToken.mpr (.inl hu)) position
  obtain ⟨host', hhost', hiff⟩ := Chronicle.isInsertable_eq_ok hinsertable
  obtain rfl := Chronicle.timeline_inj hhost hhost'
  rw [hinsertable, hiff.mpr ⟨htakes.facts_le, htakes.le_length, fun k u hk hu => ?_,
    htakes.unsealed⟩]
  -- the token at the place was there before
  obtain ⟨v, hv⟩ := hold k (List.mem_of_getElem? hk)
  obtain rfl := Chronicle.token_inj (Chronicle.token_addToken.mpr (.inl hv)) hu
  exact htakes.unlocked k v hk hv

/-- If a token is there, looking it up finds it. -/
theorem exists_looks (id? : Option TokenId)
    (h : ∀ k, id? = some k → ∃ t, s.chronicle.token k = .ok t) : ∃ t?, Looks s id? t? := by
  cases id? with
  | none => exact ⟨none, trivial⟩
  | some k =>
    obtain ⟨t, ht⟩ := h k rfl
    exact ⟨some t, ht⟩

/-- The constraints with the neighbours are about timepoints of tokens. Posting a constraint on an
unknown timepoint would be a fault. -/
theorem contains_of_neighbourly {t : Token} {previous? next? : Option TokenId}
    {previous next : Option Token}
    (hcontains : ∀ k u, s.chronicle.token k = .ok u →
      s.network.contains u.start ∧ s.network.contains u.stop)
    (ht : s.network.contains t.start ∧ s.network.contains t.stop)
    (hprevious : Looks s previous? previous) (hnext : Looks s next? next) :
    ∀ c ∈ neighbourly t previous next,
      s.network.contains c.first ∧ s.network.contains c.second := by
  intro c hc
  simp only [neighbourly, List.mem_append, Option.mem_toList, Option.map_eq_some_iff] at hc
  rcases hc with ⟨p, hp, rfl⟩ | ⟨n, hn, rfl⟩
  · exact ⟨hprevious.forall_iff.mpr (fun k u _ hu => (hcontains k u hu).2) p hp, ht.1⟩
  · exact ⟨ht.2, hnext.forall_iff.mpr (fun k u _ hu => (hcontains k u hu).1) n hn⟩

/-- A token is placed without fault where its timeline takes it. Between creating the token and
inserting it the chronicle is not well formed, so that the look-ups of the neighbours are followed
one by one. -/
theorem safeAt_place (h : s.Sound task facts) (hm : task.model.WellFormed)
    (hsize : s.network.size + 1 < Network.sizeLimit)
    (hinsertable : s.chronicle.isInsertable id position = .ok true) :
    (place id state position).SafeAt (Legible task) s := by
  have hwf := h.ready.chronicle
  obtain ⟨host, hhost, -⟩ := Chronicle.isInsertable_eq_ok hinsertable
  refine (safeAt_instantiate h.legible hsize hhost).bind fun token s₁ h₁ => ?_
  obtain ⟨hlegible, hcontains⟩ := legible_of_instantiate h hm hsize h₁
  obtain ⟨host', template, created, -⟩ := instantiate_footprint h.ready.size_eq h₁
  obtain rfl := created.token_eq
  obtain rfl := Chronicle.timeline_inj hhost created.timeline_eq
  have hchron := created.chronicle_eq
  have ht : s₁.chronicle.token ⟨s.chronicle.tokens.size⟩ =
      .ok (.planned id state s.chronicle.tokens.size template.conditions.length) := by
    rw [hchron]
    exact Chronicle.token_addToken.mpr (.inr ⟨rfl, rfl⟩)
  -- the neighbours are tokens that were there before
  have hold : ∀ k ∈ host.sequence, ∃ u, s₁.chronicle.token k = .ok u := by
    rw [hchron]
    exact fun k hk =>
      (hwf.exists_of_mem hhost k hk).imp fun u hu => Chronicle.token_addToken.mpr (.inl hu)
  obtain ⟨previous, hprevious⟩ := exists_looks (s := s₁) (Chronicle.before? host.sequence position)
    fun k hk => hold k (Chronicle.mem_of_before? hk)
  obtain ⟨next, hnext⟩ := exists_looks (s := s₁) host.sequence[position]?
    fun k hk => hold k (List.mem_of_getElem? hk)
  have hinsert := insert_apply ht (by rw [hchron]; exact hhost)
    (by rw [hchron]; exact isInsertable_addToken hwf hinsertable) hprevious hnext
  -- what is left of the insertion are the orders with the neighbours, and a note in the chronicle
  refine SafeAt.bind (.congr hinsert ?_) fun _ _ _ => safeAt_pure _
  exact (safeAt_postAll hlegible within_neighbourly
    (contains_of_neighbourly hcontains (hcontains _ _ ht) hprevious hnext)).bind
      fun _ _ _ => safeAt_onChronicle ⟨_, rfl⟩

/-! ### Supports -/

/-- Locking for a relation is safe: it is a note about a token that is there, or nothing. -/
theorem safeAt_lockFor (relation : Relation) (consumer : TokenId) (t : Token) :
    (lockFor relation consumer t).SafeAt P s := by
  cases relation with
  | adjacent =>
    dsimp only [lockFor]
    split
    · exact safeAt_onChronicle ⟨_, rfl⟩
    · exact safeAt_pure ()
  | metBy | during => exact safeAt_pure ()

end Edit

namespace Task

open Edit PartialPlan

variable {task : Task} {facts : Nat → Nat} {s s' : PartialPlan} {consumer supplier : TokenId}
  {i : Nat} {relation : Relation} {ids : List ReservationId}

/-- An open condition is linked without fault if the constraints of the link are posted without. For
adjacent tokens the edit also checks that they are neighbours, and being told otherwise would be a
fault. -/
theorem safeAt_linkTo_of_postAll {P : PartialPlan → Prop} (hopen : s.chronicle.IsOpen consumer i)
    {t p : Token} (ht : s.chronicle.token consumer = .ok t)
    (hp : s.chronicle.token supplier = .ok p)
    (hadjacent : relation = .adjacent → s.chronicle.predecessor? consumer = .ok (some supplier))
    (hpost : (postAll (relation.constraints p t)).SafeAt P s) :
    (linkTo consumer i supplier relation).SafeAt P s := by
  refine .congr (linkTo_apply ht hp hadjacent) (hpost.bind fun _ s₁ h₁ =>
    (safeAt_lockFor _ _ _).bind fun _ s₂ h₂ => ?_)
  obtain ⟨-, -, chron₁⟩ := postAll_footprint h₁
  have hchron₁ : s₁.chronicle = s.chronicle := PartialPlan.chronicle_congr chron₁
  obtain ⟨-, -, chron₂⟩ := lockFor_eq_done (by rw [hchron₁]; exact ht) h₂
  -- the slot is still open when the link is made: locking fills none
  have hopen₂ : s₂.chronicle.IsOpen consumer i := by
    rw [chron₂, hchron₁]
    exact hopen.lockFor relation
  obtain ⟨chron, hchron⟩ := hopen₂.exists_support (.token supplier)
  exact safeAt_onChronicle
    (Fault.exists_map _ ⟨_, Fault.bind_eq_ok.mpr ⟨chron, hchron, rfl⟩⟩)

/-- The constraints of a link are about timepoints that are there. They are the starts and ends of
the two tokens, which every token has in the network. -/
theorem contains_of_mem_constraints {m : Model} (h : s.Tidy m facts) {t p : Token}
    (ht : s.chronicle.token consumer = .ok t) (hp : s.chronicle.token supplier = .ok p) :
    ∀ c ∈ relation.constraints p t,
      s.network.contains c.first ∧ s.network.contains c.second := by
  -- the timepoints of a token are in the network
  obtain ⟨hstart, hstop⟩ := contains_of_token h ht
  obtain ⟨hstart', hstop'⟩ := contains_of_token h hp
  intro c hc
  -- a relation constrains starts and stops of its two tokens only
  cases relation with
  | adjacent | metBy =>
    obtain rfl := List.mem_singleton.mp hc
    exact ⟨hstop', hstart⟩
  | during =>
    rcases List.mem_cons.mp hc with rfl | hc
    · exact ⟨hstart', hstart⟩
    · obtain rfl := List.mem_singleton.mp hc
      exact ⟨hstop, hstop'⟩

/-- An open condition is linked without fault to a token that is there. -/
theorem safeAt_linkTo (h : s.Sound task facts) (hopen : s.chronicle.IsOpen consumer i) {p : Token}
    (hp : s.chronicle.token supplier = .ok p)
    (hadjacent : relation = .adjacent → s.chronicle.predecessor? consumer = .ok (some supplier)) :
    (linkTo consumer i supplier relation).SafeAt (Legible task) s := by
  have ⟨t, ht, _⟩ := hopen
  exact safeAt_linkTo_of_postAll hopen ht hp hadjacent (safeAt_postAll h.legible
    Relation.within_constraints (contains_of_mem_constraints h.tidy ht hp))

/-- A resource is reserved without fault for an open condition. -/
theorem safeAt_reserveFor {P : PartialPlan → Prop} (hopen : s.chronicle.IsOpen consumer i)
    (resource : ResourceId) (amount : Nat) :
    (reserveFor consumer i resource amount).SafeAt P s := by
  have ⟨t, ht, _⟩ := hopen
  refine .query_bind ht ((safeAt_onBook ⟨_, rfl⟩).bind fun r s₁ h₁ => ?_)
  obtain ⟨book, -, rfl⟩ := onBook_eq_done.mp h₁
  exact (safeAt_onChronicle (Fault.exists_map _ (hopen.exists_support _))).bind
    fun _ _ _ => safeAt_pure _

/-- A goal without token is served without fault. Noting the token down is a fault only if the goal
is served already. -/
theorem safeAt_serveGoal {P : PartialPlan → Prop} (hm : task.model.WellFormed)
    (hwf : s.chronicle.WellFormed task.model facts) {goal : Nat} {g : GroundRef}
    (hg : task.model.goals[goal]? = some g) (hfree : s.chronicle.goalSupports[goal]? = some none)
    (id : TokenId) : (task.serveGoal goal id).SafeAt P s := by
  refine (safeAt_onChronicle (Fault.exists_map _ ?_)).bind fun _ s₁ h₁ => ?_
  · -- the goal is open, so noting its token is no fault
    rw [TrackedChronicle.supportGoal, hfree]
    exact ⟨_, rfl⟩
  · obtain ⟨-, -, -, hchron⟩ := supportGoal_eq_done h₁
    obtain ⟨host, hhost⟩ := exists_timeline_of_goal hm hwf hg
    unfold sealGoal
    split
    · refine .query_bind (Fault.require_eq_ok.mpr hg) (safeAt_onChronicle (Fault.exists_map _ ?_))
      -- noting down the token of a goal leaves the timelines alone
      have hhost₁ : s₁.chronicle.timeline ⟨g.timeline⟩ = .ok host := by
        rw [hchron]
        exact hhost
      exact Fault.exists_bind ⟨host, hhost₁⟩ fun _ _ => ⟨_, rfl⟩
    · exact safeAt_pure ()

/-! ### Reservations -/

/-- Reservations that are there are confirmed without fault. A reservation that was made in the same
decision is still there at its end. -/
theorem safeAt_commitAll {P : PartialPlan → Prop}
    (h : ∀ id ∈ ids, ∃ r, s.reservations.reservation? id = some r) :
    (commitAll ids).SafeAt P s := by
  induction ids generalizing s with
  | nil => exact safeAt_pure ()
  | cons id ids ih =>
    obtain ⟨⟨r, hr⟩, hrest⟩ := List.forall_mem_cons.mp h
    refine (safeAt_onBook (Fault.exists_map _ ?_)).bind fun _ s₁ h₁ => ih fun id' hid' => ?_
    · rw [ReservationBook.reservation?, Option.join_eq_some_iff] at hr
      -- a live reservation can be committed, whether or not it is already
      rw [TrackedBook.commit, hr]
      dsimp only
      split <;> exact ⟨_, rfl⟩
    · -- confirming one reservation leaves the others live
      obtain ⟨r', hr'⟩ := hrest id' hid'
      obtain ⟨status, hr'⟩ := (commit_grows h₁).1.reservation id' r' hr'
      exact ⟨_, hr'⟩

/-- The capacities are checked without fault. -/
theorem safeAt_checkCapacity {P : PartialPlan → Prop} (h : s.Presentable task.model) (hP : P s) :
    checkCapacity.SafeAt P s := by
  obtain ⟨why?, hwhy⟩ := h.dated.exists_checkCapacity
  cases why? with
  | none => exact .of_done (a := ()) (check_eq_done.mpr ⟨hwhy, rfl⟩)
  | some why => exact .of_stuck (check_eq_stuck.mpr ⟨hwhy, rfl⟩) hP

/-! ### Decisions -/

/-- A new token that an open condition wants is placed and linked without fault. If the two have to
be neighbours, the new one enters right before the one with the condition. -/
theorem safeAt_placeAndLink (h : s.Sound task facts) (hm : task.model.WellFormed)
    (hsize : s.network.size + 1 < Network.sizeLimit) {timeline : TimelineId} {state : String}
    {position : Nat} (hinsertable : s.chronicle.isInsertable timeline position = .ok true)
    (hopen : s.chronicle.IsOpen consumer i)
    (hadjacent : relation = .adjacent →
      ∃ host, s.chronicle.timeline timeline = .ok host ∧ host.sequence[position]? = some consumer) :
    (do
      let supplier ← Edit.instantiate timeline state
      Edit.insert supplier position
      linkTo consumer i supplier relation
      return ([] : List ReservationId)).SafeAt (Legible task) s := by
  refine .congr place_bind_apply ((safeAt_place h hm hsize hinsertable).bind fun token s₁ h₁ => ?_)
  have hsound := h.place hm hsize h₁
  obtain ⟨host, template, placed, -⟩ := place_footprint h.ready.size_eq h₁
  obtain rfl := placed.token_eq
  have hchron := placed.chronicle_eq
  have hopen₁ : s₁.chronicle.IsOpen consumer i := by
    rw [hchron]
    exact hopen.imp fun t ht => ⟨Chronicle.token_enter.mpr (.inl ht.1), ht.2⟩
  have hnew : s₁.chronicle.token ⟨s.chronicle.tokens.size⟩ =
      .ok (.planned timeline state s.chronicle.tokens.size template.conditions.length) := by
    rw [hchron]
    exact Chronicle.token_enter_self
  -- what is left to show is that the two are neighbours if they have to be
  refine (safeAt_linkTo hsound hopen₁ hnew fun hrelation => ?_).bind fun _ _ _ => safeAt_pure _
  refine hsound.ready.chronicle.predecessor?_of_standsBefore ?_
  obtain ⟨host', hhost', hconsumer⟩ := hadjacent hrelation
  obtain rfl := Chronicle.timeline_inj placed.timeline_eq hhost'
  rw [hchron]
  refine ⟨timeline, _, position, Chronicle.timeline_enter_self hhost', ?_, ?_⟩
  · exact List.getElem?_insertIdx_self.trans (if_pos placed.takes.le_length)
  · -- the token that stood in the place is pushed behind the new one
    have hbehind := Chronicle.getElem?_insertIdx_of_lt_getElem? position ⟨s.chronicle.tokens.size⟩
      hconsumer
    rwa [if_neg (lt_irrefl _)] at hbehind

/-- **A decision that suits and is applicable is carried out without fault.** The cases are the
kinds of decisions; in those that place a token or create a timeline, what the second half needs is
shown to survive the first. -/
theorem safeAt_carryOut (h : s.Sound task facts) (hm : task.model.WellFormed)
    (hsize : s.network.size + 1 < Network.sizeLimit) {d : Decision} (hd : d.Suits task s)
    (happlicable : d.Applicable task s) :
    (task.carryOut d).SafeAt (Legible task) s := by
  have hwf := h.ready.chronicle
  cases d with
  | supportGoal goal token =>
    obtain ⟨g, t, hgoal, -⟩ := hd
    exact (safeAt_serveGoal hm hwf hgoal happlicable token).bind fun _ _ _ => safeAt_pure _
  | insertGoal goal position =>
    obtain ⟨hfree, g, hgoal, hinsertable⟩ := happlicable
    refine .query_bind (Fault.require_eq_ok.mpr hgoal) (.congr place_bind_apply ?_)
    refine (safeAt_place h hm hsize hinsertable).bind fun token s₁ h₁ => ?_
    obtain ⟨_, _, placed, -⟩ := place_footprint h.ready.size_eq h₁
    have hfree₁ : s₁.chronicle.goalSupports[goal]? = some none := by
      rw [placed.chronicle_eq]
      exact hfree
    exact (safeAt_serveGoal hm (h.place hm hsize h₁).ready.chronicle hgoal hfree₁ token).bind
      fun _ _ _ => safeAt_pure _
  | reserve token i resource amount =>
    exact (safeAt_reserveFor happlicable resource amount).bind fun _ _ _ => safeAt_pure _
  | createResource token i className amount =>
    refine .query_bind rfl ((safeAt_onBook ⟨_, rfl⟩).bind fun resource s₁ h₁ => ?_)
    obtain ⟨book, -, rfl⟩ := onBook_eq_done.mp h₁
    have hopen : ({ s with book } : PartialPlan).chronicle.IsOpen token i := happlicable
    exact (safeAt_reserveFor hopen resource amount).bind fun _ _ _ => safeAt_pure _
  | link token i supplier relation =>
    obtain ⟨condition, -, -, hsupplies⟩ := hd
    obtain ⟨hopen, hadjacent⟩ := happlicable
    obtain ⟨p, hp⟩ := hsupplies.exists_token
    exact (safeAt_linkTo h hopen hp hadjacent).bind fun _ _ _ => safeAt_pure _
  | insertSupplier token i timeline state position relation =>
    obtain ⟨hopen, hinsertable, hadjacent⟩ := happlicable
    exact safeAt_placeAndLink h hm hsize hinsertable hopen hadjacent
  -- the new timeline is empty, so that it takes a token at its beginning
  | createTimeline token i className state relation =>
    obtain ⟨condition, -, hrelation, hcondition, d, hd⟩ := hd
    obtain ⟨-, hname, -⟩ := ne_of_not_isTaken (isTaken_freshName className)
    refine .query_bind rfl (SafeAt.bind (safeAt_onChronicle ⟨_, rfl⟩) fun timeline s₁ h₁ => ?_)
    obtain ⟨hsound, hnet, hgrows, hhost⟩ := h.addTimeline (created_freshTimeline hd) hname h₁
    have hopen : s₁.chronicle.IsOpen token i := by
      obtain ⟨t, ht, hfree⟩ := happlicable
      obtain ⟨-, -, -, -, hchron, -⟩ := h.tidy.addTimeline (created_freshTimeline hd) hname h₁
      rw [hchron]
      exact ⟨t, ht, hfree⟩
    rw [PartialPlan.network, ← hnet] at hsize
    refine safeAt_placeAndLink hsound hm hsize ?_ hopen ?_
    · exact Fault.bind_eq_ok.mpr ⟨_, hhost, rfl⟩
    · rintro rfl
      -- only a condition on the predecessor makes neighbours
      rcases hcondition with rfl | rfl <;> cases hrelation
  | order before after =>
    refine .query_bind rfl (.query_bind rfl ?_)
    -- if a reservation is gone, the decision gets stuck before it changes anything
    cases hb : s.reservations.reservation? before with
    | none => exact (safeAt_stop h.legible).bind fun _ _ _ => safeAt_pure _
    | some b =>
      cases ha : s.reservations.reservation? after with
      | none => exact (safeAt_stop h.legible).bind fun _ _ _ => safeAt_pure _
      | some a =>
        exact (safeAt_post h.legible ⟨(contains_of_reservation h.tidy hb).2,
          (contains_of_reservation h.tidy ha).1⟩).bind fun _ _ _ => safeAt_pure _

/-- **A decision that suits and is applicable is not forbidden**, and when it gets stuck it leaves a
legible partial plan behind. -/
theorem safeAt_apply (h : s.Sound task facts) (hm : task.model.WellFormed)
    (hsize : s.network.size + 1 < Network.sizeLimit) {d : Decision} (hd : d.Suits task s)
    (happlicable : d.Applicable task s) :
    (task.apply d).SafeAt (Legible task) s := by
  refine (safeAt_carryOut h hm hsize hd happlicable).bind fun made s₁ h₁ => ?_
  have hlegible := (h.carryOut hm hsize hd h₁).1.legible
  refine (safeAt_checkCapacity hlegible.presentable hlegible).bind fun _ s₂ h₂ => ?_
  obtain ⟨-, rfl⟩ := check_eq_done.mp h₂
  exact safeAt_commitAll (h.tidy.exists_reservation_of_steps (h.tidy.carryOut_steps hd h₁).1)

end Task

end TemporalPlanning
