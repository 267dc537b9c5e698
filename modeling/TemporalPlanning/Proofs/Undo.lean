import TemporalPlanning.Proofs.Footprint

/-!
# Steps that can be taken back

`PartialPlan.Records s s'` says that `s'` is `s` with further changes of its three parts that can be
taken back (`PartialPlan.Extends`), and that taking them back finds what they are about
(`PartialPlan.Sturdy`). `Edit.Recorded` says this of an edit, whether it succeeds or gets stuck
halfway.

Every decision is recorded (`Task.recorded_apply`), because every single step is, and because
recorded steps can be put together (`Edit.Recorded.bind`). Hence a search that goes back to a mark
meets exactly the partial plan that it left there (`PartialPlan.Extends.undoTo_mark`), and nothing
is missing on the way.
-/

namespace TemporalPlanning

/-! ### Whole partial plans -/

namespace PartialPlan

/-- `s'` is `s` with further changes of its three parts, which can be taken back. -/
structure Extends (s s' : PartialPlan) : Prop where
  net : s.net.Extends s'.net
  book : s.book.Extends s'.book
  chron : s.chron.Extends s'.chron

variable {s s' s'' : PartialPlan}

/-- A partial plan extends itself, in all three parts. -/
theorem Extends.refl (s : PartialPlan) : s.Extends s := ⟨.refl _, .refl _, .refl _⟩

theorem Extends.trans (h : s.Extends s') (h' : s'.Extends s'') : s.Extends s'' :=
  ⟨h.net.trans h'.net, h.book.trans h'.book, h.chron.trans h'.chron⟩

/-- The chronicle alone can go back to its part of a mark, if that is not ahead of it. -/
theorem undoChronicle_eq_ok {m : Nat} :
    s.undoChronicle m = .ok s' ↔
      ∃ chron, s.chron.undoTo? m = some chron ∧ { s with chron } = s' := by
  obtain ⟨net, book, chron⟩ := s
  simp only [undoChronicle]
  cases chron.undoTo? m <;> simp

/-- The book alone can go back to its part of a mark, if that is not ahead of it. -/
theorem undoReservations_eq_ok {m : Nat} :
    s.undoReservations m = .ok s' ↔
      ∃ book, s.book.undoTo? m = some book ∧ { s with book } = s' := by
  obtain ⟨net, book, chron⟩ := s
  simp only [undoReservations]
  cases book.undoTo? m <;> simp

/-- The network alone can go back to its part of a mark, if that is not ahead of it. -/
theorem undoNetwork_eq_ok {m : Nat} :
    s.undoNetwork m = .ok s' ↔ ∃ net, s.net.undoTo? m = some net ∧ { s with net } = s' := by
  obtain ⟨net, book, chron⟩ := s
  simp only [undoNetwork]
  cases net.undoTo? m <;> simp

/-- Going back to a mark is going back in the chronicle, in the book and in the network, and
succeeds if all three do. The order of the three does not matter. -/
theorem undoTo_eq_ok {m : Mark} :
    s.undoTo m = .ok s' ↔ s.chron.undoTo? m.chronicle = some s'.chron ∧
      s.book.undoTo? m.reservations = some s'.book ∧ s.net.undoTo? m.network = some s'.net := by
  unfold undoTo
  simp only [Fault.bind_eq_ok, undoChronicle_eq_ok, undoReservations_eq_ok, undoNetwork_eq_ok]
  constructor
  · rintro ⟨_, ⟨chron, hc, rfl⟩, _, ⟨book, hb, rfl⟩, net, hn, rfl⟩
    exact ⟨hc, hb, hn⟩
  · rintro ⟨hc, hb, hn⟩
    exact ⟨_, ⟨_, hc, rfl⟩, _, ⟨_, hb, rfl⟩, _, hn, rfl⟩

/-- After going back to a mark the partial plan stands at that mark. -/
theorem mark_of_undoTo {m : Mark} (h : s.undoTo m = .ok s') : s'.mark = m := by
  obtain ⟨hchron, hbook, hnet⟩ := undoTo_eq_ok.mp h
  simp only [mark, Trailed.mark_of_undoTo? hchron, Trailed.mark_of_undoTo? hbook,
    Trailed.mark_of_undoTo? hnet]

/-- Going back to where `s` stood leads to `s`. -/
theorem Extends.undoTo_mark (h : s.Extends s') : s'.undoTo s.mark = .ok s :=
  undoTo_eq_ok.mpr ⟨h.chron.undoTo?_mark, h.book.undoTo?_mark, h.net.undoTo?_mark⟩

/-- A partial plan of which everything can be taken back. -/
structure Sturdy (s : PartialPlan) : Prop where
  net : s.net.Sturdy
  book : s.book.Unwinds BookChange.InPlace
  chron : s.chron.Unwinds ChronicleChange.InPlace

/-- `s'` is `s` with further changes, which can be taken back and find then what they are about. -/
structure Records (s s' : PartialPlan) : Prop where
  extended : s.Extends s'
  sturdy : s.Sturdy → s'.Sturdy

theorem Records.refl (s : PartialPlan) : s.Records s := ⟨.refl s, id⟩

theorem Records.trans (h : s.Records s') (h' : s'.Records s'') : s.Records s'' :=
  ⟨h.extended.trans h'.extended, h'.sturdy ∘ h.sturdy⟩

end PartialPlan

/-! ### Edits that are recorded -/

namespace Edit

variable {α β : Type} {s s' : PartialPlan}

/-- Where an edit leaves a partial plan, having succeeded or got stuck. -/
def LeadsTo (e : Edit α) (s s' : PartialPlan) : Prop :=
  (∃ a, e s = .done a s') ∨ ∃ why, e s = .stuck why s'

/-- At `s`, whatever an edit changes can be taken back. -/
def ReversibleAt (e : Edit α) (s : PartialPlan) : Prop := ∀ s', e.LeadsTo s s' → s.Extends s'

/-- Whatever an edit changes can be taken back. -/
def Reversible (e : Edit α) : Prop := ∀ s, e.ReversibleAt s

/-- At `s`, whatever an edit changes is recorded. -/
def RecordedAt (e : Edit α) (s : PartialPlan) : Prop := ∀ s', e.LeadsTo s s' → s.Records s'

/-- Whatever an edit changes is recorded. -/
def Recorded (e : Edit α) : Prop := ∀ s, e.RecordedAt s

/-- What is recorded can be taken back. -/
theorem Recorded.reversible {e : Edit α} (h : e.Recorded) : e.Reversible :=
  fun s s' hs => (h s s' hs).extended

/-- An edit goes on from where another one has succeeded. -/
theorem RecordedAt.bind {x : Edit α} {f : α → Edit β} (hx : x.RecordedAt s)
    (hf : ∀ a s', x s = .done a s' → (f a).RecordedAt s') : (x >>= f).RecordedAt s := by
  rintro s'' (⟨b, hdone⟩ | ⟨why, hstuck⟩)
  · obtain ⟨a, s', hs', hb⟩ := bind_eq_done.mp hdone
    exact (hx s' (.inl ⟨a, hs'⟩)).trans (hf a s' hs' s'' (.inl ⟨b, hb⟩))
  · rcases bind_eq_stuck.mp hstuck with hs' | ⟨a, s', hs', hb⟩
    · exact hx s'' (.inr ⟨why, hs'⟩)
    · exact (hx s' (.inl ⟨a, hs'⟩)).trans (hf a s' hs' s'' (.inr ⟨why, hb⟩))

/-- An edit goes on with what it has looked up. -/
theorem RecordedAt.query_bind {f : PartialPlan → Except Fault α} {g : α → Edit β}
    (h : ∀ a, f s = .ok a → (g a).RecordedAt s) : (query f >>= g).RecordedAt s := by
  rintro s'' (⟨b, hdone⟩ | ⟨why, hstuck⟩)
  · obtain ⟨a, ha, hb⟩ := query_bind_eq_done.mp hdone
    exact h a ha s'' (.inl ⟨b, hb⟩)
  · rcases bind_eq_stuck.mp hstuck with hs' | ⟨a, s', hs', hb⟩
    · exact absurd hs' query_ne_stuck
    · obtain ⟨ha, rfl⟩ := query_eq_done.mp hs'
      exact h a ha s'' (.inr ⟨why, hb⟩)

/-- Two edits in a row are recorded if the second is, whatever the first one answers. -/
theorem Recorded.bind {x : Edit α} {f : α → Edit β} (hx : x.Recorded)
    (hf : ∀ a, (f a).Recorded) : (x >>= f).Recorded :=
  fun s => (hx s).bind fun a s' _ => hf a s'

theorem recorded_pure (a : α) : (pure a : Edit α).Recorded := by
  rintro s s' (⟨b, h⟩ | ⟨why, h⟩)
  · obtain ⟨-, rfl⟩ := pure_eq_done.mp h
    exact .refl s
  · exact absurd h pure_ne_stuck

theorem recorded_stop (why : DeadEnd) : (stop why : Edit α).Recorded := by
  rintro s s' (⟨b, h⟩ | ⟨why, h⟩)
  · exact absurd h stop_ne_done
  · obtain ⟨-, rfl⟩ := stop_eq_stuck.mp h
    exact .refl s

theorem recorded_forbid (why : Fault) : (forbid why : Edit α).Recorded := by
  rintro s s' (⟨b, h⟩ | ⟨why, h⟩)
  · exact absurd h forbid_ne_done
  · exact absurd h forbid_ne_stuck

theorem recorded_query (f : PartialPlan → Except Fault α) : (query f).Recorded := by
  rintro s s' (⟨b, h⟩ | ⟨why, h⟩)
  · obtain ⟨-, rfl⟩ := query_eq_done.mp h
    exact .refl s
  · exact absurd h query_ne_stuck

/-- A check that may find a dead end changes nothing either way. -/
theorem recorded_check (f : PartialPlan → Except Fault (Option DeadEnd)) :
    (check f).Recorded := by
  rintro s s' (⟨b, h⟩ | ⟨why, h⟩)
  · obtain ⟨-, rfl⟩ := check_eq_done.mp h
    exact .refl s
  · obtain ⟨-, rfl⟩ := check_eq_stuck.mp h
    exact .refl s

/-- An edit of the network is recorded if it only adds to the trail of the network and keeps it
sturdy. It is never forbidden, so that all networks have to be looked at. -/
theorem recorded_onNetwork {f : TrackedNetwork → TrackedNetwork × α}
    (hf : ∀ net : TrackedNetwork, net.Extends (f net).1)
    (hsturdy : ∀ net : TrackedNetwork, net.Sturdy → (f net).1.Sturdy) :
    (onNetwork f).Recorded := by
  rintro s s' (⟨a, h⟩ | ⟨why, h⟩)
  · obtain ⟨-, rfl⟩ := onNetwork_eq_done.mp h
    exact ⟨⟨hf s.net, .refl _, .refl _⟩, fun h => ⟨hsturdy _ h.net, h.book, h.chron⟩⟩
  · exact absurd h onNetwork_ne_stuck

/-- An edit of the book is recorded if it is one wherever it is allowed. -/
theorem recorded_onBook {f : TrackedBook → Except Fault (TrackedBook × α)}
    (hf : ∀ book r, f book = .ok r → book.Records r.1) : (onBook f).Recorded := by
  rintro s s' (⟨a, h⟩ | ⟨why, h⟩)
  · obtain ⟨book, hbook, rfl⟩ := onBook_eq_done.mp h
    have hrecords := hf _ _ hbook
    exact ⟨⟨.refl _, hrecords.extended, .refl _⟩,
      fun h => ⟨h.net, hrecords.unwinds h.book, h.chron⟩⟩
  · exact absurd h onBook_ne_stuck

/-- An edit of the chronicle is recorded at a partial plan if it is so for the chronicle that this
plan has: unlike the book, some edits rely on what was looked up before. -/
theorem recordedAt_onChronicle {f : TrackedChronicle → Except Fault (TrackedChronicle × α)}
    (hf : ∀ r, f s.chron = .ok r → s.chron.Records r.1) : (onChronicle f).RecordedAt s := by
  rintro s' (⟨a, h⟩ | ⟨why, h⟩)
  · obtain ⟨chron, hchron, rfl⟩ := onChronicle_eq_done.mp h
    have hrecords := hf _ hchron
    exact ⟨⟨.refl _, .refl _, hrecords.extended⟩,
      fun h => ⟨h.net, h.book, hrecords.unwinds h.chron⟩⟩
  · exact absurd h onChronicle_ne_stuck

theorem recorded_onChronicle {f : TrackedChronicle → Except Fault (TrackedChronicle × α)}
    (hf : ∀ chron r, f chron = .ok r → chron.Records r.1) : (onChronicle f).Recorded :=
  fun s => recordedAt_onChronicle (hf s.chron)

/-! ### Single steps -/

theorem recorded_addTimepoint : addTimepoint.Recorded :=
  recorded_onNetwork TrackedNetwork.extends_addTimepoint fun _ h => h.addTimepoint

/-- A constraint that the network does not admit is refused before anything changes, and one that it
admits is noted down. -/
theorem recorded_post (c : Constraint) : (post c).Recorded := by
  rintro s s' (⟨u, h⟩ | ⟨why, h⟩)
  · obtain ⟨-, -, rfl⟩ := post_eq_done.mp h
    exact ⟨⟨TrackedNetwork.extends_enforce _ _, .refl _, .refl _⟩,
      fun h => ⟨h.net.enforce c, h.book, h.chron⟩⟩
  · obtain ⟨-, -, -, rfl⟩ := post_eq_stuck.mp h
    exact .refl s

theorem recorded_propagate : propagate.Recorded := by
  refine (recorded_onNetwork TrackedNetwork.extends_propagate fun _ h => h.propagate).bind
    fun bad? => ?_
  cases bad? with
  | none => exact recorded_pure ()
  | some c => exact recorded_stop _

theorem recorded_timeline (id : TimelineId) : (timeline id).Recorded := recorded_query _

theorem recorded_token (id : TokenId) : (token id).Recorded := recorded_query _

/-- Looking up a token, if there is one, changes nothing. -/
theorem recorded_mapM_token (id? : Option TokenId) : (id?.mapM token).Recorded := by
  cases id? with
  | none => exact recorded_pure none
  | some id => exact (recorded_token id).bind fun t => recorded_pure (some t)

/-- Looking up a token, if there is one, changes nothing: the partial plan is the same afterwards.
-/
theorem mapM_token_eq_done {id? : Option TokenId} {t? : Option Token}
    (h : id?.mapM token s = .done t? s') : s' = s := by
  cases id? with
  | none => exact (pure_eq_done.mp h).2.symm
  | some id =>
    obtain ⟨t, ht, h⟩ := query_bind_eq_done.mp h
    exact (pure_eq_done.mp h).2.symm

theorem recorded_addTimeline (name : String) (className : Option String)
    (states : List StateTemplate) (synthesized : Bool) :
    (addTimeline name className states synthesized).Recorded := by
  refine recorded_onChronicle fun chron r h => ?_
  obtain rfl := Except.ok.inj h
  exact TrackedChronicle.records_addTimeline chron name className states synthesized

theorem recorded_addToken (t : Token) : (addToken t).Recorded := by
  refine recorded_onChronicle fun chron r h => ?_
  obtain rfl := Except.ok.inj h
  exact TrackedChronicle.records_addToken chron t

/-- A bare change of the chronicle is recorded where it can be taken back, which depends on the
chronicle at hand. -/
theorem recordedAt_perform {change : ChronicleChange} {f : Chronicle → Chronicle}
    (hf : s.chron.Records (s.chron.perform change f)) : (perform change f).RecordedAt s := by
  refine recordedAt_onChronicle fun r h => ?_
  obtain rfl := Except.ok.inj h
  exact hf

/-- The two timepoints of a token and the constraint between them are recorded one after the other.
-/
theorem recorded_addInterval (d : Duration) : (addInterval d).Recorded :=
  recorded_addTimepoint.bind fun _ => recorded_addTimepoint.bind fun _ =>
    (recorded_post _).bind fun _ => recorded_pure _

theorem recorded_support (id : TokenId) (condition : Nat) (supporter : Support) :
    (support id condition supporter).Recorded := by
  refine recorded_onChronicle fun chron r h => ?_
  obtain ⟨chron', hchron, rfl⟩ := Fault.map_eq_ok.mp h
  exact TrackedChronicle.records_support hchron

theorem recorded_link (consumer : TokenId) (condition : Nat) (supplier : TokenId) :
    (link consumer condition supplier).Recorded := by
  refine recorded_onChronicle fun chron r h => ?_
  obtain ⟨chron', hchron, rfl⟩ := Fault.map_eq_ok.mp h
  exact TrackedChronicle.records_link hchron

theorem recorded_supportGoal (goal : Nat) (id : TokenId) :
    (supportGoal goal id).Recorded := by
  refine recorded_onChronicle fun chron r h => ?_
  obtain ⟨chron', hchron, rfl⟩ := Fault.map_eq_ok.mp h
  exact TrackedChronicle.records_supportGoal hchron

theorem recorded_sealTail (id : TimelineId) : (sealTail id).Recorded := by
  refine recorded_onChronicle fun chron r h => ?_
  obtain ⟨chron', hchron, rfl⟩ := Fault.map_eq_ok.mp h
  exact TrackedChronicle.records_sealTail hchron

theorem recorded_addResource (r : Resource) : (addResource r).Recorded := by
  refine recorded_onBook fun book r' h => ?_
  obtain rfl := Except.ok.inj h
  exact TrackedBook.records_addResource book r

theorem recorded_reserve (resource : ResourceId) (token : TokenId) (start stop : Timepoint)
    (amount : Nat) : (reserve resource token start stop amount).Recorded := by
  refine recorded_onBook fun book r h => ?_
  obtain rfl := Except.ok.inj h
  exact TrackedBook.records_reserve book resource token start stop amount

theorem recorded_commit (id : ReservationId) : (commit id).Recorded := by
  refine recorded_onBook fun book r h => ?_
  obtain ⟨book', hbook, rfl⟩ := Fault.map_eq_ok.mp h
  exact TrackedBook.records_commit hbook

theorem recorded_withdraw (id : ReservationId) : (withdraw id).Recorded := by
  refine recorded_onBook fun book r h => ?_
  obtain ⟨book', hbook, rfl⟩ := Fault.map_eq_ok.mp h
  exact TrackedBook.records_withdraw hbook

/-! ### Placing tokens -/

/-- Adding a fact is recorded. It is made of steps that are, but the last one can be taken back only
because the timeline was found to exist. -/
theorem recorded_addFact (id : TimelineId) (state : String) :
    (addFact id state).Recorded := by
  -- a fact is refused after planned tokens
  refine fun s => RecordedAt.query_bind fun t ht => ?_
  split
  · exact recorded_forbid _ s
  · refine (recorded_mapM_token _ s).bind fun previous s₀ h₀ => ?_
    obtain rfl := mapM_token_eq_done h₀
    refine (recorded_addInterval _ s₀).bind fun r s₁ h₁ => (recorded_post _ s₁).bind fun _ s₂ h₂ =>
      (recorded_addToken _ s₂).bind fun fact s₃ h₃ =>
        RecordedAt.bind (recordedAt_perform ?_) fun _ _ _ => recorded_pure _ _
    -- the timeline is the one that was looked up
    obtain ⟨-, -, -, chron₁⟩ := addInterval_footprint h₁
    obtain ⟨-, -, chron₂⟩ := post_footprint h₂
    obtain ⟨-, -, -, chron₃⟩ := addToken_eq_done.mp h₃
    refine TrackedChronicle.records_appendFact (t := t) ?_ fact
    rw [chron₃, chron₂, chron₁]
    exact ht

/-- Making a token without a place is recorded: its interval first, then the token. -/
theorem recorded_instantiate (id : TimelineId) (state : String) :
    (instantiate id state).Recorded := by
  refine (recorded_timeline id).bind fun t => ?_
  split
  · exact recorded_stop _
  · exact (recorded_addInterval _).bind fun _ => recorded_addToken _

/-- Inserting a token is recorded. Its handle can be taken out of the sequence again because the
position was found to be within it. -/
theorem recorded_insert (id : TokenId) (position : Nat) : (insert id position).Recorded := by
  refine fun s => RecordedAt.query_bind fun t ht => RecordedAt.query_bind fun host hhost =>
    RecordedAt.query_bind fun insertable hinsertable => ?_
  split
  · next htrue =>
    subst htrue
    obtain ⟨host', hhost', htakes⟩ := Chronicle.isInsertable_eq_ok hinsertable
    have placed : ∀ s', s'.chron = s.chron → (perform (.inserted t.timeline position)
        (·.insertToken t.timeline position id)).RecordedAt s' := by
      intro s' hchron
      refine recordedAt_perform (TrackedChronicle.records_insertToken (t := host') ?_
        (htakes.mp rfl).le_length id)
      rw [hchron]
      exact hhost'
    -- posting leaves the timelines alone
    have posted : ∀ s' c, s'.chron = s.chron → (post c >>= fun _ => perform
        (.inserted t.timeline position) (·.insertToken t.timeline position id)).RecordedAt s' :=
      fun s' c hchron => (recorded_post c s').bind fun _ s'' hs'' =>
        placed s'' ((post_footprint hs'').2.2.trans hchron)
    refine (recorded_mapM_token _ s).bind fun previous s₁ h₁ => ?_
    obtain rfl := mapM_token_eq_done h₁
    refine (recorded_mapM_token _ s₁).bind fun next s₂ h₂ => ?_
    obtain rfl := mapM_token_eq_done h₂
    -- without neighbours there is less to post
    cases previous with
    | none =>
      cases next with
      | none => exact placed s₂ rfl
      | some n => exact posted s₂ _ rfl
    | some p =>
      refine (recorded_post _ s₂).bind fun _ s₃ h₃ => ?_
      have hchron := (post_footprint h₃).2.2
      cases next with
      | none => exact placed s₃ hchron
      | some n => exact posted s₃ _ hchron
  · exact recorded_forbid _ s

/-- A token that is locked when it is joined stays so when the join is taken back. -/
theorem recorded_join (before after : TokenId) : (join before after).Recorded := by
  refine (recorded_query _).bind fun predecessor => ?_
  split
  · exact recorded_forbid _
  · refine (recorded_token before).bind fun b s => ?_
    refine (recorded_token after s).bind fun a s' ha => ?_
    obtain ⟨htoken, rfl⟩ := query_eq_done.mp ha
    refine (recorded_post _ s).bind fun u s' hpost => ?_
    -- posting leaves the chronicle alone, so that the token is not locked yet
    obtain ⟨-, -, rfl⟩ := post_eq_done.mp hpost
    split
    · next hlocked =>
      exact recordedAt_perform
        (TrackedChronicle.records_setLocked htoken (by simpa using hlocked))
    · exact recorded_pure () _

end Edit

/-! ### Decisions -/

namespace Task

open Edit

variable (task : Task)

theorem recorded_reserveFor (id : TokenId) (condition : Nat) (resource : ResourceId)
    (amount : Nat) : (reserveFor id condition resource amount).Recorded :=
  (recorded_token id).bind fun _ => (recorded_reserve _ _ _ _ _).bind fun _ =>
    (recorded_support _ _ _).bind fun _ => recorded_pure _

theorem recorded_linkTo (consumer : TokenId) (condition : Nat) (supplier : TokenId)
    (relation : Relation) : (linkTo consumer condition supplier relation).Recorded := by
  refine (recorded_token consumer).bind fun c => (recorded_token supplier).bind fun s => ?_
  cases relation with
  | adjacent => exact (recorded_join _ _).bind fun _ => recorded_link _ _ _
  | metBy => exact (recorded_post _).bind fun _ => recorded_link _ _ _
  | during =>
    exact (recorded_post _).bind fun _ => (recorded_post _).bind fun _ => recorded_link _ _ _

theorem recorded_serveGoal (goal : Nat) (id : TokenId) : (task.serveGoal goal id).Recorded := by
  refine (recorded_supportGoal goal id).bind fun _ => ?_
  unfold sealGoal
  split
  · exact (recorded_query _).bind fun _ => recorded_sealTail _
  · exact recorded_pure ()

theorem recorded_carryOut (d : Decision) : (task.carryOut d).Recorded := by
  -- each decision is a sequence of edits, and those are recorded
  cases d with
  | supportGoal goal token =>
    exact (task.recorded_serveGoal goal token).bind fun _ => recorded_pure _
  | insertGoal goal position =>
    exact (recorded_query _).bind fun g => (recorded_instantiate _ _).bind fun id =>
      (recorded_insert id position).bind fun _ =>
        (task.recorded_serveGoal goal id).bind fun _ => recorded_pure _
  | reserve token condition resource amount =>
    exact (recorded_reserveFor _ _ _ _).bind fun _ => recorded_pure _
  | createResource token condition className amount =>
    exact (recorded_query _).bind fun _ => (recorded_addResource _).bind fun _ =>
      (recorded_reserveFor _ _ _ _).bind fun _ => recorded_pure _
  | link token condition supplier relation =>
    exact (recorded_linkTo _ _ _ _).bind fun _ => recorded_pure _
  | insertSupplier token condition timeline state position relation =>
    exact (recorded_instantiate _ _).bind fun _ => (recorded_insert _ _).bind fun _ =>
      (recorded_linkTo _ _ _ _).bind fun _ => recorded_pure _
  | createTimeline token condition className state relation =>
    exact (recorded_query _).bind fun _ => (recorded_addTimeline _ _ _ _).bind fun _ =>
      (recorded_instantiate _ _).bind fun _ => (recorded_insert _ _).bind fun _ =>
        (recorded_linkTo _ _ _ _).bind fun _ => recorded_pure _
  | order before after =>
    refine (recorded_query _).bind fun b? => (recorded_query _).bind fun a? => ?_
    split
    · exact (recorded_post _).bind fun _ => recorded_pure _
    · exact (recorded_stop _).bind fun _ => recorded_pure _

theorem recorded_commitAll (ids : List ReservationId) : (commitAll ids).Recorded := by
  induction ids with
  | nil => exact recorded_pure ()
  | cons id ids ih => exact (recorded_commit id).bind fun _ => ih

theorem recorded_apply (d : Decision) : (task.apply d).Recorded :=
  (task.recorded_carryOut d).bind fun _ => (recorded_check _).bind fun _ =>
    recorded_commitAll _

/-- **Every decision can be taken back**, whether it succeeds or gets stuck halfway. -/
theorem reversible_apply (d : Decision) : (task.apply d).Reversible :=
  (task.recorded_apply d).reversible

/-! ### The first partial plan -/

theorem recorded_declareResources (rs : List ResourceDef) : (declareResources rs).Recorded := by
  induction rs with
  | nil => exact recorded_pure ()
  | cons r rs ih => exact (recorded_addResource _).bind fun _ => ih

theorem recorded_declareTimelines (ts : List TimelineDef) : (declareTimelines ts).Recorded := by
  induction ts with
  | nil => exact recorded_pure ()
  | cons t ts ih => exact (recorded_addTimeline _ _ _ _).bind fun _ => ih

theorem recorded_placeFacts (id : TimelineId) (fs : List GroundRef) :
    (placeFacts id fs).Recorded := by
  induction fs with
  | nil => exact recorded_pure ()
  | cons f fs ih => exact (recorded_addFact id f.state).bind fun _ => ih

theorem recorded_placeAllFacts (is : List Nat) : (task.placeAllFacts is).Recorded := by
  induction is with
  | nil => exact recorded_pure ()
  | cons i is ih => exact (recorded_placeFacts _ _).bind fun _ => ih

theorem recorded_setUp : task.setUp.Recorded :=
  (recorded_declareResources _).bind fun _ => (recorded_declareTimelines _).bind fun _ =>
    task.recorded_placeAllFacts _

end Task

end TemporalPlanning
