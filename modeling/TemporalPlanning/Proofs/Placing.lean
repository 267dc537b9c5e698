import TemporalPlanning.Proofs.Chronicle.Placement
import TemporalPlanning.Proofs.Network.Steady

/-!
# What compound edits do

The edits that create, place, join and support tokens are made of look-ups, of constraints that are
posted and of one change of the timelines. The lemmas of this file put the look-ups first, so that
what remains is to post some constraints (`Edit.postAll`) and to make the change.
-/

namespace TemporalPlanning

namespace Edit

variable {s s' : PartialPlan}

/-- Posts constraints one after the other. -/
def postAll : List Constraint → Edit Unit
  | [] => pure ()
  | c :: cs => do
    post c
    postAll cs

end Edit

namespace Network

variable {horizon : Option Int} {s s' : PartialPlan}

/-- Posting constraints keeps the solutions that obey them all. By induction along the list: a
constraint that is accepted leaves a steady network, and the solutions of that network are what the
rest is posted to. -/
theorem Steady.postAll (h : s.network.Steady horizon) {cs : List Constraint}
    (hcs : ∀ c ∈ cs, c.Within Duration.limit) {u : Unit}
    (hs : Edit.postAll cs s = .done u s') :
    s'.network.Steady horizon ∧ s'.network.size = s.network.size ∧ s'.book = s.book ∧
      s'.chron = s.chron ∧
      ∀ date, s'.network.Fits date ↔ s.network.Fits date ∧ ∀ c ∈ cs, c.Holds date := by
  induction cs generalizing s with
  | nil =>
    obtain ⟨-, rfl⟩ := Edit.pure_eq_done.mp hs
    exact ⟨h, rfl, rfl, rfl, by simp⟩
  | cons c cs ih =>
    -- the first constraint keeps the network steady, which the induction asks for of the others
    obtain ⟨_, s₁, h₁, h₂⟩ := Edit.bind_eq_done.mp hs
    obtain ⟨hc, hcs⟩ := List.forall_mem_cons.mp hcs
    obtain ⟨st₁, size₁, book₁, chron₁, fits₁⟩ := h.post hc h₁
    obtain ⟨st₂, size₂, book₂, chron₂, fits₂⟩ := ih st₁ hcs h₂
    refine ⟨st₂, size₂.trans size₁, book₂.trans book₁, chron₂.trans chron₁, fun date => ?_⟩
    -- the solutions are cut down by one constraint after another
    rw [fits₂, fits₁, List.forall_mem_cons, and_assoc]

/-- Constraints that some solution obeys are not refused. It need not be the same solution for each
of them, but in the uses it is the one that a plan describes. -/
theorem Steady.unstuck_postAll (h : s.network.Steady horizon) {cs : List Constraint}
    (hcs : ∀ c ∈ cs, c.Within Duration.limit) {date : Timepoint → Int}
    (hdate : s.network.Fits date) (hholds : ∀ c ∈ cs, c.Holds date) :
    (Edit.postAll cs).Unstuck s := by
  induction cs generalizing s with
  | nil => exact Edit.unstuck_pure
  | cons c cs ih =>
    obtain ⟨hc, hcs⟩ := List.forall_mem_cons.mp hcs
    obtain ⟨hc', hholds⟩ := List.forall_mem_cons.mp hholds
    -- the one date witnesses every constraint, so it still fits after the first
    refine (h.unstuck_post hdate hc').bind fun _ s₁ h₁ => ?_
    obtain ⟨st₁, -, -, -, fits₁⟩ := h.post hc h₁
    exact ih st₁ hcs ((fits₁ date).mpr ⟨hdate, hc'⟩) hholds

/-- The constraint that one timepoint comes before another has the bound 0, which is among the
durations that states may declare. -/
theorem within_precedes (t u : Timepoint) : (Constraint.precedes t u).Within Duration.limit := by
  refine ⟨⟨by simp [Constraint.precedes, Duration.limit],
    by simp [Constraint.precedes, Duration.limit]⟩,
    fun hi hhi => ?_⟩
  cases hhi

/-- Two timepoints at the same instant are a constraint whose bounds are 0, as neighbours that meet
post it. -/
theorem within_exactly_zero (t u : Timepoint) :
    (Constraint.exactly t u 0).Within Duration.limit := by
  refine ⟨⟨by simp [Constraint.exactly, Duration.limit],
    by simp [Constraint.exactly, Duration.limit]⟩,
    fun hi hhi => ?_⟩
  obtain rfl := Option.some.inj hhi
  decide

end Network

/-- A planned token that stands nowhere yet; it is the `index`-th one. -/
def Token.planned (timeline : TimelineId) (state : String) (index conditions : Nat) : Token :=
  { timeline, state, start := ⟨2 * index + 1⟩, stop := ⟨2 * index + 2⟩, origin := .planned,
    supports := List.replicate conditions none, locked := false }

/-- A planned token starts with all its conditions open and nothing supported by it. -/
theorem Token.isBlank_planned (timeline : TimelineId) (state : String) (index conditions : Nat) :
    (Token.planned timeline state index conditions).IsBlank := by
  intro i support h
  simp only [Token.planned, List.getElem?_replicate] at h
  split at h <;> simp at h

namespace Edit

variable {α β : Type} {s s' : PartialPlan}

/-! ### Look-ups -/

/-- An edit is not forbidden. -/
def Allowed (e : Edit α) (s : PartialPlan) : Prop := ∀ why, e s ≠ .forbidden why

theorem Allowed.of_done {e : Edit α} {a : α} (h : e s = .done a s') : e.Allowed s := by
  intro why hwhy
  rw [h] at hwhy
  exact absurd hwhy (by simp)

/-- Also what got stuck was allowed: a dead end is an answer of the network or of the book, not a
misuse of the chronicle. -/
theorem Allowed.of_stuck {e : Edit α} {why : DeadEnd} (h : e s = .stuck why s') : e.Allowed s := by
  intro why hwhy
  rw [h] at hwhy
  exact absurd hwhy (by simp)

/-- An edit that is forbidden does not get stuck. -/
theorem Unstuck.of_allowed {e : Edit α} (h : e.Allowed s → e.Unstuck s) : e.Unstuck s :=
  fun why s' hs => h (.of_stuck hs) why s' hs

/-- What an allowed edit looks up is there. An edit is allowed where it raises no fault, so that a
failed look-up would contradict the hypothesis. -/
theorem Allowed.query_bind {f : PartialPlan → Except Fault α} {g : α → Edit β}
    (h : (query f >>= g).Allowed s) : ∃ a, f s = .ok a ∧ (g a).Allowed s := by
  cases hf : f s with
  | ok a =>
    refine ⟨a, rfl, fun why hwhy => h why ?_⟩
    rw [query_bind_apply hf]
    exact hwhy
  -- a look-up that faults would be the edit's own fault
  | error why =>
    refine absurd ?_ (h why)
    rw [bind_apply, query, hf]

/-- If two steps in a row are allowed, then so is the first one. -/
theorem Allowed.of_bind {x : Edit α} {f : α → Edit β} (h : (x >>= f).Allowed s) : x.Allowed s := by
  intro why hwhy
  refine h why ?_
  rw [bind_apply, hwhy]

/-- The token of an optional handle. -/
def Looks (s : PartialPlan) (id? : Option TokenId) (t? : Option Token) : Prop :=
  match id?, t? with
  | some id, some t => s.chronicle.token id = .ok t
  | none, none => True
  | _, _ => False

/-- What is said of the token that was looked up is said of the token behind the handle, if there is
one: both ways of speaking are used for the neighbours of a gap. -/
theorem Looks.forall_iff {id? : Option TokenId} {t? : Option Token} (h : Looks s id? t?)
    {P : Token → Prop} : (∀ t, t? = some t → P t) ↔
      ∀ id t, id? = some id → s.chronicle.token id = .ok t → P t := by
  -- a handle and its token are both there or both missing
  match id?, t? with
  | none, none => simp
  | some id, some t =>
    constructor
    · rintro hP _ u ⟨rfl⟩ hu
      obtain rfl := Chronicle.token_inj h hu
      exact hP _ rfl
    · rintro hP _ ⟨rfl⟩
      exact hP id _ rfl h
  | none, some _ => exact h.elim
  | some _, none => exact h.elim

/-- If looking up a neighbour and going on with it is allowed, then the neighbour is found where
there is one, and going on is allowed. -/
theorem Allowed.mapM_token_bind {id? : Option TokenId} {g : Option Token → Edit β}
    (h : (id?.mapM token >>= g).Allowed s) : ∃ t?, Looks s id? t? ∧ (g t?).Allowed s := by
  cases id? with
  | none => exact ⟨none, trivial, h⟩
  | some id =>
    -- looking up under `some` is looking up, with the answer under `some`
    have h' : (token id >>= fun t => g (some t)).Allowed s := by
      intro why hwhy
      refine h why (Eq.trans ?_ hwhy)
      show ((token id >>= fun t => pure (some t)) >>= g) s = _
      rw [bind_assoc_apply]
      rfl
    obtain ⟨t, ht, h'⟩ := Allowed.query_bind h'
    exact ⟨some t, ht, h'⟩

/-- A neighbour that has been looked up can be put in the place of its look-up, which changes
nothing in the partial plan. -/
theorem mapM_token_bind_apply {id? : Option TokenId} {t? : Option Token}
    {g : Option Token → Edit β} (h : Looks s id? t?) : (id?.mapM token >>= g) s = g t? s := by
  match id?, t? with
  | none, none => rfl
  | some id, some t =>
    show ((token id >>= fun t => pure (some t)) >>= g) s = _
    rw [bind_assoc_apply]
    exact query_bind_apply h
  | none, some _ => exact h.elim
  | some _, none => exact h.elim

/-! ### Constraints and what follows them -/

/-- Steps that go on alike after every answer do the same. -/
theorem bind_congr_apply {x : Edit α} {f g : α → Edit β} (h : ∀ a s, f a s = g a s) :
    (x >>= f) s = (x >>= g) s := by
  rw [bind_apply, bind_apply]
  cases x s with
  | done a s' => exact h a s'
  | stuck why s' => rfl
  | forbidden why => rfl

/-- Posting one constraint and then a list of them is posting the longer list. -/
theorem post_bind_postAll_bind_apply {c : Constraint} {cs : List Constraint} {g : Edit β} :
    (post c >>= fun _ => postAll cs >>= fun _ => g) s = (postAll (c :: cs) >>= fun _ => g) s :=
  (bind_assoc_apply (x := post c) (f := fun _ => postAll cs) (g := fun _ => g)).symm

/-- Posting one constraint is posting the list of it alone. -/
theorem post_bind_apply {c : Constraint} {g : Edit β} :
    (post c >>= fun _ => g) s = (postAll [c] >>= fun _ => g) s :=
  @post_bind_postAll_bind_apply _ _ c [] g

/-! ### Creating and placing a token -/

/-- The constraints between a token and its neighbours. -/
def neighbourly (t : Token) (previous next : Option Token) : List Constraint :=
  (previous.map fun p => Constraint.precedes p.stop t.start).toList ++
    (next.map fun n => Constraint.precedes t.stop n.start).toList

/-- All that is posted between neighbours has the bound 0, so that a steady network takes it. -/
theorem within_neighbourly {t : Token} {previous next : Option Token} :
    ∀ c ∈ neighbourly t previous next, c.Within Duration.limit := by
  intro c hc
  simp only [neighbourly, List.mem_append, Option.mem_toList, Option.map_eq_some_iff] at hc
  rcases hc with ⟨p, -, rfl⟩ | ⟨n, -, rfl⟩
  · exact Network.within_precedes _ _
  · exact Network.within_precedes _ _

/-- Dates obey what is posted for a token between its neighbours exactly if the one before it, where
there is one, stops before it starts, and the one behind starts after it stops. -/
theorem holds_neighbourly {t : Token} {previous next : Option Token} {date : Timepoint → Int} :
    (∀ c ∈ neighbourly t previous next, c.Holds date) ↔
      (∀ p, previous = some p → date p.stop ≤ date t.start) ∧
        ∀ n, next = some n → date t.stop ≤ date n.start := by
  cases previous <;> cases next <;> simp [neighbourly]

/-- Placing a token is posting that its neighbours come before and after it, and then putting it
into the sequence. -/
theorem insert_apply {id : TokenId} {position : Nat} {t : Token} {host : Timeline}
    {previous next : Option Token} (ht : s.chronicle.token id = .ok t)
    (hhost : s.chronicle.timeline t.timeline = .ok host)
    (hinsertable : s.chronicle.isInsertable t.timeline position = .ok true)
    (hprevious : Looks s (Chronicle.before? host.sequence position) previous)
    (hnext : Looks s host.sequence[position]? next) :
    insert id position s = (postAll (neighbourly t previous next) >>= fun _ =>
      perform (.inserted t.timeline position) (·.insertToken t.timeline position id)) s := by
  unfold insert
  -- what is looked up is known, so that only the posting of constraints remains
  refine (query_bind_apply ht).trans ((query_bind_apply hhost).trans ?_)
  refine (query_bind_apply hinsertable).trans ?_
  rw [if_pos rfl]
  refine (mapM_token_bind_apply hprevious).trans ((mapM_token_bind_apply hnext).trans ?_)
  -- with both neighbours the constraints are posted one after the other
  cases previous with
  | none =>
    cases next with
    | none => rfl
    | some n => exact post_bind_apply
  | some p =>
    cases next with
    | none => exact post_bind_apply
    | some n =>
      refine Eq.trans (bind_congr_apply fun _ s₁ => ?_) post_bind_postAll_bind_apply
      exact post_bind_apply

/-- Creating a token of a declared state is creating its interval and adding the token. -/
theorem instantiate_apply {id : TimelineId} {state : String} {host : Timeline}
    {template : StateTemplate} (hhost : s.chronicle.timeline id = .ok host)
    (htemplate : host.template? state = some template) :
    instantiate id state s = (addInterval template.duration >>= fun r => addToken
      { timeline := id, state, start := r.1, stop := r.2, origin := .planned,
        supports := List.replicate template.conditions.length none, locked := false }) s := by
  refine (query_bind_apply hhost).trans ?_
  rw [htemplate]

/-- Adding a token to the chronicle succeeds always: it gets the next free handle, and neither the
network nor the book changes. -/
theorem addToken_eq_done {t : Token} {id : TokenId} :
    addToken t s = .done id s' ↔ id = ⟨s.chronicle.tokens.size⟩ ∧ s'.net = s.net ∧
      s'.book = s.book ∧ s'.chron = s.chron.perform .newToken (·.addToken t) := by
  obtain ⟨net, book, chron⟩ := s
  obtain ⟨net', book', chron'⟩ := s'
  unfold addToken
  rw [onChronicle_eq_done]
  simp only [TrackedChronicle.addToken, Except.ok.injEq, Prod.mk.injEq, PartialPlan.mk.injEq]
  constructor
  · rintro ⟨_, ⟨rfl, rfl⟩, rfl, rfl, rfl⟩
    exact ⟨rfl, rfl, rfl, rfl⟩
  · rintro ⟨rfl, rfl, rfl, rfl⟩
    exact ⟨_, ⟨rfl, rfl⟩, rfl, rfl, rfl⟩

/-- A change of the chronicle succeeds always, is noted down in its trail and leaves the network and
the book alone. -/
theorem perform_eq_done {change : ChronicleChange} {f : Chronicle → Chronicle} {u : Unit} :
    perform change f s = .done u s' ↔ s'.net = s.net ∧ s'.book = s.book ∧
      s'.chron = s.chron.perform change f := by
  obtain ⟨net, book, chron⟩ := s
  obtain ⟨net', book', chron'⟩ := s'
  unfold perform
  rw [onChronicle_eq_done]
  simp only [Except.ok.injEq, Prod.mk.injEq, and_true, PartialPlan.mk.injEq]
  constructor
  · rintro ⟨_, rfl, rfl, rfl, rfl⟩
    exact ⟨rfl, rfl, rfl⟩
  · rintro ⟨rfl, rfl, rfl⟩
    exact ⟨_, rfl, rfl, rfl, rfl⟩

/-- What placing a token looks up. These are the tokens and the timeline whose dates the constraints
of the insertion are about. -/
theorem Allowed.insert {id : TokenId} {position : Nat} (h : (Edit.insert id position).Allowed s) :
    ∃ t host previous next, s.chronicle.token id = .ok t ∧
      s.chronicle.timeline t.timeline = .ok host ∧
      s.chronicle.isInsertable t.timeline position = .ok true ∧
      Looks s (Chronicle.before? host.sequence position) previous ∧
      Looks s host.sequence[position]? next := by
  obtain ⟨t, ht, h⟩ := Allowed.query_bind h
  obtain ⟨host, hhost, h⟩ := Allowed.query_bind h
  obtain ⟨insertable, hinsertable, h⟩ := Allowed.query_bind h
  split at h
  · next htrue =>
    subst htrue
    -- an insertable place lies inside the sequence, and its neighbours are looked up
    obtain ⟨previous, hprevious, h⟩ := Allowed.mapM_token_bind h
    obtain ⟨next, hnext, -⟩ := Allowed.mapM_token_bind h
    exact ⟨t, host, previous, next, ht, hhost, hinsertable, hprevious, hnext⟩
  · exact absurd rfl (h _)

/-- Creates a token and puts it into the sequence of its timeline. -/
def place (id : TimelineId) (state : String) (position : Nat) : Edit TokenId := do
  let token ← instantiate id state
  insert token position
  return token

/-- To make a token and then insert it is one step, `place`, in which it does not matter how one
goes on. -/
theorem place_bind_apply {id : TimelineId} {state : String} {position : Nat}
    {g : TokenId → Edit β} :
    (instantiate id state >>= fun token => insert token position >>= fun _ => g token) s =
      (place id state position >>= g) s := by
  rw [place, bind_assoc_apply, bind_apply, bind_apply]
  cases instantiate id state s with
  | done token s₁ =>
    exact (bind_assoc_apply (x := insert token position) (f := fun _ => pure token) (g := g)).symm
  | stuck why s₁ => rfl
  | forbidden why => rfl

end Edit

end TemporalPlanning
