import TemporalPlanning.Proofs.Chronicle.Lookup
import TemporalPlanning.Proofs.Network.Posting

/-!
# Trails that lead back

Every change of a network, of the reservations and of the timelines is kept on a trail.
`Trailed.Extends t t'` says that `t'` is `t` with further changes on top that can be taken back
exactly: going back to a mark of `t` from `t'` is the same as going back to it from `t`.

Taking a change back is itself a change, of a row, an entry or an element that has to be there.
`Trailed.Unwinds` says that it is, however far a trail is taken back. For the network this includes
that each timepoint had room for its window when it was created (`NetworkChange.InPlace`), because
on the way back the network of that moment is met again.
-/

namespace TemporalPlanning

namespace Trailed

variable {σ χ : Type} [Revertible σ χ]

/-- `t'` is `t` with further changes, which can be taken back. -/
structure Extends (t t' : Trailed σ χ) : Prop where
  mark_le : t.mark ≤ t'.mark
  undoTo? : ∀ m ≤ t.mark, t'.undoTo? m = t.undoTo? m

variable {t t' t'' : Trailed σ χ}

/-- Nothing noted down is still to be called an extension. -/
theorem Extends.refl (t : Trailed σ χ) : t.Extends t := ⟨le_rfl, fun _ _ => rfl⟩

/-- Changes on top of changes on top of a value are changes on top of it. -/
theorem Extends.trans (h : t.Extends t') (h' : t'.Extends t'') : t.Extends t'' :=
  ⟨h.mark_le.trans h'.mark_le,
    fun m hm => by rw [h'.undoTo? m (hm.trans h.mark_le), h.undoTo? m hm]⟩

/-- A change that its reversal takes back exactly. -/
theorem Extends.perform {change : χ} {f : σ → σ}
    (h : Revertible.revert change (f t.value) = t.value) : t.Extends (t.perform change f) where
  mark_le := by simp [mark, Trailed.perform]
  undoTo? _ hm := undoTo?_perform hm h

/-- Going back to where `t` stood leads to `t`. -/
theorem Extends.undoTo?_mark (h : t.Extends t') : t'.undoTo? t.mark = some t := by
  rw [h.undoTo? _ le_rfl, Trailed.undoTo?_mark]

/-- Going back leads to a mark that the trail has reached, never forward. -/
theorem mark_le_of_undoTo? {m : Nat} (h : t.undoTo? m = some t') : m ≤ t.mark := by
  unfold undoTo? at h
  split at h
  · assumption
  · exact absurd h (by simp)

/-- Further changes do not matter to who goes back past them. -/
theorem Extends.undoTo?_eq_some (h : t.Extends t') {m : Nat} (hm : t.undoTo? m = some t'') :
    t'.undoTo? m = some t'' := by
  rw [h.undoTo? m (mark_le_of_undoTo? hm), hm]

/-- Going back by some steps and then by some more is going back by all of them at once. Where the
trail has come to its end, further steps do nothing. -/
theorem rollback_add (a b : Nat) (t : Trailed σ χ) :
    rollback (a + b) t = rollback b (rollback a t) := by
  induction a generalizing t with
  | zero => simp [rollback]
  | succ a ih =>
    -- one step back, or none where the trail is at its end
    obtain ⟨value, trail⟩ := t
    rw [Nat.succ_add_eq_add_succ a b, Nat.add_succ]
    simp only [rollback]
    cases hback : trail.back? with
    | some change => exact ih _
    | none =>
      have stop : ∀ n, rollback n (⟨value, trail⟩ : Trailed σ χ) = ⟨value, trail⟩ := by
        rintro (_ | n)
        · rfl
        · simp only [rollback, hback]
      exact (stop b).symm

/-- Each step back takes one change off the trail, down to the empty one. The subtraction is the one
of natural numbers, as going back too far stops at the empty trail. -/
theorem size_trail_rollback (n : Nat) (t : Trailed σ χ) :
    (rollback n t).trail.size = t.trail.size - n := by
  induction n generalizing t with
  | zero => rfl
  | succ n ih =>
    obtain ⟨value, trail⟩ := t
    simp only [rollback]
    cases hback : trail.back? with
    | some change =>
      rw [ih]
      simp only [Array.size_pop]
      omega
    -- an empty trail stays empty, and there is nothing to count down from
    | none =>
      have : trail.size = 0 := by simpa [Array.back?_eq_none_iff] using hback
      simp only [this, Nat.zero_sub]

/-- After going back to a mark the trail stands at that mark. -/
theorem mark_of_undoTo? {m : Nat} (h : t.undoTo? m = some t') : t'.mark = m := by
  unfold undoTo? at h
  split at h
  · next hm =>
    obtain rfl := Option.some.inj h
    rw [mark, size_trail_rollback]
    omega
  · exact absurd h (by simp)

/-- Going back in two steps is going back in one. So a search may go back frame by frame, or all the
way at once. -/
theorem undoTo?_of_undoTo? {m m' : Nat} (h : t.undoTo? m = some t') (hm : m' ≤ m) :
    t'.undoTo? m' = t.undoTo? m' := by
  have hmark := mark_of_undoTo? h
  unfold undoTo? at h
  split at h
  · next hle =>
    -- the earlier mark is within the trail, before and after
    have hm' : m' ≤ t.trail.size := hm.trans hle
    have hle' : m' ≤ t'.trail.size := by rw [← mark, hmark]; exact hm
    obtain rfl := Option.some.inj h
    -- the steps to the first mark and those from there to the second are all the steps
    rw [undoTo?, undoTo?, if_pos hle', if_pos hm', ← rollback_add, size_trail_rollback]
    congr 2
    omega
  · exact absurd h (by simp)

/-! ### Finding what a change is about -/

/-- However far `t` is taken back, `P` holds of the newest change that is left and of the value that
it has led to. -/
def Unwinds (P : χ → σ → Prop) (t : Trailed σ χ) : Prop :=
  ∀ n change, (rollback n t).trail.back? = some change → P change (rollback n t).value

variable {P : χ → σ → Prop}

/-- A fresh value has an empty trail, and nothing is to be taken back. -/
theorem unwinds_fresh (value : σ) : (fresh value : Trailed σ χ).Unwinds P := by
  intro n change hback
  have hsize : (rollback n (fresh value : Trailed σ χ)).trail.size = 0 := by
    rw [size_trail_rollback, fresh, Array.size_empty, Nat.zero_sub]
  rw [Array.size_eq_zero_iff.mp hsize] at hback
  exact absurd hback (by simp)

/-- To go back by one step more than after a change is to take that change back first, which leads
to the value before it. -/
theorem rollback_perform {change : χ} {f : σ → σ}
    (h : Revertible.revert change (f t.value) = t.value) (n : Nat) :
    rollback (n + 1) (t.perform change f) = rollback n t := by
  simp [perform, rollback, h]

/-- A trail that can be unwound can be unwound also with a change on top, if the change is taken
back rightly and what has to hold of it does. -/
theorem Unwinds.perform (h : t.Unwinds P) {change : χ} {f : σ → σ}
    (hrevert : Revertible.revert change (f t.value) = t.value) (hP : P change (f t.value)) :
    (t.perform change f).Unwinds P := by
  intro n change' hback
  cases n with
  -- the change just recorded is the first to be taken back; behind it stands the old trail
  | zero =>
    obtain rfl : change = change' := by simpa [rollback, Trailed.perform] using hback
    exact hP
  | succ n =>
    rw [rollback_perform hrevert] at hback ⊢
    exact h n change' hback

/-- `t'` is `t` with further changes, which can be taken back and find then what they are about. -/
structure Records (P : χ → σ → Prop) (t t' : Trailed σ χ) : Prop where
  extended : t.Extends t'
  unwinds : t.Unwinds P → t'.Unwinds P

theorem Records.refl (t : Trailed σ χ) : Records P t t := ⟨.refl t, id⟩

theorem Records.trans (h : Records P t t') (h' : Records P t' t'') : Records P t t'' :=
  ⟨h.extended.trans h'.extended, h'.unwinds ∘ h.unwinds⟩

/-- A change is recorded if it is taken back rightly and what has to hold of it does: the other
operations are made of this one. -/
theorem Records.perform {change : χ} {f : σ → σ}
    (hrevert : Revertible.revert change (f t.value) = t.value) (hP : P change (f t.value)) :
    Records P t (t.perform change f) :=
  ⟨.perform hrevert, fun h => h.perform hrevert hP⟩

end Trailed

/-! ### Single changes -/

/-- A change that leaves an entry of an array as it is. -/
theorem modify_eq_self {α : Type} {xs : Array α} {i : Nat} {f : α → α}
    (h : ∀ x, xs[i]? = some x → f x = x) : xs.modify i f = xs := by
  refine Array.ext_getElem? fun j => ?_
  rw [Array.getElem?_modify]
  split
  · next hij =>
    subst hij
    cases hx : xs[i]? with
    | none => rfl
    | some x => rw [Option.map_some, h x hx]
  · rfl

/-- Changing an entry of an array and taking that back changes nothing. -/
theorem modify_modify_eq {α : Type} {xs : Array α} {i : Nat} {f g : α → α}
    (h : ∀ x, xs[i]? = some x → g (f x) = x) : (xs.modify i f).modify i g = xs := by
  have hboth : (xs.modify i f).modify i g = xs.modify i (g ∘ f) := by
    refine Array.ext_getElem? fun j => ?_
    simp only [Array.getElem?_modify]
    split <;> simp
  exact hboth.trans (modify_eq_self h)

/-- Setting an entry of an array and setting it back changes nothing. -/
theorem setIfInBounds_setIfInBounds_eq {α : Type} {xs : Array α} {i : Nat} {old new : α}
    (h : ∀ x, xs[i]? = some x → x = old) :
    (xs.setIfInBounds i new).setIfInBounds i old = xs := by
  rw [Array.setIfInBounds_setIfInBounds, Array.setIfInBounds_def]
  split
  · next hlt =>
    obtain rfl := h _ (Array.getElem?_eq_getElem hlt)
    exact Array.set_getElem_self hlt
  · rfl

namespace TrackedNetwork

variable (net : TrackedNetwork)

/-- A distance that was overwritten is restored by writing the old one in its place. -/
theorem setDistance_distance (net : Network) (t u : Timepoint) (d : Distance) :
    (net.setDistance t u d).setDistance t u (net.distance t u) = net := by
  obtain ⟨rows, horizon⟩ := net
  simp only [Network.setDistance, Network.distance, Network.mk.injEq, and_true]
  refine modify_modify_eq fun row hrow => setIfInBounds_setIfInBounds_eq fun x hx => ?_
  rw [hrow]
  simp [hx]

/-- Each step of tightening is noted down with the distance that it replaces, one on top of the
other. -/
theorem extends_lowerAll (steps : List Tightening) : net.Extends (net.lowerAll steps) := by
  induction steps generalizing net with
  | nil => exact .refl net
  | cons step steps ih =>
    have hstep : net.Extends (net.lower step) := .perform (setDistance_distance _ _ _ _)
    exact hstep.trans (ih _)

/-- A constraint is two edges, each of which tightens some distances; all of them are on the trail.
-/
theorem extends_enforce (c : Constraint) : net.Extends (net.enforce c) := by
  unfold enforce
  split
  · exact (extends_lowerAll net _).trans (extends_lowerAll _ _)
  · exact extends_lowerAll net _

/-- A network that grew by a timepoint and then shrinks is the one before: the row and the column of
the new timepoint are dropped, and no other distance was touched. -/
theorem shrink_extend (net : Network) : net.extend.shrink = net := by
  obtain ⟨rows, horizon⟩ := net
  simp only [Network.extend, Network.shrink, Network.mk.injEq, and_true]
  refine Array.ext' ?_
  simp [Function.comp_def]

/-- A timepoint is noted down as one change, and after it the distances that its window tightens. -/
theorem extends_addTimepoint : net.Extends net.addTimepoint.1 := by
  have hextend : net.Extends (net.perform .newTimepoint Network.extend) :=
    .perform (shrink_extend net.value)
  refine hextend.trans ?_
  simp only [addTimepoint, postIfAdmitted]
  split
  · exact extends_enforce _ _
  · exact .refl _

/-- Relaxing through one timepoint tightens distances only, pair after pair. -/
theorem extends_relaxThrough (pivot first : Timepoint) :
    net.Extends (relaxThrough pivot net first) := by
  unfold relaxThrough
  split
  · exact .refl net
  · exact extends_lowerAll net _

/-- Propagating all paths again is noted down like any other tightening. -/
theorem extends_propagate : net.Extends net.propagate.1 :=
  relaxAll_induction (P := net.Extends) (.refl net) fun net' pivot first _ h =>
    h.trans (extends_relaxThrough net' pivot first)

end TrackedNetwork

/-- What a change of a network is about is there: the entry that was lowered, and room for the
window of a timepoint that was created. -/
def NetworkChange.InPlace : NetworkChange → Network → Prop
  | .lowered t u _, net => ∃ row, net.rows[t.index]? = some row ∧ u.index < row.size
  | .newTimepoint, net =>
    0 < net.size ∧ net.admits (TrackedNetwork.window net ⟨net.size - 1⟩) = true

/-- A network of which no change gets lost, with a possible horizon. -/
structure TrackedNetwork.Sturdy (net : TrackedNetwork) : Prop where
  square : net.value.Square
  horizon_nonneg : ∀ k, net.value.horizon = some k → 0 ≤ k
  unwinds : net.Unwinds NetworkChange.InPlace

namespace TrackedNetwork.Sturdy

variable {net : TrackedNetwork}

/-- The first network has the origin alone, in a matrix of one row. -/
theorem origin {horizon : Option Int} (h : ∀ k, horizon = some k → 0 ≤ k) :
    Sturdy (.fresh (.origin horizon)) where
  square := (Network.Represents.origin horizon).closed.square
  horizon_nonneg := h
  unwinds := Trailed.unwinds_fresh _

theorem lower (h : net.Sturdy) {step : Tightening} (hfirst : net.value.contains step.first)
    (hsecond : net.value.contains step.second) : (net.lower step).Sturdy where
  square := h.square.setDistance _ _ _
  horizon_nonneg := h.horizon_nonneg
  unwinds := by
    refine h.unwinds.perform (setDistance_distance _ _ _ _) ?_
    -- lowering keeps the shape, so that the cell can be set back
    have sq := h.square.setDistance step.first step.second step.value
    rw [Network.contains_iff] at hfirst hsecond
    have hlt : step.first.index < (net.value.setDistance step.first step.second step.value).size :=
      by rwa [Network.size_setDistance]
    have hrow := Array.getElem?_eq_getElem hlt
    refine ⟨_, hrow, ?_⟩
    rwa [sq.row_size _ _ hrow, Network.size_setDistance]

/-- Tightening some distances keeps a network sturdy if the network has the timepoints that they lie
between. -/
theorem lowerAll (h : net.Sturdy) {steps : List Tightening}
    (hsteps : ∀ step ∈ steps, net.value.contains step.first ∧ net.value.contains step.second) :
    (net.lowerAll steps).Sturdy := by
  induction steps generalizing net with
  | nil => exact h
  | cons step steps ih =>
    obtain ⟨hstep, hsteps⟩ := List.forall_mem_cons.mp hsteps
    refine ih (h.lower hstep.1 hstep.2) fun step' hstep' => ?_
    obtain ⟨hfirst, hsecond⟩ := hsteps step' hstep'
    rw [Network.contains_iff] at hfirst hsecond ⊢
    rw [Network.contains_iff, value_lower, Network.size_setDistance]
    exact ⟨hfirst, hsecond⟩

/-- An edge tightens distances between timepoints of the network only, as it looks at those alone.
-/
theorem addEdge (h : net.Sturdy) (t u : Timepoint) (edge : Distance) :
    (net.addEdge t u edge).Sturdy := by
  refine h.lowerAll fun step hstep => ?_
  cases hedge : edge.tighter (net.value.distance t u) with
  | true =>
    obtain ⟨hfirst, hsecond, -⟩ := (mem_tightenings hedge).mp hstep
    exact ⟨hfirst, hsecond⟩
  -- an edge that is not tighter gives no step at all
  | false =>
    rw [Network.tightenings, hedge, if_neg Bool.false_ne_true] at hstep
    exact absurd hstep List.not_mem_nil

/-- A constraint keeps a network sturdy, whether or not the network admits it. -/
theorem enforce (h : net.Sturdy) (c : Constraint) : (net.enforce c).Sturdy := by
  have hbound : (net.bound c).Sturdy := by
    unfold bound
    split
    · exact h.addEdge _ _ _
    · exact h
  exact hbound.addEdge _ _ _

/-- A timepoint is created where there is room for its window. -/
theorem addTimepoint (h : net.Sturdy) : net.addTimepoint.1.Sturdy := by
  have hwiden : net.widen.Sturdy := by
    refine ⟨h.square.extend, h.horizon_nonneg, h.unwinds.perform (shrink_extend _) ?_⟩
    refine ⟨by simp, ?_⟩
    rw [Network.size_extend, Nat.add_sub_cancel]
    exact h.square.admits_window h.horizon_nonneg
  rw [h.square.addTimepoint_eq h.horizon_nonneg]
  exact hwiden.enforce _

/-- Letting connections run through a pivot lowers distances. -/
theorem relaxThrough (h : net.Sturdy) (pivot : Timepoint) {t : Timepoint}
    (ht : net.value.contains t) : (relaxThrough pivot net t).Sturdy := by
  unfold TrackedNetwork.relaxThrough
  split
  · exact h
  · refine h.lowerAll fun step hstep => ?_
    obtain ⟨hsecond, -, heq⟩ := mem_lowerings.mp hstep
    rw [heq]
    exact ⟨ht, hsecond⟩

theorem propagate (h : net.Sturdy) : net.propagate.1.Sturdy :=
  relaxAll_induction (P := Sturdy) h fun _ pivot _ ht h => h.relaxThrough pivot ht

end TrackedNetwork.Sturdy

/-- What a change of a book is about is there. -/
def BookChange.InPlace : BookChange → ReservationBook → Prop
  | .newResource, _ | .newReservation, _ => True
  | .committed id, book | .withdrawn id _, book => id.index < book.reservations.size

namespace TrackedBook

/-- `book'` is `book` with further changes. -/
abbrev Records : TrackedBook → TrackedBook → Prop := Trailed.Records BookChange.InPlace

variable (book : TrackedBook)

/-- A new resource is taken back by dropping the last one. -/
theorem records_addResource (r : Resource) : book.Records (book.addResource r).1 := by
  show book.Records (book.perform .newResource (·.addResource r))
  refine .perform ?_ trivial
  simp [Revertible.revert, ReservationBook.revert, ReservationBook.addResource]

/-- A new reservation is taken back by dropping the last one. -/
theorem records_reserve (resource : ResourceId) (token : TokenId) (start stop : Timepoint)
    (amount : Nat) : book.Records (book.reserve resource token start stop amount).1 := by
  show book.Records (book.perform .newReservation
    (·.addReservation ⟨resource, token, start, stop, amount, .tentative⟩))
  refine .perform ?_ trivial
  simp [Revertible.revert, ReservationBook.revert, ReservationBook.addReservation]

variable {book}

/-- Confirming a reservation is recorded with its old status. A reservation that is confirmed
already stays as it is, and nothing is noted down. -/
theorem records_commit {book' : TrackedBook} {id : ReservationId} (h : book.commit id = .ok book') :
    book.Records book' := by
  -- unknown and withdrawn reservations are refused, so that two cases remain
  unfold commit at h
  split at h
  · exact absurd h (by simp)
  · exact absurd h (by simp)
  · next r hr =>
    split at h
    · obtain rfl := Except.ok.inj h
      exact .refl book
    · next hstatus =>
      obtain rfl := Except.ok.inj h
      refine .perform ?_ ?_
      · simp only [Revertible.revert, ReservationBook.revert, ReservationBook.setStatus]
        congr 1
        -- the old status is put back into the reservation that has it now
        refine modify_modify_eq fun slot hslot => ?_
        obtain rfl := Option.some.inj (hr.symm.trans hslot)
        rw [← hstatus]
        rfl
      · simpa [BookChange.InPlace, ReservationBook.setStatus] using
          (Array.getElem?_eq_some_iff.mp hr).1

/-- Withdrawing a reservation is recorded with all that was written in its place. Taking the change
back brings the reservation back with its number and its status, confirmed or not. -/
theorem records_withdraw {book' : TrackedBook} {id : ReservationId}
    (h : book.withdraw id = .ok book') : book.Records book' := by
  unfold withdraw at h
  split at h
  · exact absurd h (by simp)
  · -- withdrawn before: nothing is recorded
    obtain rfl := Except.ok.inj h
    exact .refl book
  · next old hold =>
    obtain rfl := Except.ok.inj h
    refine .perform ?_ ?_
    · -- the old entry is put back where it was found
      simp only [Revertible.revert, ReservationBook.revert, ReservationBook.setReservation]
      congr 1
      exact setIfInBounds_setIfInBounds_eq fun slot hslot =>
        Option.some.inj (hslot.symm.trans hold)
    · simpa [BookChange.InPlace, ReservationBook.setReservation] using
        (Array.getElem?_eq_some_iff.mp hold).1

end TrackedBook

namespace Chronicle

variable (c : Chronicle)

/-- Two updates of one timeline cancel if they do so for what stands there. It does not matter what
they would do elsewhere, nor whether the timeline exists. -/
theorem updateTimeline_updateTimeline_eq {id : TimelineId} {f g : Timeline → Timeline}
    (h : ∀ t, c.timelines[id.index]? = some t → g (f t) = t) :
    (c.updateTimeline id f).updateTimeline id g = c := by
  obtain ⟨timelines, tokens, links, goalSupports⟩ := c
  simp only [updateTimeline, Chronicle.mk.injEq, and_true]
  exact modify_modify_eq h

/-- Two updates of one token cancel if they do so for what stands there. -/
theorem updateToken_updateToken_eq {id : TokenId} {f g : Token → Token}
    (h : ∀ t, c.tokens[id.index]? = some t → g (f t) = t) :
    (c.updateToken id f).updateToken id g = c := by
  obtain ⟨timelines, tokens, links, goalSupports⟩ := c
  simp only [updateToken, Chronicle.mk.injEq, and_true, true_and]
  exact modify_modify_eq h

end Chronicle

/-- What a change of a chronicle is about is there. -/
def ChronicleChange.InPlace : ChronicleChange → Chronicle → Prop
  | .newTimeline, _ | .newToken, _ | .linked, _ => True
  | .newFact id, c => ∃ t, c.timeline id = .ok t ∧ 0 < t.facts
  | .inserted id position, c => ∃ t, c.timeline id = .ok t ∧ position < t.sequence.length
  | .locked id, c => ∃ t, c.token id = .ok t
  | .supported id condition, c => ∃ t, c.token id = .ok t ∧ condition < t.supports.length
  | .goalSupported goal, c => goal < c.goalSupports.size
  | .sealed id, c => ∃ t, c.timeline id = .ok t

namespace TrackedChronicle

/-- `chron'` is `chron` with further changes. -/
abbrev Records : TrackedChronicle → TrackedChronicle → Prop :=
  Trailed.Records ChronicleChange.InPlace

variable {chron chron' : TrackedChronicle}

/-- A new timeline is taken back by dropping the last one. -/
theorem records_addTimeline (chron : TrackedChronicle) (name : String) (className : Option String)
    (states : List StateTemplate) (synthesized : Bool) :
    chron.Records (chron.addTimeline name className states synthesized).1 := by
  show chron.Records (chron.perform .newTimeline
    fun c => c.addTimeline { name, className, states, synthesized })
  refine .perform ?_ trivial
  simp [Revertible.revert, Chronicle.revert, Chronicle.addTimeline]

/-- A new token is taken back by dropping the last one. -/
theorem records_addToken (chron : TrackedChronicle) (token : Token) :
    chron.Records (chron.addToken token).1 := by
  show chron.Records (chron.perform .newToken (·.addToken token))
  refine .perform ?_ trivial
  simp [Revertible.revert, Chronicle.revert, Chronicle.addToken]

/-- A fact at the end of a timeline is taken back by dropping the last token of its sequence and
counting one fact less. -/
theorem records_appendFact {id : TimelineId} {t : Timeline} (ht : chron.value.timeline id = .ok t)
    (fact : TokenId) : chron.Records (chron.perform (.newFact id) (·.appendFact id fact)) := by
  refine .perform (Chronicle.updateTimeline_updateTimeline_eq _ fun t _ => ?_)
    ⟨_, Chronicle.timeline_updateTimeline.mpr ⟨_, ht, if_pos rfl⟩, Nat.succ_pos _⟩
  simp

/-- A token is taken out where it was put in. -/
theorem records_insertToken {id : TimelineId} {t : Timeline} (ht : chron.value.timeline id = .ok t)
    {position : Nat} (hle : position ≤ t.sequence.length) (token : TokenId) :
    chron.Records (chron.perform (.inserted id position) (·.insertToken id position token)) := by
  refine .perform (Chronicle.updateTimeline_updateTimeline_eq _ fun t _ => ?_)
    ⟨_, Chronicle.timeline_updateTimeline.mpr ⟨_, ht, if_pos rfl⟩, ?_⟩
  · simp [List.eraseIdx_insertIdx_self]
  · rw [List.length_insertIdx, if_pos hle]
    exact Nat.lt_succ_of_le hle

/-- Only a token that was not locked is unlocked again. -/
theorem records_setLocked {id : TokenId} {t : Token} (h : chron.value.token id = .ok t)
    (hlocked : t.locked = false) :
    chron.Records (chron.perform (.locked id) (·.setLocked id true)) := by
  refine .perform (Chronicle.updateToken_updateToken_eq _ fun t' ht' => ?_)
    ⟨_, Chronicle.token_updateToken.mpr ⟨_, h, if_pos rfl⟩⟩
  rw [Chronicle.token_eq_ok, ht'] at h
  obtain rfl := Option.some.inj h
  rw [← hlocked]

/-- A new support is taken back by emptying its place, which had to be empty before. -/
theorem records_support {id : TokenId} {condition : Nat} {supporter : Support}
    (h : chron.support id condition supporter = .ok chron') : chron.Records chron' := by
  obtain ⟨t, ht, h⟩ := Fault.bind_eq_ok.mp h
  split at h
  · exact absurd h (by simp)
  · exact absurd h (by simp)
  · next hslot =>
    obtain rfl := Except.ok.inj h
    obtain ⟨hlt, hget⟩ := List.getElem?_eq_some_iff.mp hslot
    refine .perform (Chronicle.updateToken_updateToken_eq _ fun t' ht' => ?_)
      ⟨_, Chronicle.token_updateToken.mpr ⟨_, ht, if_pos rfl⟩, by rwa [List.length_set]⟩
    -- setting the slot to `none` again gives the token that was there
    rw [Chronicle.token_eq_ok, ht'] at ht
    obtain rfl := Option.some.inj ht
    dsimp only
    rw [List.set_set, ← hget, List.set_getElem_self]

/-- A link is noted down as one change: it is taken back by dropping the last link. -/
theorem records_link {consumer supplier : TokenId} {condition : Nat}
    (h : chron.link consumer condition supplier = .ok chron') : chron.Records chron' := by
  obtain ⟨supported, hsupport, h⟩ := Fault.bind_eq_ok.mp h
  obtain rfl := Except.ok.inj h
  refine (records_support hsupport).trans (.perform ?_ trivial)
  simp [Revertible.revert, Chronicle.revert, Chronicle.addLink]

/-- The token of a goal is taken back by emptying the place of the goal, which had to be empty
before. -/
theorem records_supportGoal {goal : Nat} {id : TokenId}
    (h : chron.supportGoal goal id = .ok chron') : chron.Records chron' := by
  unfold supportGoal at h
  split at h
  · exact absurd h (by simp)
  · exact absurd h (by simp)
  · next hslot =>
    obtain rfl := Except.ok.inj h
    -- taking the change back empties the slot, which was empty before
    refine .perform ?_ ?_
    · simp only [Revertible.revert, Chronicle.revert, Chronicle.setGoalSupport]
      congr 1
      exact setIfInBounds_setIfInBounds_eq fun slot h => Option.some.inj (h.symm.trans hslot)
    · simpa [ChronicleChange.InPlace, Chronicle.setGoalSupport] using
        (Array.getElem?_eq_some_iff.mp hslot).1

/-- Sealing a timeline is taken back by opening it. One that is sealed already stays as it is, and
nothing is noted down. -/
theorem records_sealTail {id : TimelineId} (h : chron.sealTail id = .ok chron') :
    chron.Records chron' := by
  obtain ⟨t, ht, h⟩ := Fault.bind_eq_ok.mp h
  obtain rfl := Except.ok.inj h
  split
  · exact .refl chron
  · -- only a timeline that is not sealed yet records a change
    next hsealed =>
    refine .perform (Chronicle.updateTimeline_updateTimeline_eq _ fun t' ht' => ?_)
      ⟨_, Chronicle.timeline_updateTimeline.mpr ⟨_, ht, if_pos rfl⟩⟩
    rw [Chronicle.timeline_eq_ok, ht'] at ht
    obtain rfl := Option.some.inj ht
    rw [← Bool.eq_false_iff.mpr hsealed]

end TrackedChronicle

end TemporalPlanning
