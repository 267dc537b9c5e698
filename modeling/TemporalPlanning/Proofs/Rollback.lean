import TemporalPlanning.Proofs.Undo

/-!
# Going back

Whatever happens to a partial plan, going back to a mark that was taken before leads to exactly the
partial plan that stood there, with its trails (`Later.undoTo_restores`). What may happen are the
single changes of the network, of the reservations and of the timelines, and whole decisions
(`Operation`), whether they succeed or get stuck halfway; and going back itself, of the three parts
together or of one alone, as long as it ends no earlier than at the mark (`Later`).
-/

namespace TemporalPlanning

/-- What can be done to a partial plan. -/
inductive Operation where
  | addTimepoint
  | post (c : Constraint)
  | propagate
  | addResource (r : Resource)
  | reserve (resource : ResourceId) (token : TokenId) (start stop : Timepoint) (amount : Nat)
  | commit (id : ReservationId)
  | withdraw (id : ReservationId)
  | addTimeline (name : String) (className : Option String) (states : List StateTemplate)
      (synthesized : Bool)
  | addFact (id : TimelineId) (state : String)
  | instantiate (id : TimelineId) (state : String)
  | insert (id : TokenId) (position : Nat)
  | join (before after : TokenId)
  | support (id : TokenId) (condition : Nat) (supporter : Support)
  | link (consumer : TokenId) (condition : Nat) (supplier : TokenId)
  | supportGoal (goal : Nat) (id : TokenId)
  | sealTail (id : TimelineId)
  /-- Carries a decision out. -/
  | apply (d : Decision)

namespace Operation

/-- Where an operation leaves a partial plan, having succeeded or got stuck. -/
def LeadsTo (task : Task) : Operation → PartialPlan → PartialPlan → Prop
  | addTimepoint => Edit.addTimepoint.LeadsTo
  | post c => (Edit.post c).LeadsTo
  | propagate => Edit.propagate.LeadsTo
  | addResource r => (Edit.addResource r).LeadsTo
  | reserve resource token start stop amount =>
    (Edit.reserve resource token start stop amount).LeadsTo
  | commit id => (Edit.commit id).LeadsTo
  | withdraw id => (Edit.withdraw id).LeadsTo
  | addTimeline name className states synthesized =>
    (Edit.addTimeline name className states synthesized).LeadsTo
  | addFact id state => (Edit.addFact id state).LeadsTo
  | instantiate id state => (Edit.instantiate id state).LeadsTo
  | insert id position => (Edit.insert id position).LeadsTo
  | join before after => (Edit.join before after).LeadsTo
  | support id condition supporter => (Edit.support id condition supporter).LeadsTo
  | link consumer condition supplier => (Edit.link consumer condition supplier).LeadsTo
  | supportGoal goal id => (Edit.supportGoal goal id).LeadsTo
  | sealTail id => (Edit.sealTail id).LeadsTo
  | apply d => (task.apply d).LeadsTo

variable {task : Task} {s s' : PartialPlan}

/-- Every operation is recorded. The cases are the operations on the three components and the
decisions, which are sequences of them; being done or stuck makes no difference. -/
theorem LeadsTo.records {o : Operation} (h : o.LeadsTo task s s') : s.Records s' := by
  -- one case for each operation, by the lemma that is named after it
  cases o with
  | addTimepoint => exact Edit.recorded_addTimepoint s s' h
  | post c => exact Edit.recorded_post c s s' h
  | propagate => exact Edit.recorded_propagate s s' h
  | addResource r => exact Edit.recorded_addResource r s s' h
  | reserve resource token start stop amount =>
    exact Edit.recorded_reserve resource token start stop amount s s' h
  | commit id => exact Edit.recorded_commit id s s' h
  | withdraw id => exact Edit.recorded_withdraw id s s' h
  | addTimeline name className states synthesized =>
    exact Edit.recorded_addTimeline name className states synthesized s s' h
  | addFact id state => exact Edit.recorded_addFact id state s s' h
  | instantiate id state => exact Edit.recorded_instantiate id state s s' h
  | insert id position => exact Edit.recorded_insert id position s s' h
  | join before after => exact Edit.recorded_join before after s s' h
  | support id condition supporter => exact Edit.recorded_support id condition supporter s s' h
  | link consumer condition supplier =>
    exact Edit.recorded_link consumer condition supplier s s' h
  | supportGoal goal id => exact Edit.recorded_supportGoal goal id s s' h
  | sealTail id => exact Edit.recorded_sealTail id s s' h
  | apply d => exact task.recorded_apply d s s' h

/-- Every operation can be taken back. -/
theorem LeadsTo.extends {o : Operation} (h : o.LeadsTo task s s') : s.Extends s' :=
  h.records.extended

end Operation

/-- `Later task base s`: operations led from `base` to `s`. On the way some of them may have been
taken back, but never so far that a part of `base` was undone. -/
inductive Later (task : Task) (base : PartialPlan) : PartialPlan → Prop
  | refl : Later task base base
  | operate {s s' : PartialPlan} (o : Operation) (h : Later task base s)
      (hs : o.LeadsTo task s s') : Later task base s'
  /-- Goes back with all three parts. -/
  | undo {s s' : PartialPlan} {m : Mark} (h : Later task base s)
      (hnetwork : base.mark.network ≤ m.network)
      (hreservations : base.mark.reservations ≤ m.reservations)
      (hchronicle : base.mark.chronicle ≤ m.chronicle) (hs : s.undoTo m = .ok s') :
      Later task base s'
  | undoNetwork {s s' : PartialPlan} {m : Nat} (h : Later task base s)
      (hm : base.mark.network ≤ m) (hs : s.undoNetwork m = .ok s') : Later task base s'
  | undoReservations {s s' : PartialPlan} {m : Nat} (h : Later task base s)
      (hm : base.mark.reservations ≤ m) (hs : s.undoReservations m = .ok s') : Later task base s'
  | undoChronicle {s s' : PartialPlan} {m : Nat} (h : Later task base s)
      (hm : base.mark.chronicle ≤ m) (hs : s.undoChronicle m = .ok s') : Later task base s'

/-- Going back to a mark that lies no earlier than `t` keeps what was done before `t`. -/
theorem Trailed.Extends.of_undoTo? {σ χ : Type} [Revertible σ χ] {t t' t'' : Trailed σ χ}
    (h : t.Extends t') {m : Nat} (hm : t.mark ≤ m) (hs : t'.undoTo? m = some t'') :
    t.Extends t'' where
  mark_le := by
    rw [mark_of_undoTo? hs]
    exact hm
  undoTo? := by
    intro k hk
    -- going back to `m` first makes no difference to who goes back further, to `k`
    calc t''.undoTo? k = t'.undoTo? k := undoTo?_of_undoTo? hs (hk.trans hm)
      _ = t.undoTo? k := h.undoTo? k hk

variable {task : Task} {base s : PartialPlan}

/-- What comes later is the partial plan at the mark with further changes on top. Operations put
changes on top, and returning to an inner mark takes away only what came after that mark. -/
theorem Later.extends (h : Later task base s) : base.Extends s := by
  induction h with
  | refl => exact .refl base
  | operate o _ hs ih => exact ih.trans hs.extends
  | undo _ hnetwork hreservations hchronicle hs ih =>
    -- going back to a mark at or above the first one does not touch what lies below
    obtain ⟨hchron, hbook, hnet⟩ := PartialPlan.undoTo_eq_ok.mp hs
    exact ⟨ih.net.of_undoTo? hnetwork hnet, ih.book.of_undoTo? hreservations hbook,
      ih.chron.of_undoTo? hchronicle hchron⟩
  -- one part alone went back, and the two others stand as they did
  | undoNetwork _ hm hs ih =>
    obtain ⟨net, hnet, rfl⟩ := PartialPlan.undoNetwork_eq_ok.mp hs
    exact ⟨ih.net.of_undoTo? hm hnet, ih.book, ih.chron⟩
  | undoReservations _ hm hs ih =>
    obtain ⟨book, hbook, rfl⟩ := PartialPlan.undoReservations_eq_ok.mp hs
    exact ⟨ih.net, ih.book.of_undoTo? hm hbook, ih.chron⟩
  | undoChronicle _ hm hs ih =>
    obtain ⟨chron, hchron, rfl⟩ := PartialPlan.undoChronicle_eq_ok.mp hs
    exact ⟨ih.net, ih.book, ih.chron.of_undoTo? hm hchron⟩

/-- **Going back to a mark restores the partial plan that stood there**, its network, its
reservations, its timelines and all three trails, whatever was done since and wherever it got
stuck. -/
theorem Later.undoTo_restores (h : Later task base s) : s.undoTo base.mark = .ok base :=
  h.extends.undoTo_mark

/-- A hall that is to be closed for longer than the horizon allows. -/
def hall : Task where
  model := {
    resources := []
    timelines := [⟨"hall", none, [{ name := "Closed", duration := .exactly 10 }]⟩]
    facts := []
    goals := [⟨0, "Closed"⟩]
    openClasses := []
    names := [("hall", .timeline 0)] }
  config := { horizon := some 5 }

/-- A decision that gets stuck after it has created two timepoints is taken back. -/
theorem undoTo_restores_hall : ∃ base why s, hall.start = .done () base ∧
    hall.apply (.insertGoal 0 0) base = .stuck why s ∧ s.network.size = base.network.size + 2 ∧
      s.undoTo base.mark = .ok base := by
  obtain ⟨base, why, s, hbase, hs, hsize⟩ : ∃ base why s, hall.start = .done () base ∧
      hall.apply (.insertGoal 0 0) base = .stuck why s ∧
        s.network.size = base.network.size + 2 := ⟨_, _, _, rfl, rfl, rfl⟩
  exact ⟨base, why, s, hbase, hs, hsize,
    Later.undoTo_restores (.operate (.apply (.insertGoal 0 0)) .refl (.inr ⟨why, hs⟩))⟩

end TemporalPlanning
