import TemporalPlanning.Proofs.Reservation.Capacity

/-!
# Reservations with timepoints of the network

What a search asks a book of reservations for involves their timepoints: whether two of them can
overlap, which conflicts there are, whether a capacity is exceeded in any case. As long as these
timepoints are the network's (`ReservationBook.Dated`), every such question has an answer.
-/

namespace TemporalPlanning

/-- A timepoint of the network is accepted where one is required. -/
theorem Network.exists_require {net : Network} {t : Timepoint} (ht : net.contains t) :
    ∃ u, net.require t = .ok u := ⟨(), Network.require_eq_ok.mpr ht⟩

/-- The timepoints of a reservation are the network's. -/
def Reservation.Dated (r : Reservation) (net : Network) : Prop :=
  net.contains r.start ∧ net.contains r.stop

instance Reservation.decidableDated (r : Reservation) (net : Network) : Decidable (r.Dated net) :=
  inferInstanceAs (Decidable (_ ∧ _))

/-- The timepoints of all reservations are the network's. -/
def ReservationBook.Dated (b : ReservationBook) (net : Network) : Prop :=
  ∀ id r, b.reservation? id = some r → r.Dated net

/-- A book is dated if every reservation in it is; stated over its slots, this can be evaluated. -/
theorem ReservationBook.dated_iff {b : ReservationBook} {net : Network} :
    b.Dated net ↔ ∀ r ∈ b.reservations.toList.reduceOption, r.Dated net := by
  simp only [List.reduceOption_mem_iff]
  simp only [List.mem_iff_getElem?, Array.getElem?_toList]
  constructor
  · rintro h r ⟨i, hr⟩
    exact h ⟨i⟩ r (Option.join_eq_some_iff.mpr hr)
  · rintro h id r hr
    exact h r ⟨id.index, Option.join_eq_some_iff.mp hr⟩

instance ReservationBook.decidableDated (b : ReservationBook) (net : Network) :
    Decidable (b.Dated net) :=
  decidable_of_iff _ ReservationBook.dated_iff.symm

namespace Reservation

variable {net : Network} {r r' : Reservation} {schedule : List Int}

/-- Whether two reservations can overlap is asked of their starts and stops crosswise. -/
theorem Dated.canOverlap_eq (h : r.Dated net) (h' : r'.Dated net) :
    r.canOverlap net r' =
      .ok (net.canBeAfter r.start r'.stop && net.canBeAfter r'.start r.stop) := by
  have hrequire : ∀ t, net.contains t → net.require t = .ok () := fun t ht =>
    Network.require_eq_ok.mpr ht
  rw [canOverlap, hrequire _ h.1, hrequire _ h.2, hrequire _ h'.1, hrequire _ h'.2]
  cases net.canBeAfter r.start r'.stop <;> rfl

theorem Dated.exists_canOverlap (h : r.Dated net) (h' : r'.Dated net) :
    ∃ answer, r.canOverlap net r' = .ok answer := ⟨_, h.canOverlap_eq h'⟩

/-- The part in which a dated reservation must be active can be computed. -/
theorem Dated.exists_compulsory (h : r.Dated net) : ∃ usage?, r.compulsory net = .ok usage? :=
  Fault.exists_bind (Network.exists_require h.1) fun _ _ =>
    Fault.exists_bind (Network.exists_require h.2) fun _ _ => ⟨_, rfl⟩

/-- A schedule of the network has a date for each of its timepoints. -/
theorem exists_dateOf (hlength : schedule.length = net.size) {t : Timepoint}
    (ht : net.contains t) : ∃ date, dateOf schedule t = .ok date := by
  have hlt : t.index < schedule.length := by
    rw [hlength]
    exact of_decide_eq_true ht
  exact ⟨_, Fault.require_eq_ok.mpr (List.getElem?_eq_getElem hlt)⟩

/-- A schedule that dates every timepoint dates the reservation. -/
theorem Dated.exists_activeAt (h : r.Dated net) (hlength : schedule.length = net.size)
    (instant : Int) : ∃ active, r.activeAt schedule instant = .ok active :=
  Fault.exists_bind (exists_dateOf hlength h.1) fun _ _ =>
    Fault.exists_ite
      (fun _ => Fault.exists_bind (exists_dateOf hlength h.2) fun _ _ => ⟨_, rfl⟩)
      fun _ => ⟨_, rfl⟩

end Reservation

namespace ReservationBook

variable {b : ReservationBook} {net : Network} {schedule : List Int} {capacity : Nat}
  {live : List (ReservationId × Reservation)}

/-- What is listed on a resource of a dated book is dated. -/
theorem Dated.of_mem_on (h : b.Dated net) {id : ResourceId} :
    ∀ e ∈ b.on id, e.2.Dated net := fun e he => h e.1 e.2 (mem_on.mp he).1

/-! ### Conflicts -/

/-- The test of pairs goes through dated reservations without a fault. -/
theorem exists_conflictingPairs (h : ∀ e ∈ live, e.2.Dated net) :
    ∃ pairs, conflictingPairs net capacity live = .ok pairs := by
  induction live with
  | nil => exact ⟨[], rfl⟩
  | cons e rest ih =>
    obtain ⟨he, hrest⟩ := List.forall_mem_cons.mp h
    refine Fault.exists_bind (Fault.exists_filter fun f hf => ?_) fun _ _ =>
      Fault.exists_bind (ih hrest) fun _ _ => ⟨_, rfl⟩
    exact Fault.exists_ite (fun _ => he.exists_canOverlap (hrest f hf)) fun _ => ⟨false, rfl⟩

/-- So does the search for crowded sets, whatever sets have been seen before. Every start is in the
schedule, and so is every end that has to be compared with it. -/
theorem exists_crowdedSets (hlength : schedule.length = net.size)
    (hlive : ∀ e ∈ live, e.2.Dated net) {rest : List (ReservationId × Reservation)}
    (hrest : ∀ e ∈ rest, e.2.Dated net) (seen : List (List ReservationId)) :
    ∃ sets, crowdedSets schedule capacity live seen rest = .ok sets := by
  induction rest generalizing seen with
  | nil => exact ⟨[], rfl⟩
  | cons e rest ih =>
    obtain ⟨he, hrest⟩ := List.forall_mem_cons.mp hrest
    refine Fault.exists_bind (Reservation.exists_dateOf hlength he.1) fun instant _ =>
      Fault.exists_bind (Fault.exists_filter fun f hf => ?_) fun active _ => ?_
    · exact (hlive f hf).exists_activeAt hlength instant
    · -- the set is new or not, and the rest follows either way
      exact Fault.exists_ite (fun _ => Fault.exists_bind (ih hrest _) fun _ _ => ⟨_, rfl⟩)
        fun _ => ih hrest seen

/-- The conflicts on a resource can be listed, whether it has a capacity or not. -/
theorem Dated.exists_conflictsOn (h : b.Dated net) (hlength : schedule.length = net.size)
    (id : ResourceId) (r : Resource) : ∃ found, b.conflictsOn net schedule id r = .ok found := by
  rw [conflictsOn]
  cases r.capacity with
  | none => exact ⟨[], rfl⟩
  | some capacity =>
    exact Fault.exists_bind (exists_conflictingPairs h.of_mem_on) fun _ _ =>
      Fault.exists_bind (exists_crowdedSets hlength h.of_mem_on h.of_mem_on []) fun _ _ => ⟨_, rfl⟩

/-- **The conflicts are found**, if a schedule has a date for each timepoint of the network. -/
theorem Dated.exists_conflicts (h : b.Dated net) (hlength : schedule.length = net.size) :
    ∃ found, b.conflicts net schedule = .ok found :=
  Fault.exists_bind (Fault.exists_mapM fun e _ => h.exists_conflictsOn hlength e.1 e.2)
    fun _ _ => ⟨_, rfl⟩

/-! ### Capacities -/

/-- The compulsory usages of dated reservations can be listed, or a reservation that is too large is
found. -/
theorem exists_compulsoryUsages {name : String} (h : ∀ e ∈ live, e.2.Dated net) :
    ∃ found, compulsoryUsages name capacity net live = .ok found := by
  induction live with
  | nil => exact ⟨.ok [], rfl⟩
  | cons e rest ih =>
    obtain ⟨he, hrest⟩ := List.forall_mem_cons.mp h
    exact Fault.exists_ite (fun _ => ⟨_, rfl⟩) fun _ =>
      Fault.exists_bind he.exists_compulsory fun _ _ =>
        Fault.exists_bind (ih hrest) fun _ _ => ⟨_, rfl⟩

/-- The check of a resource comes to a result. -/
theorem Dated.exists_checkResource (h : b.Dated net) (id : ResourceId) (r : Resource) :
    ∃ deadEnd?, b.checkResource net id r = .ok deadEnd? := by
  rw [checkResource]
  cases r.capacity with
  | none => exact ⟨none, rfl⟩
  | some capacity =>
    refine Fault.exists_bind (exists_compulsoryUsages h.of_mem_on) fun found _ => ?_
    cases found <;> exact ⟨_, rfl⟩

/-- **The capacities are checked.** It ends with the first dead end or with none; that the ends of
all reservations are known is all it needs. -/
theorem Dated.exists_checkCapacity (h : b.Dated net) :
    ∃ deadEnd?, b.checkCapacity net = .ok deadEnd? := by
  rw [checkCapacity]
  induction b.entries with
  | nil => exact ⟨none, rfl⟩
  | cons e rest ih =>
    refine Fault.exists_bind (h.exists_checkResource e.1 e.2) fun deadEnd? _ => ?_
    cases deadEnd? with
    | none => exact ih
    | some deadEnd => exact ⟨_, rfl⟩

end ReservationBook

end TemporalPlanning
