import TemporalPlanning.Proofs.Network.Timing
import TemporalPlanning.Proofs.Reservation.Dated

/-!
# Units that must be in use

As long as dates are not fixed, a reservation must be active from its latest start until its
earliest stop (`Reservation.forcedAt`). What must be active is active under every solution of the
network (`Reservation.activeAt_of_forcedAt`), and if there is only one, nothing else is
(`Reservation.forcedAt_eq_activeAt`).

The check of the capacities refuses a reservation that is too large alone. Otherwise it adds up what
must be active at the instants at which this can grow, and so finds out whether the units that must
be in use (`ReservationBook.forced`) exceed the capacity at any instant
(`ReservationBook.checkResource_cases`).
-/

namespace TemporalPlanning

namespace Network

variable {net : Network} {date : Timepoint → Int}

/-- The earliest date of every timepoint is its latest one. -/
def Fixed (net : Network) : Prop :=
  ∀ t, net.contains t → net.latest t = some (net.earliest t)

/-- If all timepoints are fixed, the earliest dates are the only solution. -/
theorem Fixed.date_eq (hfixed : net.Fixed) (h : net.Fits date) (horigin : date .origin = 0)
    (hcontains : net.contains .origin) {t : Timepoint} (ht : net.contains t)
    (hwindow : (net.distance t .origin).AtMost 0) : date t = net.earliest t := by
  have hle := h.le_latest (hfixed t ht)
  have hge := earliest_le (.inl h) hcontains ht hwindow
  omega

end Network

namespace Reservation

variable {net : Network} {date : Timepoint → Int} {r : Reservation} {t : Int}

/-- Whether a reservation must be active at an instant. -/
def forcedAt (net : Network) (t : Int) (r : Reservation) : Bool :=
  (net.latest r.start).any fun latest => latest ≤ t && t < net.earliest r.stop

/-- A reservation must be active between its latest start and its earliest stop, if these leave
anything between them; with no latest start it need not be active at all. -/
theorem forcedAt_iff : r.forcedAt net t = true ↔
    ∃ latest, net.latest r.start = some latest ∧ latest ≤ t ∧ t < net.earliest r.stop := by
  simp [forcedAt, Option.any_eq_true]

/-- The time for which a reservation is listed is the time when it must be active. -/
theorem total_compulsory {usage? : Option Usage} (h : r.compulsory net = .ok usage?) (t : Int) :
    Usage.total usage?.toList t = if r.forcedAt net t then r.amount else 0 := by
  obtain ⟨-, -, h⟩ := Fault.bind_eq_ok.mp h
  obtain ⟨-, -, h⟩ := Fault.bind_eq_ok.mp h
  obtain rfl := Fault.pure_eq_ok.mp h
  rw [forcedAt]
  cases net.latest r.start with
  -- without a latest start nothing is forced
  | none => rfl
  | some latest =>
    dsimp only [Option.bind_some, Option.any_some]
    split
    · rw [Option.toList_some, Usage.total_eq_sum, List.filter_cons, Usage.activeAt]
      split <;> rfl
    · -- there is no instant from the latest start until the earliest stop
      rw [if_neg (by simp only [Bool.and_eq_true, decide_eq_true_eq]; omega)]
      rfl

/-- **What must be active is active under every solution.** -/
theorem activeAt_of_forcedAt (hdate : net.Fits date) (hcontains : net.contains .origin)
    (hstop : net.contains r.stop) (hwindow : (net.distance r.stop .origin).AtMost 0)
    (ht : r.forcedAt net t) : (r.usage date).activeAt (date .origin + t) := by
  obtain ⟨latest, hlatest, hle, hlt⟩ := forcedAt_iff.mp ht
  -- it starts at its latest start or before, and stops at its earliest stop or after
  have hstart := hdate.le_latest hlatest
  have hstop := Network.earliest_le (.inl hdate) hcontains hstop hwindow
  refine Usage.activeAt_iff.mpr ⟨?_, ?_⟩ <;> dsimp only [usage] <;> omega

/-- If all dates are fixed, only what is active must be active. -/
theorem forcedAt_eq_activeAt (hfixed : net.Fixed) (h : r.Dated net) :
    r.forcedAt net t = (r.usage net.earliest).activeAt t := by
  rw [forcedAt, hfixed _ h.1]
  rfl

end Reservation

namespace ReservationBook

variable {b : ReservationBook} {net : Network} {date : Timepoint → Int} {capacity : Nat}
  {id : ResourceId} {r : Resource}

/-- The units of a resource that must be in use at an instant. -/
def forced (b : ReservationBook) (net : Network) (id : ResourceId) (t : Int) : Nat :=
  (((b.on id).filter fun e => e.2.forcedAt net t).map (·.2.amount)).sum

/-- The units in use under given dates are those of the reservations that are active. -/
theorem total_usages_eq_sum {t : Int} : Usage.total (b.usages date id) t =
    (((b.on id).filter fun e => (e.2.usage date).activeAt t).map (·.2.amount)).sum := by
  rw [usages, total_usages, List.sum_eq_foldr, List.foldr_map]

/-- **Under every solution at least the units are in use that must be.** -/
theorem forced_le_total (hdate : net.Fits date) (hcontains : net.contains .origin)
    (hwindowed : ∀ t, net.contains t → (net.distance t .origin).AtMost 0) (hdated : b.Dated net)
    (t : Int) : b.forced net id t ≤ Usage.total (b.usages date id) (date .origin + t) := by
  rw [total_usages_eq_sum, forced]
  refine sum_filter_le fun e he => ?_
  have hstop := (hdated.of_mem_on e he).2
  exact Reservation.activeAt_of_forcedAt hdate hcontains hstop (hwindowed _ hstop)

/-- If all dates are fixed, the units in use are those that must be. -/
theorem forced_eq_total (hfixed : net.Fixed) (hdated : b.Dated net) (t : Int) :
    b.forced net id t = Usage.total (b.usages net.earliest id) t := by
  rw [total_usages_eq_sum, forced, List.filter_congr fun e he =>
    Reservation.forcedAt_eq_activeAt hfixed (hdated.of_mem_on e he)]

/-! ### What the check finds -/

/-- A reservation that is too large is reported, and otherwise what must be active is listed. A
reservation must be active between its latest start and its earliest end, and where that stretch is
empty it contributes nothing to any instant. -/
theorem compulsoryUsages_cases {name : String} {es : List (ReservationId × Reservation)}
    {found : Except DeadEnd (List Usage)} (h : compulsoryUsages name capacity net es = .ok found) :
    (∃ e ∈ es, capacity < e.2.amount ∧ found = .error (.overCapacity name e.2.amount capacity)) ∨
      (∀ e ∈ es, e.2.amount ≤ capacity) ∧ ∃ usages, found = .ok usages ∧ ∀ t,
        Usage.total usages t = ((es.filter fun e => e.2.forcedAt net t).map (·.2.amount)).sum := by
  induction es generalizing found with
  | nil =>
    obtain rfl := Except.ok.inj h
    exact .inr ⟨by simp, [], rfl, fun t => rfl⟩
  | cons e es ih =>
    unfold compulsoryUsages at h
    -- the test of the amount comes first, before any date is looked at
    split at h
    · next hlt =>
      obtain rfl := Except.ok.inj h
      exact .inl ⟨e, List.mem_cons_self, hlt, rfl⟩
    · next hle =>
      -- the reservation adds what it must use, if it must be active at all
      obtain ⟨usage?, husage, h⟩ := Fault.bind_eq_ok.mp h
      obtain ⟨rest, hrest, h⟩ := Fault.bind_eq_ok.mp h
      obtain rfl := Except.ok.inj h
      rcases ih hrest with ⟨e', he', hlt, rfl⟩ | ⟨hheld, usages, rfl, htotal⟩
      · exact .inl ⟨e', List.mem_cons_of_mem _ he', hlt, rfl⟩
      · refine .inr ⟨List.forall_mem_cons.mpr ⟨not_lt.mp hle, hheld⟩, _, rfl, fun t => ?_⟩
        rw [Usage.total_append, htotal, Reservation.total_compulsory husage, List.filter_cons]
        split <;> simp

/-- **What the check of a resource finds**: a reservation that is too large alone; nothing, and the
units that must be in use never exceed the capacity; or that they do. -/
theorem checkResource_cases (hcapacity : r.capacity = some capacity) {found : Option DeadEnd}
    (h : b.checkResource net id r = .ok found) :
    (∃ e ∈ b.on id, capacity < e.2.amount ∧
        found = some (.overCapacity r.name e.2.amount capacity)) ∨
      (∀ e ∈ b.on id, e.2.amount ≤ capacity) ∧
        (((∀ t, b.forced net id t ≤ capacity) ∧ found = none) ∨
          ∃ t, capacity < b.forced net id t ∧
            found = some (.overCapacity r.name (b.forced net id t) capacity)) := by
  rw [checkResource, hcapacity] at h
  obtain ⟨result, hresult, h⟩ := Fault.bind_eq_ok.mp h
  -- an amount above the capacity is a dead end before any instant is looked at
  rcases compulsoryUsages_cases hresult with ⟨e, he, hlt, rfl⟩ | ⟨hheld, usages, rfl, htotal⟩
  · exact .inl ⟨e, he, hlt, (Except.ok.inj h).symm⟩
  · refine .inr ⟨hheld, ?_⟩
    obtain rfl := Except.ok.inj h
    -- the peak is reached at the latest start of a reservation, and no instant needs more
    split
    · next hlt =>
      obtain ⟨u, hu, hpeak⟩ := Usage.exists_eq_peak (Nat.zero_lt_of_lt hlt)
      rw [hpeak, htotal] at hlt ⊢
      exact .inr ⟨u.start, hlt, rfl⟩
    · next hle =>
      refine .inl ⟨fun t => ?_, rfl⟩
      calc b.forced net id t = Usage.total usages t := (htotal t).symm
        _ ≤ Usage.peak usages := Usage.total_le_peak usages t
        _ ≤ capacity := not_lt.mp hle

/-- What a refused resource shows: more units than there are, which must be in use at some instant
unless a single reservation is too large. -/
theorem overload_of_checkResource (hcapacity : r.capacity = some capacity) {why : DeadEnd}
    (h : b.checkResource net id r = .ok (some why)) :
    ∃ usage, why = .overCapacity r.name usage capacity ∧ capacity < usage ∧
      ((∀ e ∈ b.on id, e.2.amount ≤ capacity) → ∃ t, usage = b.forced net id t) := by
  rcases checkResource_cases hcapacity h with ⟨e, he, hlt, heq⟩ | ⟨-, ⟨-, heq⟩ | ⟨t, hlt, heq⟩⟩
  · exact ⟨_, Option.some.inj heq, hlt, fun hheld => absurd (hheld e he) (not_le.mpr hlt)⟩
  · exact absurd heq (by simp)
  · exact ⟨_, Option.some.inj heq, hlt, fun _ => ⟨t, rfl⟩⟩

/-- A resource without reservations that are too large passes if and only if the units that must be
in use never exceed its capacity. -/
theorem checkResource_eq_none_iff (hcapacity : r.capacity = some capacity)
    (hheld : ∀ e ∈ b.on id, e.2.amount ≤ capacity) {found : Option DeadEnd}
    (h : b.checkResource net id r = .ok found) :
    found = none ↔ ∀ t, b.forced net id t ≤ capacity := by
  rcases checkResource_cases hcapacity h with ⟨e, he, hlt, -⟩ | ⟨-, ⟨hle, rfl⟩ | ⟨t, hlt, rfl⟩⟩
  · exact absurd (hheld e he) (not_le.mpr hlt)
  · exact ⟨fun _ => hle, fun _ => rfl⟩
  · exact ⟨fun hnone => absurd hnone (by simp), fun hle => absurd (hle t) (not_le.mpr hlt)⟩

/-- Only a resource with a capacity is refused. -/
theorem exists_capacity_of_checkResource {why : DeadEnd}
    (h : b.checkResource net id r = .ok (some why)) : ∃ capacity, r.capacity = some capacity := by
  rw [← Option.ne_none_iff_exists']
  intro hnone
  rw [checkResource, hnone] at h
  exact absurd (Except.ok.inj h) (by simp)

/-- The first dead end is that of a resource, and without one every resource passes. The resources
are checked in their order, so that a dead end says nothing about those listed behind it. -/
theorem firstOverload_cases {es : List (ResourceId × Resource)} {found : Option DeadEnd}
    (h : b.firstOverload net es = .ok found) :
    (∀ why, found = some why → ∃ e ∈ es, b.checkResource net e.1 e.2 = .ok (some why)) ∧
      (found = none → ∀ e ∈ es, b.checkResource net e.1 e.2 = .ok none) := by
  induction es with
  | nil =>
    obtain rfl := Except.ok.inj h
    simp
  | cons e es ih =>
    obtain ⟨here, hhere, h⟩ := Fault.bind_eq_ok.mp h
    -- the resources after the first dead end are not checked
    cases here with
    | some why =>
      obtain rfl := Except.ok.inj h
      refine ⟨fun why' heq => ⟨e, List.mem_cons_self, ?_⟩, fun hnone => absurd hnone (by simp)⟩
      exact Option.some.inj heq ▸ hhere
    | none =>
      -- this resource is not overloaded, and the first overload is among the others
      obtain ⟨hsome, hnone⟩ := ih h
      refine ⟨fun why hwhy => ?_, fun heq => List.forall_mem_cons.mpr ⟨hhere, hnone heq⟩⟩
      obtain ⟨e', he', hcheck⟩ := hsome why hwhy
      exact ⟨e', List.mem_cons_of_mem _ he', hcheck⟩

/-- A dead end that is reported is that of some resource. -/
theorem checkCapacity_eq_some {why : DeadEnd} (h : b.checkCapacity net = .ok (some why)) :
    ∃ id r, b.resource? id = some r ∧ b.checkResource net id r = .ok (some why) := by
  obtain ⟨⟨id, r⟩, hmem, hcheck⟩ := (firstOverload_cases h).1 why rfl
  exact ⟨id, r, mem_entries.mp hmem, hcheck⟩

theorem checkCapacity_eq_none (h : b.checkCapacity net = .ok none) (hr : b.resource? id = some r) :
    b.checkResource net id r = .ok none :=
  (firstOverload_cases h).2 rfl (id, r) (mem_entries.mpr hr)

/-- **The check of the capacities rejects nothing that could be repaired**, in a closed network
whose timepoints do not come before the origin. If a resource without reservations that are too
large is refused, then under every solution of the network at least the reported number of units is
in use at some instant, and that is more than there are. If there is only one solution left and no
reservation is too large, the check passes if and only if this solution respects all capacities at
every instant. -/
theorem checkCapacity_rejects_only_overloads (closed : net.Closed)
    (hwindowed : ∀ t, net.contains t → (net.distance t .origin).AtMost 0) (hdated : b.Dated net) :
    ∃ found, b.checkCapacity net = .ok found ∧
      (∀ why, found = some why → ∃ id r capacity usage, b.resource? id = some r ∧
        r.capacity = some capacity ∧ b.checkResource net id r = .ok (some why) ∧
        why = .overCapacity r.name usage capacity ∧ capacity < usage ∧
        ((∀ e ∈ b.on id, e.2.amount ≤ capacity) → ∀ date, net.Fits date →
          ∃ t, usage ≤ Usage.total (b.usages date id) t)) ∧
      (net.Fixed → net.Fits net.earliest ∧
        (∀ date, net.Fits date → date .origin = 0 → ∀ t, net.contains t → date t = net.earliest t) ∧
        ((∀ id r capacity, b.resource? id = some r → r.capacity = some capacity →
            ∀ e ∈ b.on id, e.2.amount ≤ capacity) →
          (found = none ↔ ∀ id r capacity, b.resource? id = some r → r.capacity = some capacity →
            ∀ t, Usage.total (b.usages net.earliest id) t ≤ capacity))) := by
  have hcontains := closed.square.contains_origin
  obtain ⟨found, hfound⟩ := hdated.exists_checkCapacity
  refine ⟨found, hfound, ?_, fun hfixed => ⟨closed.fits_earliest hwindowed, ?_, fun hheld => ?_⟩⟩
  · -- the units that are reported must be in use at an instant, whatever the solution is
    rintro why rfl
    obtain ⟨id, r, hr, hcheck⟩ := checkCapacity_eq_some hfound
    obtain ⟨capacity, hcapacity⟩ := exists_capacity_of_checkResource hcheck
    obtain ⟨usage, hwhy, hlt, hreached⟩ := overload_of_checkResource hcapacity hcheck
    refine ⟨id, r, capacity, usage, hr, hcapacity, hcheck, hwhy, hlt, fun hheld date hdate => ?_⟩
    obtain ⟨t, rfl⟩ := hreached hheld
    exact ⟨_, forced_le_total hdate hcontains hwindowed hdated t⟩
  · exact fun date hdate horigin t ht => hfixed.date_eq hdate horigin hcontains ht (hwindowed t ht)
  · -- with all dates fixed, what must be in use is what is in use
    constructor
    · rintro rfl id r capacity hr hcapacity t
      rw [← forced_eq_total hfixed hdated]
      exact (checkResource_eq_none_iff hcapacity (hheld id r capacity hr hcapacity)
        (checkCapacity_eq_none hfound hr)).mp rfl t
    · intro hrespects
      -- a dead end would be a resource whose capacity is exceeded
      by_contra hsome
      obtain ⟨why, rfl⟩ := Option.ne_none_iff_exists'.mp hsome
      obtain ⟨id, r, hr, hcheck⟩ := checkCapacity_eq_some hfound
      obtain ⟨capacity, hcapacity⟩ := exists_capacity_of_checkResource hcheck
      have hnone := checkResource_eq_none_iff hcapacity (hheld id r capacity hr hcapacity) hcheck
      refine absurd (hnone.mpr fun t => ?_) (by simp)
      rw [forced_eq_total hfixed hdated]
      exact hrespects id r capacity hr hcapacity t

/-- Within a horizon of 8, two tokens of length 5 both need the battery from 3 to 5. -/
theorem checkCapacity_rejects_only_overloads_battery : ∃ (σ : Session) (b : ReservationBook),
    Session.Reachable 5 10 (some 8) σ ∧
    σ.taken = [⟨⟨3⟩, ⟨4⟩, 5, some 5⟩, ⟨⟨1⟩, ⟨2⟩, 5, some 5⟩] ∧
    b.on ⟨0⟩ = [(⟨0⟩, ⟨⟨0⟩, ⟨0⟩, ⟨1⟩, ⟨2⟩, 1, .tentative⟩),
      (⟨1⟩, ⟨⟨0⟩, ⟨1⟩, ⟨3⟩, ⟨4⟩, 1, .tentative⟩)] ∧
    b.checkCapacity σ.plan.network = .ok (some (.overCapacity "battery" 2 1)) ∧
    ∀ date, σ.plan.network.Fits date → ∃ t, 2 ≤ Usage.total (b.usages date ⟨0⟩) t := by
  have empty : Session.Reachable 5 10 (some 8) (.start (some 8)) :=
    .start (by decide) fun h hh => by obtain rfl := Option.some.inj hh; decide
  have first := empty.step (r := .addTimepoint) trivial rfl (by decide)
  have second := first.step (r := .addTimepoint) trivial rfl (by decide)
  have third := second.step (r := .addTimepoint) trivial rfl (by decide)
  have fourth := third.step (r := .addTimepoint) trivial rfl (by decide)
  have one := fourth.step (r := .post ⟨⟨1⟩, ⟨2⟩, 5, some 5⟩)
    (by simp [Request.Within, Constraint.Within]) rfl (by decide)
  have final := one.step (r := .post ⟨⟨3⟩, ⟨4⟩, 5, some 5⟩)
    (by simp [Request.Within, Constraint.Within]) rfl (by decide)
  have hrep := (Session.Reachable.sound (by decide) final).2.minimal.represents
  -- a battery of capacity 1, reserved by both tokens
  let b : ReservationBook := ⟨#[⟨"battery", "Battery", some 1, false⟩],
    #[some ⟨⟨0⟩, ⟨0⟩, ⟨1⟩, ⟨2⟩, 1, .tentative⟩, some ⟨⟨0⟩, ⟨1⟩, ⟨3⟩, ⟨4⟩, 1, .tentative⟩]⟩
  refine ⟨_, b, final, rfl, rfl, rfl, ?_⟩
  obtain ⟨found, hfound, hrejects, -⟩ :=
    checkCapacity_rejects_only_overloads (b := b) hrep.closed hrep.windowed (by decide)
  obtain ⟨⟨i⟩, r, capacity, usage, hr, -, -, hwhy, -, hshared⟩ :=
    hrejects (.overCapacity "battery" 2 1) (Except.ok.inj hfound).symm
  have hi : i < 1 := (Array.getElem?_eq_some_iff.mp hr).1
  -- there is no other resource that could be meant
  obtain rfl : i = 0 := by omega
  obtain ⟨-, rfl, rfl⟩ := DeadEnd.overCapacity.inj hwhy
  exact hshared (by decide)

end ReservationBook

end TemporalPlanning
