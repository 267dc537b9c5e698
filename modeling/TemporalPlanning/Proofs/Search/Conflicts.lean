import Mathlib.Data.List.OffDiag
import TemporalPlanning.Proofs.Reservation.Overload
import TemporalPlanning.Search.Repair

/-!
# Conflicts and their repairs

The conflicts under the dates of a solution are adequate (`PartialPlan.conflicts_adequate`). Where
there are none, the capacities are kept at every instant: a peak is reached at a start, and what is
active there is a single reservation, a pair that the network would have let overlap, or a larger
set. And whatever is reported competes for a resource, so that both orders of every two of its
members are proposed as repairs (`Task.orders_perm`).
-/

namespace TemporalPlanning

namespace Task

variable {s : PartialPlan}

/-- Both orders of two reservations that can overlap are repairs. -/
theorem ordersOf_eq {a b : ReservationId} {r r' : Reservation}
    (ha : s.reservations.reservation? a = some r) (hb : s.reservations.reservation? b = some r')
    (hoverlap : r.canOverlap s.network r' = .ok true) :
    ordersOf s a b = .ok [.order a b, .order b a] := by
  rw [ordersOf, ha, hb]
  exact Fault.bind_eq_ok.mpr ⟨true, hoverlap, rfl⟩

/-- Of reservations that can all overlap, every order of two different ones is a repair. The repairs
come in the order of the pairs, first one way and then the other, and so there are as many as
ordered pairs of different members. -/
theorem orders_perm {ids : List ReservationId}
    (h : ids.Pairwise fun a b => ordersOf s a b = .ok [.order a b, .order b a]) :
    ∃ ds, orders s ids = .ok ds ∧ ds.Perm (ids.offDiag.map fun p => .order p.1 p.2) := by
  -- the pairs are listed by the earlier of the two, both orders at once
  induction h with
  | nil => exact ⟨[], rfl, .rfl⟩
  | @cons a rest ha _ ih =>
    obtain ⟨ds, hds, hperm⟩ := ih
    have hhere : rest.mapM (ordersOf s a) =
        .ok (rest.map fun b => [Decision.order a b, .order b a]) :=
      Fault.mapM_eq_ok.mpr (List.forall₂_map_right_iff.mpr (List.forall₂_same.mpr ha))
    refine ⟨_, Fault.bind_eq_ok.mpr ⟨_, hhere, Fault.bind_eq_ok.mpr ⟨ds, hds, rfl⟩⟩, ?_⟩
    -- the orders that are listed for `a` are those with `a` first and those with `a` last
    have hpairs : ((rest.map (Decision.order a ·)) ++ rest.map (Decision.order · a)).Perm
        (rest.map fun b => [Decision.order a b, .order b a]).flatten := by
      rw [← List.flatMap_def, List.map_eq_flatMap (f := (Decision.order · a))]
      exact List.map_append_flatMap_perm rest (Decision.order a ·) fun b => [.order b a]
    refine (hpairs.symm.append hperm).trans ?_
    have hcons := (List.offDiag_cons_perm a rest).map fun p => Decision.order p.1 p.2
    simpa [Function.comp_def] using hcons.symm

end Task

namespace PartialPlan

variable {s : PartialPlan} {date : Timepoint → Int}

/-- Without conflicts a resource is never overloaded, if every reservation alone fits. -/
theorem total_le_of_conflicts_eq_nil (hdate : s.network.Fits date)
    (h : s.reservations.conflicts s.network (s.network.timepoints.map date) = .ok [])
    {id : ResourceId} {r : Resource} {capacity : Nat} (hr : s.reservations.resource? id = some r)
    (hcapacity : r.capacity = some capacity)
    (hheld : ∀ e ∈ s.reservations.on id, e.2.amount ≤ capacity) (t : Int) :
    Usage.total (s.reservations.usages date id) t ≤ capacity := by
  refine (Usage.total_le_peak _ t).trans (Usage.peak_le_iff.mpr ?_)
  exact List.forall_mem_map.mpr fun e he =>
    ReservationBook.total_le_of_conflicts hdate h hr hcapacity hheld he

/-- **The conflicts under the dates of a solution are adequate.** They can be determined. If there
are none, no resource is overloaded at any instant unless a single reservation is too large for it.
Each of them consists of two or more reservations of a resource, in order of creation, that exceed
its capacity together and of which every two can overlap; and the repairs that are proposed for it
are the orders of two different members, each of them once. -/
theorem conflicts_adequate (hdate : s.network.Fits date)
    (hdated : s.reservations.Dated s.network) :
    ∃ found,
      s.reservations.conflicts s.network (s.network.timepoints.map date) = .ok found ∧
      (found = [] → ∀ id r capacity, s.reservations.resource? id = some r →
        r.capacity = some capacity → (∀ e ∈ s.reservations.on id, e.2.amount ≤ capacity) →
          ∀ t, Usage.total (s.reservations.usages date id) t ≤ capacity) ∧
      ∀ c ∈ found, ∃ (r : Resource) (capacity : Nat) (es : List (ReservationId × Reservation)),
        s.reservations.resource? c.resource = some r ∧ r.capacity = some capacity ∧
        es.Sublist (s.reservations.on c.resource) ∧
        c.members = es.map (·.1) ∧ 2 ≤ c.members.length ∧
        c.members.Pairwise (fun a b => a.index < b.index) ∧
        capacity < (es.map (·.2.amount)).sum ∧
        es.Pairwise (fun e f => e.2.canOverlap s.network f.2 = .ok true) ∧
        ∃ ds, Task.orders s c.members = .ok ds ∧
          ds.length = c.members.length * (c.members.length - 1) ∧ ds.Nodup ∧
          ∀ d, d ∈ ds ↔ ∃ a ∈ c.members, ∃ b ∈ c.members, a ≠ b ∧ d = .order a b := by
  have hlength : (s.network.timepoints.map date).length = s.network.size := by
    simp [Network.timepoints]
  obtain ⟨found, hfound⟩ := hdated.exists_conflicts hlength
  refine ⟨found, hfound, ?_, fun c hc => ?_⟩
  · rintro rfl id r capacity hr hcapacity hheld t
    exact total_le_of_conflicts_eq_nil hdate hfound hr hcapacity hheld t
  · obtain ⟨r, capacity, es, hr, hcapacity, hes, hmembers, htwo, -⟩ :=
      ReservationBook.competes_of_mem_conflicts hdate hfound hc
    -- no pair of members is passed over when the repairs are listed
    have hoverlap := hes.pairwise_canOverlap hdated
    refine ⟨r, capacity, es, hr, hcapacity, hes.sublist, hmembers, htwo, hmembers ▸ hes.increasing,
      hes.lt_sum, hoverlap, ?_⟩
    have hpairs : c.members.Pairwise fun a b =>
        Task.ordersOf s a b = .ok [.order a b, .order b a] := by
      rw [hmembers, List.pairwise_map]
      exact hoverlap.imp_of_mem fun he hf h =>
        Task.ordersOf_eq (hes.reservation? _ he) (hes.reservation? _ hf) h
    obtain ⟨ds, hds, hperm⟩ := Task.orders_perm hpairs
    have hnodup : c.members.Nodup := hmembers ▸ hes.nodup
    refine ⟨ds, hds, ?_, ?_, fun d => ?_⟩
    · rw [hperm.length_eq, List.length_map, List.length_offDiag']
    · -- an order names its members, so that different pairs give different orders
      rw [hperm.nodup_iff]
      refine hnodup.offDiag.map fun p q heq => ?_
      obtain ⟨hfirst, hsecond⟩ := Decision.order.inj heq
      exact Prod.ext hfirst hsecond
    · -- the orders are those of the pairs off the diagonal
      rw [hperm.mem_iff, List.mem_map]
      constructor
      · rintro ⟨⟨a, b⟩, hab, rfl⟩
        obtain ⟨ha, hb, hne⟩ := hnodup.mem_offDiag.mp hab
        exact ⟨a, ha, b, hb, hne, rfl⟩
      · rintro ⟨a, ha, b, hb, hne, rfl⟩
        exact ⟨(a, b), hnodup.mem_offDiag.mpr ⟨ha, hb, hne⟩, rfl⟩

/-- Three units of two are needed at once, and there are six orders of the reservations. Every two
of them would fit together, so that no pair is in conflict and only the set of all three is found.
-/
theorem conflicts_adequate_three : ∃ (s : PartialPlan) (date : Timepoint → Int) (c : Conflict),
    s.network.Fits date ∧ c.members = [⟨0⟩, ⟨1⟩, ⟨2⟩] ∧
    s.reservations.conflicts s.network (s.network.timepoints.map date) = .ok [c] ∧
    ∃ ds, Task.orders s c.members = .ok ds ∧ ds.length = 6 ∧ ds.Nodup := by
  have empty : Session.Reachable 3 10 none (.start none) := .start (by decide) (by simp)
  have first := empty.step (r := .addTimepoint) trivial rfl (by decide)
  have second := first.step (r := .addTimepoint) trivial rfl (by decide)
  have final := second.step (r := .post ⟨⟨1⟩, ⟨2⟩, 5, none⟩)
    (by simp [Request.Within, Constraint.Within]) rfl (by decide)
  have hrep := (Session.Reachable.sound (by decide) final).2.minimal.represents
  -- three reservations of one unit each, of a battery that has two
  let b : ReservationBook := ⟨#[⟨"battery", "Battery", some 2, false⟩],
    Array.replicate 3 (some ⟨⟨0⟩, ⟨0⟩, ⟨1⟩, ⟨2⟩, 1, .tentative⟩)⟩
  -- the network as the session leaves it: the token lasts from 1 to 2, for 5 at least
  let net : Network := ⟨#[#[.finite 0, .unbounded, .unbounded], #[.finite 0, .finite 0, .unbounded],
    #[.finite (-5), .finite (-5), .finite 0]], none⟩
  have hfits : net.Fits net.earliest := hrep.closed.fits_earliest hrep.windowed
  obtain ⟨found, hfound, -, hall⟩ := conflicts_adequate
    (s := { PartialPlan.empty none 0 with net := .fresh net, book := .fresh b }) hfits (by decide)
  obtain rfl : [⟨⟨0⟩, [⟨0⟩, ⟨1⟩, ⟨2⟩]⟩] = found := Except.ok.inj hfound
  obtain ⟨-, -, -, -, -, -, -, -, -, -, -, ds, hds, hlength, hnodup, -⟩ :=
    hall _ (List.mem_singleton_self _)
  exact ⟨_, _, _, hfits, rfl, hfound, ds, hds, hlength, hnodup⟩

end PartialPlan

end TemporalPlanning
