import Mathlib.Order.Bounds.Basic
import TemporalPlanning.Proofs.Network.Saturation
import TemporalPlanning.Proofs.Reservation.Compulsory

/-!
# Units that may be in use

As long as dates are not fixed, a reservation may be active from its earliest start until its latest
stop, and for ever if it has none (`Reservation.possibleAt`). What is active under a solution of the
network may be active (`Reservation.possibleAt_of_activeAt`), and what may be active in a tighter
network may be so in the looser one (`Reservation.possibleAt_of_tightens`).

The peak of a window is sought at the starts of what is cut to the window only. It bounds what may
be in use (`ReservationBook.possible`) at every instant of the window, and it is reached at one of
them unless it is 0 (`ReservationBook.peakUsage_spec`); this is all that is needed of how it is
found.
-/

namespace TemporalPlanning

namespace Reservation

variable {net net' : Network} {date : Timepoint → Int} {r : Reservation} {t lo hi : Int}

/-- Whether a reservation may be active at an instant. -/
def possibleAt (net : Network) (t : Int) (r : Reservation) : Bool :=
  net.earliest r.start ≤ t && (net.latest r.stop).all (t < ·)

/-- A reservation may be active at an instant from its earliest start until before its latest stop,
and for ever if there is no latest stop. -/
theorem possibleAt_iff : r.possibleAt net t = true ↔
    net.earliest r.start ≤ t ∧ ∀ latest, net.latest r.stop = some latest → t < latest := by
  simp [possibleAt, Option.all_eq_true]

/-- The part of a window in which a reservation may be active. -/
def span (net : Network) (lo hi : Int) (r : Reservation) : Usage :=
  ⟨max (net.earliest r.start) lo, (net.latest r.stop).elim hi (min · hi), r.amount⟩

/-- Within a window, the usage that is considered is the span of the reservation cut off at the
window. -/
theorem Dated.possible_eq (h : r.Dated net) : r.possible net lo hi = .ok (r.span net lo hi) := by
  have hrequire : ∀ t, net.contains t → net.require t = .ok () := fun _ ht =>
    Network.require_eq_ok.mpr ht
  rw [possible, hrequire _ h.1, hrequire _ h.2, span]
  cases net.latest r.stop <;> rfl

/-- Cutting a reservation to a window forgets nothing inside of the window. -/
theorem activeAt_span : (r.span net lo hi).activeAt t = true ↔
    (lo ≤ t ∧ t < hi) ∧ r.possibleAt net t = true := by
  rw [Usage.activeAt_iff, possibleAt_iff, span]
  cases net.latest r.stop <;>
    simp only [Option.elim, reduceCtorEq, false_implies, implies_true, Option.some.injEq,
      forall_eq', and_true] <;> omega

/-- **What is active under a solution may be active.** -/
theorem possibleAt_of_activeAt (hdate : net.Fits date) (hcontains : net.contains .origin)
    (hstart : net.contains r.start) (hwindow : (net.distance r.start .origin).AtMost 0)
    (ht : (r.usage date).activeAt (date .origin + t)) : r.possibleAt net t := by
  obtain ⟨hle, hlt⟩ := Usage.activeAt_iff.mp ht
  have hearliest := Network.earliest_le (.inl hdate) hcontains hstart hwindow
  dsimp only [usage] at hle hlt
  refine possibleAt_iff.mpr ⟨by omega, fun latest hlatest => ?_⟩
  have := hdate.le_latest hlatest
  omega

/-- **What may be active in a tighter network may be active in the looser one.** -/
theorem possibleAt_of_tightens (h : Network.Tightens net net')
    (hwindow : (net.distance r.start .origin).AtMost 0) (ht : r.possibleAt net' t) :
    r.possibleAt net t := by
  obtain ⟨hle, hlt⟩ := possibleAt_iff.mp ht
  refine possibleAt_iff.mpr ⟨(h.earliest_le hwindow).trans hle, fun latest hlatest => ?_⟩
  obtain ⟨latest', hlatest', hle'⟩ := h.exists_latest hlatest
  exact (hlt latest' hlatest').trans_le hle'

end Reservation

namespace ReservationBook

variable {b : ReservationBook} {net net' : Network} {date : Timepoint → Int} {id : ResourceId}
  {t lo hi : Int}

/-- The units of a resource that may be in use at an instant. -/
def possible (b : ReservationBook) (net : Network) (id : ResourceId) (t : Int) : Nat :=
  (((b.on id).filter fun e => e.2.possibleAt net t).map (·.2.amount)).sum

/-- **Under every solution at most the units are in use that may be.** -/
theorem total_le_possible (hdate : net.Fits date) (hcontains : net.contains .origin)
    (hwindowed : ∀ t, net.contains t → (net.distance t .origin).AtMost 0)
    (hdated : ∀ e ∈ b.on id, e.2.Dated net) (t : Int) :
    Usage.total (b.usages date id) (date .origin + t) ≤ b.possible net id t := by
  rw [total_usages_eq_sum, possible]
  refine sum_filter_le fun e he => ?_
  have hstart := (hdated e he).1
  exact Reservation.possibleAt_of_activeAt hdate hcontains hstart (hwindowed _ hstart)

/-- **In a tighter network no more units may be in use.** -/
theorem possible_le_of_tightens (h : Network.Tightens net net')
    (hwindowed : ∀ t, net.contains t → (net.distance t .origin).AtMost 0)
    (hdated : ∀ e ∈ b.on id, e.2.Dated net) (t : Int) :
    b.possible net' id t ≤ b.possible net id t :=
  sum_filter_le fun e he => Reservation.possibleAt_of_tightens h (hwindowed _ (hdated e he).1)

/-! ### The peak of a window -/

/-- What is left of the reservations of a resource in a window. -/
def spans (b : ReservationBook) (net : Network) (id : ResourceId) (lo hi : Int) : List Usage :=
  ((b.on id).map fun e => e.2.span net lo hi).filter fun u => u.start < u.stop

/-- The peak usage is the peak of the spans. -/
theorem peakUsage_eq (hdated : ∀ e ∈ b.on id, e.2.Dated net) :
    b.peakUsage id lo hi net = .ok (Usage.peak (b.spans net id lo hi)) := by
  refine Fault.bind_eq_ok.mpr ⟨(b.on id).map fun e => e.2.span net lo hi, ?_, rfl⟩
  rw [Fault.mapM_eq_ok, List.forall₂_map_right_iff, List.forall₂_same]
  exact fun e he => (hdated e he).possible_eq

/-- Only instants of the window lie between the start and the stop of what is left. -/
theorem start_of_mem_spans {u : Usage} (h : u ∈ b.spans net id lo hi) :
    lo ≤ u.start ∧ u.start < hi := by
  obtain ⟨hmem, hlt⟩ := List.mem_filter.mp h
  obtain ⟨e, -, rfl⟩ := List.mem_map.mp hmem
  have hactive : (e.2.span net lo hi).activeAt (e.2.span net lo hi).start :=
    Usage.activeAt_iff.mpr ⟨le_rfl, of_decide_eq_true hlt⟩
  exact (Reservation.activeAt_span.mp hactive).1

/-- At an instant of the window, what is left of the reservations takes what they may take. -/
theorem total_spans (hlo : lo ≤ t) (hhi : t < hi) :
    Usage.total (b.spans net id lo hi) t = b.possible net id t := by
  -- what has lost everything is not active at any instant
  have hactive : ∀ u : Usage, (u.activeAt t && decide (u.start < u.stop)) = u.activeAt t := by
    intro u
    rw [Bool.and_eq_left_iff_imp, Usage.activeAt_iff, decide_eq_true_eq]
    exact fun hu => hu.1.trans_lt hu.2
  have hspan : ∀ e : ReservationId × Reservation,
      (e.2.span net lo hi).activeAt t = e.2.possibleAt net t := fun e => by
    rw [Bool.eq_iff_iff, Reservation.activeAt_span, and_iff_right ⟨hlo, hhi⟩]
  rw [Usage.total_eq_sum, spans, List.filter_filter, List.filter_congr fun u _ => hactive u,
    List.filter_map, List.map_map, possible]
  exact congrArg (fun es => (List.map (·.2.amount) es).sum) (List.filter_congr fun e _ => hspan e)

/-- The peak of a window bounds what may be in use at its instants, and unless it is 0 it is in use
at one of them. -/
theorem peakUsage_spec (hdated : ∀ e ∈ b.on id, e.2.Dated net) (lo hi : Int) :
    ∃ peak, b.peakUsage id lo hi net = .ok peak ∧
      (∀ t, lo ≤ t → t < hi → b.possible net id t ≤ peak) ∧
      (0 < peak → ∃ t, lo ≤ t ∧ t < hi ∧ peak = b.possible net id t) := by
  refine ⟨_, peakUsage_eq hdated, fun t hlo hhi => ?_, fun hpos => ?_⟩
  · rw [← total_spans hlo hhi]
    exact Usage.total_le_peak _ t
  · obtain ⟨u, hu, hpeak⟩ := Usage.exists_eq_peak hpos
    obtain ⟨hlo, hhi⟩ := start_of_mem_spans hu
    exact ⟨u.start, hlo, hhi, hpeak.trans (total_spans hlo hhi)⟩

/-- **The peak usage of a window is exact and safe**, in a network whose timepoints do not come
before the origin. It is the greatest number of units that may be in use at an instant of the
window, and 0 if the window is empty. No solution of the network uses more at any instant of the
window, and posting a constraint that is accepted does not raise it. -/
theorem peakUsage_exact {net : TrackedNetwork} (square : net.value.Square)
    (hwindowed : ∀ t, net.value.contains t → (net.value.distance t .origin).AtMost 0)
    (hdated : ∀ e ∈ b.on id, e.2.Dated net.value) (lo hi : Int) :
    ∃ peak, b.peakUsage id lo hi net.value = .ok peak ∧
      (hi ≤ lo → peak = 0) ∧
      (lo < hi → IsGreatest {n | ∃ t, lo ≤ t ∧ t < hi ∧ n = b.possible net.value id t} peak) ∧
      (∀ date, net.value.Fits date → ∀ t, lo ≤ t → t < hi →
        Usage.total (b.usages date id) (date .origin + t) ≤ peak) ∧
      (∀ c net', net.post? c = some net' →
        ∃ peak', b.peakUsage id lo hi net'.value = .ok peak' ∧ peak' ≤ peak) := by
  obtain ⟨peak, hpeak, hbound, hreached⟩ := peakUsage_spec hdated lo hi
  refine ⟨peak, hpeak, fun hempty => ?_, fun hlt => ⟨?_, ?_⟩, fun date hdate t hlo hhi => ?_, ?_⟩
  · by_contra hne
    obtain ⟨t, hlo, hhi, -⟩ := hreached (Nat.pos_of_ne_zero hne)
    omega
  · -- a peak of 0 is reached at the first instant already
    rcases Nat.eq_zero_or_pos peak with rfl | hpos
    · exact ⟨lo, le_rfl, hlt, (Nat.le_zero.mp (hbound lo le_rfl hlt)).symm⟩
    · exact hreached hpos
  · rintro n ⟨t, hlo, hhi, rfl⟩
    exact hbound t hlo hhi
  · -- in a solution only what may be active is active
    exact (total_le_possible hdate square.contains_origin hwindowed hdated t).trans
      (hbound t hlo hhi)
  · -- the peak after the constraint is reached at an instant, where before at least as much was
    -- possible
    intro c net' hpost
    obtain rfl := Option.some.inj (Option.ite_none_right_eq_some.mp hpost).2
    have hdated' : ∀ e ∈ b.on id, e.2.Dated (net.enforce c).value := by
      simpa only [Reservation.Dated, Network.contains_enforce] using hdated
    obtain ⟨peak', hpeak', -, hreached'⟩ := peakUsage_spec hdated' lo hi
    refine ⟨peak', hpeak', ?_⟩
    rcases Nat.eq_zero_or_pos peak' with rfl | hpos
    · exact Nat.zero_le _
    · obtain ⟨t, hlo, hhi, rfl⟩ := hreached' hpos
      exact (possible_le_of_tightens (square.tightens_enforce c) hwindowed hdated t).trans
        (hbound t hlo hhi)

/-- Within a horizon of 10, two tokens of length 5 may need the battery at the same time, until one
is to follow the other. -/
theorem peakUsage_exact_battery :
    ∃ (σ : Session) (b : ReservationBook) (net' : TrackedNetwork),
      Session.Reachable 5 10 (some 10) σ ∧
      σ.taken = [⟨⟨3⟩, ⟨4⟩, 5, some 5⟩, ⟨⟨1⟩, ⟨2⟩, 5, some 5⟩] ∧
      b.on ⟨0⟩ = [(⟨0⟩, ⟨⟨0⟩, ⟨0⟩, ⟨1⟩, ⟨2⟩, 1, .tentative⟩),
        (⟨1⟩, ⟨⟨0⟩, ⟨1⟩, ⟨3⟩, ⟨4⟩, 1, .tentative⟩)] ∧
      IsGreatest {n | ∃ t, 0 ≤ t ∧ t < 10 ∧ n = b.possible σ.plan.network ⟨0⟩ t} 2 ∧
      σ.plan.net.post? (.precedes ⟨2⟩ ⟨3⟩) = some net' ∧
      b.peakUsage ⟨0⟩ 0 10 net'.value = .ok 1 := by
  have empty : Session.Reachable 5 10 (some 10) (.start (some 10)) :=
    .start (by decide) fun h hh => by obtain rfl := Option.some.inj hh; decide
  have first := empty.step (r := .addTimepoint) trivial rfl (by decide)
  have second := first.step (r := .addTimepoint) trivial rfl (by decide)
  have third := second.step (r := .addTimepoint) trivial rfl (by decide)
  have fourth := third.step (r := .addTimepoint) trivial rfl (by decide)
  have one := fourth.step (r := .post ⟨⟨1⟩, ⟨2⟩, 5, some 5⟩)
    (by simp [Request.Within, Constraint.Within]) rfl (by decide)
  have final := one.step (r := .post ⟨⟨3⟩, ⟨4⟩, 5, some 5⟩)
    (by simp [Request.Within, Constraint.Within]) rfl (by decide)
  have hrep := (Session.Reachable.sound (by decide) final).2.minimal.represents
  -- two reservations of one unit each, whose order is left open
  let b : ReservationBook := ⟨#[⟨"battery", "Battery", some 1, false⟩],
    #[some ⟨⟨0⟩, ⟨0⟩, ⟨1⟩, ⟨2⟩, 1, .tentative⟩, some ⟨⟨0⟩, ⟨1⟩, ⟨3⟩, ⟨4⟩, 1, .tentative⟩]⟩
  obtain ⟨peak, hpeak, -, hgreatest, -⟩ := peakUsage_exact hrep.closed.square hrep.windowed
    (show ∀ e ∈ b.on ⟨0⟩, e.2.Dated _ by decide) 0 10
  obtain rfl := Except.ok.inj hpeak
  exact ⟨_, b, _, final, rfl, rfl, hgreatest (by decide), rfl, rfl⟩

end ReservationBook

end TemporalPlanning
