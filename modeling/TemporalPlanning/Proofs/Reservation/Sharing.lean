import TemporalPlanning.Proofs.Network.Session
import TemporalPlanning.Proofs.Reservation.Dated

/-!
# Sharing an instant

Reservations share an instant if all of them have started by then and none has stopped. Whether this
happens in some solution could be asked of the network by four comparisons at once for two
reservations, and by ever more for larger sets. It is enough to ask them one by one: in a closed
network some timepoints can lie before some others together if each of them can lie before each of
the others (`Network.Closed.exists_fits_between`).

`Reservation.canOverlap` asks whether each of two reservations can start before the other stops. It
does not ask whether each can start before it stops itself, and a reservation that takes no time has
no instant to share. This is all that it misses (`Reservation.canOverlap_exact`), for any number of
reservations (`Reservation.exists_shared_instant`); that it does miss this is shown by
`Reservation.exists_canOverlap_not_shared`.
-/

namespace TemporalPlanning

/-- A date that is cut is not after the cut. -/
theorem Distance.cutAt_le (d : Distance) (m : Int) : d.cutAt m ≤ m := by
  cases d with
  | finite d => exact min_le_right _ _
  | unbounded => exact le_rfl

/-- A cut leaves a date above what was below it and is allowed by the distance. -/
theorem Distance.lt_cutAt {d : Distance} {k m : Int} (hd : d.allows (k + 1) = true) (hm : k < m) :
    k < d.cutAt m := by
  cases d with
  | finite d => exact lt_min (of_decide_eq_true hd) hm
  | unbounded => exact hm

namespace Network

variable {net : Network}

/-- Any timepoints can be late together. A solution is moved as a whole, since only differences of
dates matter. -/
theorem exists_fits_pos (solvable : ∃ date, net.Fits date) (stops : List Timepoint) :
    ∃ date, net.Fits date ∧ ∀ u ∈ stops, 0 < date u := by
  induction stops with
  | nil =>
    obtain ⟨date, hdate⟩ := solvable
    exact ⟨date, hdate, by simp⟩
  | cons u stops ih =>
    obtain ⟨date, hdate, hstops⟩ := ih
    -- all dates are put off until `u` is late, too
    refine ⟨_, hdate.add_const (max 0 (1 - date u)), List.forall_mem_cons.mpr ⟨by omega, ?_⟩⟩
    intro v hv
    have := hstops v hv
    omega

/-- **Some timepoints can lie before some others together** if each can lie before each. The
induction is on the starts: each is brought before 0 in turn, by cutting dates at the distances from
it, so that the pairwise tests are enough. -/
theorem Closed.exists_fits_between (closed : net.Closed) (solvable : ∃ date, net.Fits date)
    (starts stops : List Timepoint) (hstarts : ∀ t ∈ starts, net.contains t)
    (h : ∀ t ∈ starts, ∀ u ∈ stops, net.canBeAfter t u) :
    ∃ date, net.Fits date ∧ (∀ t ∈ starts, date t ≤ 0) ∧ ∀ u ∈ stops, 0 < date u := by
  -- the starts are brought before 0 one after the other; the stops stay behind it
  induction starts with
  | nil =>
    obtain ⟨date, hdate, hstops⟩ := exists_fits_pos solvable stops
    exact ⟨date, hdate, by simp, hstops⟩
  | cons t starts ih =>
    obtain ⟨ht, hstarts⟩ := List.forall_mem_cons.mp hstarts
    obtain ⟨hafter, hrest⟩ := List.forall_mem_cons.mp h
    obtain ⟨date, hdate, hbefore, hstops⟩ := ih hstarts hrest
    -- dates are brought forward to what a date of 0 for `t` leaves open, and not delayed
    refine ⟨_, closed.fits_cutAt hdate t, List.forall_mem_cons.mpr ⟨?_, fun s hs => ?_⟩,
      fun u hu => ?_⟩
    · rw [closed.diagonal t ht]
      exact min_le_left _ _
    · exact (Distance.cutAt_le _ _).trans (hbefore s hs)
    · exact Distance.lt_cutAt (hafter u hu) (hstops u hu)

end Network

namespace Reservation

variable {net : Network} {r r' : Reservation}

/-- A reservation can last if some solution gives it an instant. -/
def CanLast (r : Reservation) (net : Network) : Prop :=
  ∃ date, net.Fits date ∧ date r.start < date r.stop

/-- Reservations share an instant in some solution. -/
def Share (net : Network) (rs : List Reservation) : Prop :=
  ∃ date, net.Fits date ∧ ∃ t, ∀ r ∈ rs, (r.usage date).activeAt t

theorem Share.canLast {rs : List Reservation} (h : Share net rs) : ∀ r ∈ rs, r.CanLast net := by
  obtain ⟨date, hdate, t, hactive⟩ := h
  intro r hr
  have := Usage.activeAt_iff.mp (hactive r hr)
  exact ⟨date, hdate, this.1.trans_lt this.2⟩

/-- **Reservations that can last share an instant if every two of them can overlap.** All starts
have to lie before all ends, which is the situation of the theorem above with the starts on one side
and the ends on the other. -/
theorem exists_shared_instant (closed : net.Closed) (solvable : ∃ date, net.Fits date)
    {rs : List Reservation} (hdated : ∀ r ∈ rs, r.Dated net) (hlast : ∀ r ∈ rs, r.CanLast net)
    (hoverlap : rs.Pairwise fun r r' => r.canOverlap net r' = .ok true) : Share net rs := by
  -- the test of a pair asks for two of the four orders of its starts and stops
  have hpairs : rs.Pairwise fun r r' => net.canBeAfter r.start r'.stop ∧
      net.canBeAfter r'.start r.stop := by
    refine hoverlap.imp_of_mem fun {r r'} hr hr' h => ?_
    rw [(hdated r hr).canOverlap_eq (hdated r' hr')] at h
    simpa using Except.ok.inj h
  -- a reservation that can last can start before it stops itself
  have hall : ∀ r ∈ rs, ∀ r' ∈ rs, net.canBeAfter r.start r'.stop ∧
      net.canBeAfter r'.start r.stop := fun r hr r' hr' =>
    List.Pairwise.forall_of_forall_of_flip (fun r hr => by
      obtain ⟨date, hdate, hlt⟩ := hlast r hr
      exact ⟨hdate.canBeAfter hlt, hdate.canBeAfter hlt⟩) hpairs (hpairs.imp And.symm) hr hr'
  obtain ⟨date, hdate, hbefore, hafter⟩ := closed.exists_fits_between solvable
    (rs.map (·.start)) (rs.map (·.stop))
    (List.forall_mem_map.mpr fun r hr => (hdated r hr).1)
    (List.forall_mem_map.mpr fun r hr => List.forall_mem_map.mpr fun r' hr' => (hall r hr r' hr').1)
  exact ⟨date, hdate, 0, fun r hr => Usage.activeAt_iff.mpr
    ⟨List.forall_mem_map.mp hbefore r hr, List.forall_mem_map.mp hafter r hr⟩⟩

/-- **What the test of two reservations says.** They share an instant in some solution if and only
if the test finds that they can overlap and both of them can last. -/
theorem canOverlap_exact (closed : net.Closed) (solvable : ∃ date, net.Fits date)
    (h : r.Dated net) (h' : r'.Dated net) :
    ∃ answer, r.canOverlap net r' = .ok answer ∧
      ((∃ date, net.Fits date ∧ ∃ t, (r.usage date).activeAt t ∧ (r'.usage date).activeAt t) ↔
        answer = true ∧ r.CanLast net ∧ r'.CanLast net) := by
  obtain ⟨answer, hanswer⟩ := h.exists_canOverlap h'
  have hshare : (∃ date, net.Fits date ∧ ∃ t, (r.usage date).activeAt t ∧
      (r'.usage date).activeAt t) ↔ Share net [r, r'] := by simp [Share]
  refine ⟨answer, hanswer, ?_⟩
  rw [hshare]
  constructor
  · -- a shared instant shows each of the three
    intro hs
    have hlast := hs.canLast
    obtain ⟨date, hdate, t, hactive⟩ := hs
    exact ⟨canOverlap_of_activeAt hdate (hactive r (by simp)) (hactive r' (by simp)) hanswer,
      hlast r (by simp), hlast r' (by simp)⟩
  · -- the closed network has a solution in which both starts come before both stops
    rintro ⟨rfl, hlast, hlast'⟩
    exact exists_shared_instant closed solvable (by simp [h, h']) (by simp [hlast, hlast'])
      (by simpa using hanswer)

/-- A flash of up to 3 and a light of at least 5 can be on at the same time. -/
theorem canOverlap_exact_flash : ∃ σ, Session.Reachable 5 10 none σ ∧
    σ.taken = [⟨⟨3⟩, ⟨4⟩, 5, none⟩, ⟨⟨1⟩, ⟨2⟩, 0, some 3⟩] ∧
    ∃ date, σ.plan.network.Fits date ∧ ∃ t,
      ((⟨⟨0⟩, ⟨0⟩, ⟨1⟩, ⟨2⟩, 1, .tentative⟩ : Reservation).usage date).activeAt t ∧
      ((⟨⟨0⟩, ⟨1⟩, ⟨3⟩, ⟨4⟩, 1, .tentative⟩ : Reservation).usage date).activeAt t := by
  have empty : Session.Reachable 5 10 none (.start none) := .start (by decide) (by simp)
  have first := empty.step (r := .addTimepoint) trivial rfl (by decide)
  have second := first.step (r := .addTimepoint) trivial rfl (by decide)
  have third := second.step (r := .addTimepoint) trivial rfl (by decide)
  have fourth := third.step (r := .addTimepoint) trivial rfl (by decide)
  -- the flash takes up to three units, and the other reservation five at least
  have flash := fourth.step (r := .post ⟨⟨1⟩, ⟨2⟩, 0, some 3⟩)
    (by simp [Request.Within, Constraint.Within]) rfl (by decide)
  have final := flash.step (r := .post ⟨⟨3⟩, ⟨4⟩, 5, none⟩)
    (by simp [Request.Within, Constraint.Within]) rfl (by decide)
  have hrep := (Session.Reachable.sound (by decide) final).2.minimal.represents
  obtain ⟨answer, hanswer, hexact⟩ := canOverlap_exact hrep.closed hrep.solvable
    (show Dated ⟨⟨0⟩, ⟨0⟩, ⟨1⟩, ⟨2⟩, 1, .tentative⟩ _ from ⟨rfl, rfl⟩)
    (show Dated ⟨⟨0⟩, ⟨1⟩, ⟨3⟩, ⟨4⟩, 1, .tentative⟩ _ from ⟨rfl, rfl⟩)
  -- the flash may last, so the instant exists
  refine ⟨_, final, rfl, hexact.mpr ⟨?_, ?_, ?_⟩⟩
  · exact (Except.ok.inj hanswer).symm
  · exact (hrep.closed.canBeAfter_iff hrep.solvable rfl rfl).mp rfl
  · exact (hrep.closed.canBeAfter_iff hrep.solvable rfl rfl).mp rfl

/-- **An overlap without an instant.** A flash takes no time. The test lets it overlap a light that
is on around it, but at no instant are both in use. -/
theorem exists_canOverlap_not_shared : ∃ (σ : Session) (flash light : Reservation),
    Session.Reachable 5 10 none σ ∧
    σ.taken = [⟨light.start, light.stop, 5, none⟩, ⟨flash.start, flash.stop, 0, some 0⟩] ∧
    σ.plan.network.Closed ∧ (∃ date, σ.plan.network.Fits date) ∧
    flash.token ≠ light.token ∧ flash.Dated σ.plan.network ∧ light.Dated σ.plan.network ∧
    flash.canOverlap σ.plan.network light = .ok true ∧
    ¬ ∃ date, σ.plan.network.Fits date ∧
      ∃ t, (flash.usage date).activeAt t ∧ (light.usage date).activeAt t := by
  have empty : Session.Reachable 5 10 none (.start none) := .start (by decide) (by simp)
  have first := empty.step (r := .addTimepoint) trivial rfl (by decide)
  have second := first.step (r := .addTimepoint) trivial rfl (by decide)
  have third := second.step (r := .addTimepoint) trivial rfl (by decide)
  have fourth := third.step (r := .addTimepoint) trivial rfl (by decide)
  have short := fourth.step (r := .post ⟨⟨1⟩, ⟨2⟩, 0, some 0⟩)
    (by simp [Request.Within, Constraint.Within]) rfl (by decide)
  have final := short.step (r := .post ⟨⟨3⟩, ⟨4⟩, 5, none⟩)
    (by simp [Request.Within, Constraint.Within]) rfl (by decide)
  -- the network of the session is the exact one, so that it has a solution
  have hminimal := (Session.Reachable.sound (by decide) final).2.minimal
  refine ⟨_, ⟨⟨0⟩, ⟨0⟩, ⟨1⟩, ⟨2⟩, 1, .tentative⟩, ⟨⟨0⟩, ⟨1⟩, ⟨3⟩, ⟨4⟩, 1, .tentative⟩, final, rfl,
    hminimal.represents.closed, hminimal.represents.solvable, by decide, ⟨rfl, rfl⟩, ⟨rfl, rfl⟩,
    rfl, ?_⟩
  rintro ⟨date, hdate, t, hflash, -⟩
  -- the flash stops when it starts, whatever the solution is
  have htaken := ((hminimal.fits_iff date).mp hdate).1 ⟨⟨1⟩, ⟨2⟩, 0, some 0⟩ (by decide)
  have hinstant := htaken.2 0 rfl
  have hlasts := Usage.activeAt_iff.mp hflash
  dsimp only [usage] at hinstant hlasts
  omega

end Reservation

end TemporalPlanning
