import TemporalPlanning.Proofs.Network.Saturation
import TemporalPlanning.Proofs.Network.Schedule

/-!
# The schedules of a session

Whatever a session posts, creates and takes back, both schedules of its network give the timepoints
dates that solve what was taken (`Session.Taking.schedules_solve`). There are two reasons for it.

* Under a horizon in the range of the clocks the windows keep all solutions in this range, and so no
  sum is cut off that matters, whatever the bounds are (`Session.Taking.faithful_of_horizon`).
* Without one the bounds have to be small for the number of timepoints. A horizon at the end of the
  clocks is none: as an edge it bounds nothing (`TrackedNetwork.bound_of_ceiling`). What the network
  knows of a window is then that no timepoint comes before the origin (`Network.Boundless`).

In both cases the network is `Network.Datable`, and the solutions of the session are the dates in
the range of the clocks that fit its distances (`Session.Schedulable`).
-/

namespace TemporalPlanning

/-- An upper bound at the end of the clocks adds no edge. -/
theorem TrackedNetwork.bound_of_ceiling {net : TrackedNetwork} {c : Constraint}
    (h : c.hi = some Distance.ceiling) : net.bound c = net := by
  have hnone : Distance.ofInt Distance.ceiling = .unbounded := by decide
  simp only [TrackedNetwork.bound, h, TrackedNetwork.addEdge, hnone, Network.tightenings,
    Distance.tighter, Bool.false_eq_true, if_false]
  rfl

/-- A new timepoint makes the network larger by one. -/
theorem TrackedNetwork.size_addTimepoint (net : TrackedNetwork) :
    net.addTimepoint.1.value.size = net.value.size + 1 := by
  simp only [TrackedNetwork.addTimepoint, TrackedNetwork.postIfAdmitted]
  split
  · exact Network.size_enforce_widen _
  · exact Network.size_extend _

namespace Network

variable {b : Nat} {k : Int} {net : TrackedNetwork} {taken : List Constraint}

/-! ### With a horizon -/

/-- With a horizon the window of every timepoint is among the constraints of an exact network. -/
theorem Faithful.windowUpTo_mem {net : Network} (h : net.Faithful (some k) taken) {t : Timepoint}
    (ht : net.contains t) : windowUpTo k t ∈ net.windows ++ taken := by
  refine List.mem_append_left _ (mem_windows.mpr ⟨t, ht, ?_⟩)
  rw [TrackedNetwork.window, h.horizon_eq, windowUpTo]

/-- Under a horizon no constraint loses anything. -/
theorem Faithful.losslessIn (h : net.value.Faithful (some k) taken) (hk : k < Distance.ceiling)
    {c : Constraint} (hfirst : net.value.contains c.first) (hsecond : net.value.contains c.second)
    (hadmits : net.value.admits c) : c.LosslessIn net :=
  h.represents.losslessIn_of_windows hk (fun _ ht => h.windowUpTo_mem ht) hfirst hsecond
    ((h.represents.closed.admits_iff h.represents.solvable hfirst hsecond).mp hadmits)

/-- With a horizon in the range of the clocks an exact network can be dated. -/
theorem Faithful.datable {net : Network} (h : net.Faithful (some k) taken)
    (hk : k < Distance.ceiling) : net.Datable (some k) :=
  ⟨hk, _, h.represents, fun _ ht => h.windowUpTo_mem ht⟩

/-! ### Without a horizon -/

/-- That no timepoint comes before the origin. -/
def starts (net : Network) : List Constraint := net.timepoints.map (.precedes .origin)

/-- One constraint for each timepoint says that it comes no earlier than the origin. -/
theorem mem_starts {net : Network} {c : Constraint} :
    c ∈ net.starts ↔ ∃ t, net.contains t ∧ Constraint.precedes .origin t = c := by
  simp only [starts, List.mem_map, mem_timepoints]

/-- These constraints depend on the number of timepoints only. -/
theorem starts_congr {net net' : Network} (hsize : net'.size = net.size) :
    net'.starts = net.starts := by
  simp only [starts, timepoints, hsize]

/-- One timepoint more adds one of these constraints, at the end of the list. -/
theorem starts_of_size_eq_succ {net net' : Network} (hsize : net'.size = net.size + 1) :
    net'.starts = net.starts ++ [.precedes .origin net.next] := by
  simp only [starts, timepoints, hsize, List.range_succ, List.map_append, List.map_cons,
    List.map_nil, next]

theorem within_of_mem_starts {net : Network} {c : Constraint} (hc : c ∈ net.starts) :
    c.Within b := by
  obtain ⟨t, -, rfl⟩ := mem_starts.mp hc
  simp [Constraint.Within, Constraint.precedes]

/-- A network without a horizon in the range of the clocks is the minimal network of the constraints
`taken`, with bounds up to `b`, over timepoints that come no earlier than the origin. -/
structure Boundless (b : Nat) (net : Network) (taken : List Constraint) : Prop where
  represents : net.Represents (net.starts ++ taken)
  within : ∀ c ∈ taken, c.Within b
  horizon_eq : net.horizon = none ∨ net.horizon = some Distance.ceiling

/-- Without a horizon in the range, what governs a network is within the bound of what was taken. -/
theorem Boundless.forall_within {net : Network} (h : net.Boundless b taken) :
    ∀ c ∈ net.starts ++ taken, c.Within b :=
  List.forall_mem_append.mpr ⟨fun _ => within_of_mem_starts, h.within⟩

/-- Without a horizon in the range, the solutions are the dates that begin at the origin and obey
what was taken. -/
theorem Boundless.fits_iff {net : Network} (h : net.Boundless b taken) {date : Timepoint → Int} :
    net.Fits date ↔ (∀ t, net.contains t → date .origin ≤ date t) ∧ ∀ c ∈ taken, c.Holds date := by
  rw [h.represents.fits_iff, List.forall_mem_append]
  refine and_congr_left' ⟨fun hs t ht => ?_, fun hs c hc => ?_⟩
  · exact Constraint.holds_precedes.mp (hs _ (mem_starts.mpr ⟨t, ht, rfl⟩))
  · obtain ⟨t, ht, rfl⟩ := mem_starts.mp hc
    exact Constraint.holds_precedes.mpr (hs t ht)

/-- Also without a horizon no timepoint comes before the origin. -/
theorem Boundless.atMost_origin {net : Network} (h : net.Boundless b taken) :
    ∀ t, net.contains t → (net.distance t .origin).AtMost 0 := fun _ ht =>
  h.represents.closed.atMost_origin h.represents.solvable ht fun _ hdate =>
    (h.fits_iff.mp hdate).1 _ ht

/-- What governs such a network is well scaled, as long as it has few timepoints for its bound. -/
theorem Boundless.scaled {net : Network} (h : net.Boundless b taken)
    (hnb : net.size * b ≤ 2 ^ 61) : net.Scaled (net.starts ++ taken) b := by
  have hb : b ≤ 2 ^ 61 :=
    (Nat.le_mul_of_pos_left b h.represents.closed.square.size_pos).trans hnb
  refine ⟨⟨by omega, by simp only [quarter]; omega⟩, .inl ⟨?_, h.forall_within⟩⟩
  simp only [quarter]
  exact_mod_cast hnb

/-- The first network is governed by nothing but the origin. A horizon at the ceiling counts as
none, because its window is cut off to an unbounded edge. -/
theorem Boundless.origin {horizon : Option Int}
    (hh : horizon = none ∨ horizon = some Distance.ceiling) :
    (Network.origin horizon).Boundless b [] := by
  refine ⟨(Represents.origin horizon).congr (fun date => ?_) fun c hc => ?_, by simp, hh⟩
  · -- the start of the origin is all that is required, and it always holds
    simp only [List.append_nil, List.not_mem_nil, false_implies, implies_true, true_iff]
    intro c hc
    obtain ⟨t, ht, rfl⟩ := mem_starts.mp hc
    obtain rfl := eq_origin_of_contains ht
    simp
  · rw [List.append_nil] at hc
    obtain ⟨t, ht, rfl⟩ := mem_starts.mp hc
    exact ⟨(Represents.origin horizon).closed.square.contains_origin, ht⟩

/-- Without a horizon in the range of the clocks, the window of a new timepoint says that it comes
no earlier than the origin. -/
theorem Boundless.addTimepoint_eq (h : net.value.Boundless b taken) :
    net.addTimepoint.1 = net.widen.enforce (.precedes .origin net.value.next) := by
  have sq := h.represents.closed.square
  rcases h.horizon_eq with hnone | hceiling
  · rw [sq.addTimepoint_eq (by simp [hnone])]
    exact congrArg _ (congrArg _ hnone)
  · -- a horizon at the ceiling says nothing: its edge is cut off to an unbounded one
    rw [sq.addTimepoint_eq fun k hk => by
      obtain rfl := Option.some.inj (hceiling.symm.trans hk)
      decide]
    have hwindow : (TrackedNetwork.window net.widen.value net.value.next).hi =
        some Distance.ceiling := hceiling
    rw [TrackedNetwork.enforce_eq, TrackedNetwork.bound_of_ceiling hwindow]
    rfl

/-- A new timepoint keeps such a network minimal, if there are few for the bound. -/
theorem Boundless.addTimepoint (h : net.value.Boundless b taken)
    (hnb : net.value.size * b ≤ 2 ^ 61) : net.addTimepoint.1.value.Boundless b taken := by
  have hrep : (net.widen.enforce (.precedes .origin net.value.next)).value.Represents
      (.precedes .origin net.value.next :: (net.value.starts ++ taken)) :=
    h.represents.enforce_next (h.represents.within (h.scaled hnb)).ranged h.atMost_origin (by simp)
  refine ⟨?_, h.within, ?_⟩
  · -- the constraint just posted is the start of the new timepoint
    rw [starts_of_size_eq_succ net.size_addTimepoint, h.addTimepoint_eq]
    refine hrep.of_mem_iff fun c => ?_
    simp only [List.mem_append, List.mem_cons, List.not_mem_nil, or_false, Constraint.precedes]
    tauto
  · rw [h.addTimepoint_eq, TrackedNetwork.horizon_enforce]
    exact h.horizon_eq

/-- A constraint that is admitted keeps such a network minimal, if it is within the bound. -/
theorem Boundless.enforce (h : net.value.Boundless b taken) (hnb : net.value.size * b ≤ 2 ^ 61)
    {c : Constraint} (hc : c.Within b) (hfirst : net.value.contains c.first)
    (hsecond : net.value.contains c.second) (hadmits : net.value.admits c) :
    (net.enforce c).value.Boundless b (c :: taken) := by
  have feasible :=
    (h.represents.closed.admits_iff h.represents.solvable hfirst hsecond).mp hadmits
  have hrep := (h.represents.enforce (h.scaled hnb) hc hfirst hsecond feasible).1
  refine ⟨?_, List.forall_mem_cons.mpr ⟨hc, h.within⟩, ?_⟩
  · rw [starts_congr (TrackedNetwork.size_enforce net c)]
    -- what is represented does not depend on the order of the constraints
    refine hrep.of_mem_iff fun c' => ?_
    simp only [List.mem_append, List.mem_cons]
    tauto
  · rw [TrackedNetwork.horizon_enforce]
    exact h.horizon_eq

/-- Without a horizon a network can be dated as long as it has few timepoints for its bound. -/
theorem Boundless.datable {net : Network} (h : net.Boundless b taken)
    (hnb : net.size * b ≤ 2 ^ 61) : net.Datable none := by
  refine ⟨b, [], ⟨_, h.represents, h.forall_within⟩, by omega, ?_, h.atMost_origin, by simp⟩
  simp only [quarter]
  exact_mod_cast hnb

/-! ### Dates that respect the distances -/

/-- Some dates respect all distances, those that bound nothing read as the greatest clock. -/
def Respects (net : Network) (date : Timepoint → Int) : Prop :=
  ∀ t u, net.contains t → net.contains u → date u - date t ≤ (net.distance t u).toInt

/-- Dates that fit respect the distances if they are in the range of the clocks. -/
theorem Fits.respects {net : Network} {date : Timepoint → Int} (h : net.Fits date)
    (lower : ∀ t, net.contains t → 0 ≤ date t)
    (upper : ∀ t, net.contains t → date t < Distance.ceiling) : net.Respects date := by
  intro t u ht hu
  cases hd : net.distance t u with
  | finite x => exact h t u x (by simp [hd])
  -- an unbounded cell counts as the ceiling, which no difference of two dates reaches
  | unbounded =>
    have h₁ := lower t ht
    have h₂ := upper u hu
    rw [Distance.toInt]
    omega

/-- No timepoint can be earlier than its distance to the origin says. It makes no difference whether
dates satisfy the finite distances only or read an unbounded one as the ceiling. -/
theorem earliest_le {net : Network} {date : Timepoint → Int}
    (h : net.Fits date ∨ net.Respects date) (horigin : net.contains .origin) {t : Timepoint}
    (ht : net.contains t) (bounded : (net.distance t .origin).AtMost 0) :
    net.earliest t ≤ date t - date .origin := by
  obtain ⟨x, hx, -⟩ := bounded.exists_finite
  have hle : date .origin - date t ≤ x := by
    rcases h with hfits | hrespects
    · exact hfits t .origin x (by simp [hx])
    · simpa only [hx, Distance.toInt] using hrespects t .origin ht horigin
  rw [earliest, hx, Distance.toInt]
  omega

end Network

namespace Session

variable {P : TrackedNetwork → Constraint → Prop} {b : Nat} {k : Int} {horizon : Option Int}
  {σ : Session}

/-- Under a horizon the network stays minimal, whatever is posted. The bounds of the constraints may
be arbitrary here, as the windows keep every sum in range. -/
theorem Taking.faithful_of_horizon (h : Taking P (some k) σ) (hk : 0 ≤ k ∧ k < Distance.ceiling) :
    σ.Throughout (Network.Faithful (some k)) := by
  have hh : ∀ k', some k = some k' → 0 ≤ k' ∧ k' < Distance.ceiling := fun k' hk' =>
    Option.some.inj hk' ▸ hk
  induction h with
  | start =>
    exact ⟨Network.Faithful.origin fun k' hk' => (hh k' hk').1, by simp [Session.start]⟩
  | step _ _ hσ ih =>
    -- each operation adds a timepoint or posts what was admitted, and neither loses anything
    exact ih.step hσ (fun _ => ih.now.addTimepoint hh) fun c _ hfirst hsecond hadmits =>
      ih.now.enforce hfirst hsecond hadmits (ih.now.losslessIn hk.2 hfirst hsecond hadmits)

/-- Without one it does as long as there are few timepoints for the bounds. The size is that of the
network at hand, and so the hypothesis is stated inside the property and not beforehand. -/
theorem Taking.boundless (h : Taking (fun _ c => c.Within b) horizon σ)
    (hh : horizon = none ∨ horizon = some Distance.ceiling) :
    σ.Throughout fun net taken => net.size * b ≤ 2 ^ 61 → net.Boundless b taken := by
  induction h with
  | start => exact ⟨fun _ => Network.Boundless.origin hh, by simp [Session.start]⟩
  | step _ hr hσ ih =>
    -- taking back leads to fewer timepoints: the number counts that there were at the time
    refine ih.step hσ (fun _ hnb => ?_) fun c hc hfirst hsecond hadmits hnb => ?_
    · rw [TrackedNetwork.size_addTimepoint] at hnb
      have hnb' := (Nat.mul_le_mul_right b (Nat.le_succ _)).trans hnb
      exact (ih.now hnb').addTimepoint hnb'
    · rw [TrackedNetwork.size_enforce] at hnb
      exact (ih.now hnb).enforce hnb (hr c hc hadmits) hfirst hsecond hadmits

/-- The dates of the network can be fixed one by one, and the solutions of a session are the dates
that fit its network and are in the range of the clocks. -/
structure Schedulable (σ : Session) : Prop where
  datable : ∃ horizon, σ.plan.network.Datable horizon
  fits : ∀ date, σ.Solves date → σ.plan.network.Fits date
  solves : ∀ date, σ.plan.network.Fits date →
    (∀ t, σ.plan.network.contains t → date t - date .origin < Distance.ceiling) → σ.Solves date

/-- Whether or not there is a horizon, a session can be scheduled: its network can be dated, and its
solutions are those of what was taken. -/
theorem Taking.schedulable (h : Taking (fun _ c => c.Within b) horizon σ)
    (hh : ∀ k, horizon = some k → 0 ≤ k ∧ k ≤ Distance.ceiling)
    (hnb : σ.plan.network.size * b ≤ 2 ^ 61) : σ.Schedulable := by
  -- a horizon bounds all distances; without one only their number does, through `hnb`
  by_cases hlimited : ∃ k, horizon = some k ∧ k < Distance.ceiling
  · obtain ⟨k, rfl, hk⟩ := hlimited
    have hfaithful := (h.faithful_of_horizon ⟨(hh k rfl).1, hk⟩).now
    have hsolves : ∀ date, σ.Solves date ↔ σ.plan.network.Fits date := fun date =>
      Network.forall_windows_append.symm.trans (hfaithful.represents.fits_iff date).symm
    exact ⟨⟨_, hfaithful.datable hk⟩, fun date => (hsolves date).mp,
      fun date hdate _ => (hsolves date).mpr hdate⟩
  · -- a horizon at the ceiling is as good as none
    have hboundless : horizon = none ∨ horizon = some Distance.ceiling := by
      cases horizon with
      | none => exact .inl rfl
      | some k =>
        have := (hh k rfl).2
        have : ¬ k < Distance.ceiling := fun hk => hlimited ⟨k, rfl, hk⟩
        exact .inr (congrArg _ (by omega))
    have hnow := (h.boundless hboundless).now hnb
    refine ⟨⟨_, hnow.datable hnb⟩, fun date hdate => ?_, fun date hdate hupper => ?_⟩
    · exact hnow.fits_iff.mpr ⟨fun t ht => Int.sub_nonneg.mp (hdate.2 t ht).1, hdate.1⟩
    · -- a solution of the network keeps to the windows as well if it stays below their upper ends
      obtain ⟨hstarts, htaken⟩ := hnow.fits_iff.mp hdate
      refine ⟨htaken, fun t ht => ⟨Int.sub_nonneg.mpr (hstarts t ht), fun hi hhi => ?_⟩⟩
      have hle := (hupper t ht).le
      rcases hnow.horizon_eq with hnone | hceiling
      · exact absurd (hnone.symm.trans hhi) (by simp)
      · obtain rfl := Option.some.inj (hceiling.symm.trans hhi)
        exact hle

/-- `date` gives the timepoints of a session the dates `times`: the origin is at 0, all distances
are respected, and what was taken is solved. -/
structure Schedules (σ : Session) (times : List Int) (date : Timepoint → Int) : Prop where
  eq_map : times = σ.plan.network.timepoints.map date
  origin : date .origin = 0
  respects : σ.plan.network.Respects date
  solves : σ.Solves date

/-- Dates in the range of the clocks that fit the network are a schedule. That the dates solve the
constraints taken is known from the network; what remains is that every bound, finite or not, is
respected by the numbers themselves. -/
theorem Schedulable.schedules (h : σ.Schedulable) {times : List Int} {date : Timepoint → Int}
    (hdate : σ.plan.network.Fits date) (horigin : date .origin = 0)
    (heq : times = σ.plan.network.timepoints.map date)
    (hupper : ∀ x ∈ times, x < Distance.ceiling) :
    σ.Schedules times date := by
  obtain ⟨horizon, hdatable⟩ := h.datable
  -- all dates are among the times read off
  have upper : ∀ t, σ.plan.network.contains t → date t < Distance.ceiling := by
    intro t ht
    refine hupper _ ?_
    rw [heq]
    exact List.mem_map_of_mem (Network.mem_timepoints.mpr ht)
  have lower : ∀ t, σ.plan.network.contains t → 0 ≤ date t := by
    intro t ht
    have := Network.le_date_of_bounded (fun _ => hdatable.atMost_origin) hdate ht
    omega
  -- the origin is at 0, so dates are distances from it
  refine ⟨heq, horigin, hdate.respects lower upper, h.solves date hdate fun t ht => ?_⟩
  rw [horigin, sub_zero]
  exact upper t ht

/-- **Both schedules solve the network.** Whatever a session has posted, with bounds up to `b` that
are small for the number of its timepoints, its earliest dates and the dates in the middle start at
0, respect all distances and solve what was taken. No solution is earlier anywhere than the earliest
dates, and no date in the middle is refused. -/
theorem Taking.schedules_solve (h : Taking (fun _ c => c.Within b) horizon σ)
    (hh : ∀ k, horizon = some k → 0 ≤ k ∧ k ≤ Distance.ceiling)
    (hnb : σ.plan.network.size * b ≤ 2 ^ 61) :
    (∃ date, σ.Schedules σ.plan.network.earliestSchedule date ∧
      ∀ date', date' .origin = 0 → (σ.Solves date' ∨ σ.plan.network.Respects date') →
        ∀ t, σ.plan.network.contains t → date t ≤ date' t) ∧
    (∃ date, σ.Schedules σ.plan.network.midpointSchedule date) ∧
    Network.FixesEach (.fresh σ.plan.network) σ.plan.network.timepoints := by
  have hσ := h.schedulable hh hnb
  obtain ⟨k, hdatable⟩ := hσ.datable
  have closed := hdatable.closed
  have horigin := closed.square.contains_origin
  have hcontains : ∀ t ∈ σ.plan.network.timepoints, σ.plan.network.contains t :=
    fun t ht => Network.mem_timepoints.mp ht
  have hfresh : (Trailed.fresh σ.plan.network : TrackedNetwork).value.Datable k := hdatable
  -- the earliest dates, those in the middle, and that none of these is refused
  refine ⟨⟨σ.plan.network.earliest, ?_, fun date' hzero hdate' t ht => ?_⟩, ?_,
    hfresh.fixesEach hcontains⟩
  · refine hσ.schedules (closed.fits_earliest fun t ht => hdatable.atMost_origin ht) ?_ rfl ?_
    · rw [Network.earliest, closed.diagonal _ horigin]
      rfl
    · exact List.forall_mem_map.mpr fun t ht => (hdatable.lt_ceiling (hcontains t ht)).1
  · -- the earliest date is a bound that all dates that fit have to respect
    have := Network.earliest_le (hdate'.imp_left (hσ.fits date')) horigin ht
      (hdatable.atMost_origin ht)
    omega
  · obtain ⟨date, hdate, hzero, heq⟩ := hdatable.fits_midpointSchedule
    exact ⟨date, hσ.schedules hdate hzero heq (hfresh.lt_ceiling_of_mem_fixMidpoints hcontains)⟩

/-- Timepoint 1 comes 2 to 9 after the origin, and timepoint 2 at least 3 later, at 1000 at the
latest. -/
theorem schedules_two : ∃ σ, Taking (fun _ c => c.Within (10 : Nat)) (some 1000) σ ∧
    σ.taken = [⟨⟨1⟩, ⟨2⟩, 3, none⟩, ⟨.origin, ⟨1⟩, 2, some 9⟩] ∧
    (∃ date, σ.Schedules [0, 2, 5] date) ∧ ∃ date, σ.Schedules [0, 5, 504] date := by
  have empty : Taking (fun _ c => c.Within (10 : Nat)) (some 1000) (start (some 1000)) := .start
  have first := empty.step (r := .addTimepoint) (fun _ h => by cases h) rfl
  have second := first.step (r := .addTimepoint) (fun _ h => by cases h) rfl
  have posted := second.step (r := .post ⟨.origin, ⟨1⟩, 2, some 9⟩)
    (fun c hc _ => by
      obtain rfl := Request.post.inj hc
      simp [Constraint.Within]) rfl
  have final := posted.step (r := .post ⟨⟨1⟩, ⟨2⟩, 3, none⟩)
    (fun c hc _ => by
      obtain rfl := Request.post.inj hc
      simp [Constraint.Within]) rfl
  have hh : ∀ k, some (1000 : Int) = some k → 0 ≤ k ∧ k ≤ Distance.ceiling := fun k hk => by
    obtain rfl := Option.some.inj hk
    decide
  -- the earliest dates push timepoint 2 only as far as timepoint 1; the middle of its dates is far
  -- beyond
  obtain ⟨⟨early, hearly, -⟩, ⟨middle, hmiddle⟩, -⟩ := final.schedules_solve hh (by decide)
  exact ⟨_, final, rfl, ⟨early, hearly⟩, middle, hmiddle⟩

end Session

end TemporalPlanning
