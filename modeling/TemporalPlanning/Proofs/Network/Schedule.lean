import TemporalPlanning.Network.Schedule
import TemporalPlanning.Proofs.Network.Steady

/-!
# Schedules are solutions

Both schedules of a steady network give its timepoints the dates of a solution in which the origin
is at 0 (`Network.Steady.fits_earliestSchedule`, `Network.Steady.fits_midpointSchedule`).

The midpoint schedule posts the dates that it chooses, one after the other, and these are far larger
than the bounds of a search. With a horizon they stay below it. Without one, they stay below the
product of the number of timepoints and the greatest bound (`Network.Anchored.feasible_middle`):
otherwise a stretch below a date would be free of timepoints (`Network.Anchored.crowded_middle`).
When the first date above such a stretch was fixed, what lies above could have been moved up without
limit, so that its earliest date was chosen; but it could have been moved down too.

Both cases together are `Network.Datable`: what allows to go on fixing dates.
-/

namespace TemporalPlanning

namespace Network

variable {net : Network} {horizon : Option Int}

/-! ### As early as possible -/

/-- The earliest dates are a solution. It is the least of all solutions that put the origin at its
date, and needs no search. -/
theorem Closed.fits_earliest (closed : net.Closed)
    (bounded : ∀ t, net.contains t → (net.distance t .origin).AtMost 0) :
    net.Fits net.earliest := by
  intro t u x hx
  obtain ⟨ht, hu⟩ := closed.square.contains_of_atMost hx
  obtain ⟨y, hy, -⟩ := (bounded t ht).exists_finite
  obtain ⟨z, hz, -⟩ := (bounded u hu).exists_finite
  -- the earliest times are the row of the origin, so the bound is a triangle inequality
  have := closed.triangle t u .origin x z hx (by simp [hz])
  simp only [hy, Distance.atMost_finite] at this
  simp only [earliest, hy, hz, Distance.toInt]
  omega

/-- The earliest dates of a steady network solve it and begin at 0. -/
theorem Steady.fits_earliestSchedule (h : net.Steady horizon) :
    ∃ date, net.Fits date ∧ date .origin = 0 ∧ net.earliestSchedule = net.timepoints.map date := by
  refine ⟨net.earliest, h.closed.fits_earliest fun t ht => h.atMost_origin ht, ?_, rfl⟩
  rw [earliest, h.closed.diagonal _ h.closed.square.contains_origin]
  rfl

/-! ### Fixing dates one by one -/

/-- There is room for the middle of the dates of a timepoint. The middle lies between the earliest
and the latest date, both of which solutions attain when the matrix is closed. -/
theorem Closed.admits_middle (closed : net.Closed) {u : Timepoint}
    (bounded : (net.distance u .origin).AtMost 0) :
    net.admits (.exactly .origin u (net.middle u)) := by
  obtain ⟨y, hy, -⟩ := bounded.exists_finite
  have hu := (closed.square.contains_of_atMost bounded).1
  -- the latest date is not before the earliest one, as no cycle is negative
  have hdiff : ∀ x, net.distance .origin u = .finite x → 0 ≤ x + y := by
    intro x hx
    have := closed.triangle .origin u .origin x y (by simp [hx]) (by simp [hy])
    rw [closed.diagonal _ closed.square.contains_origin, Distance.atMost_finite] at this
    exact this
  simp only [admits, Constraint.exactly, middle, latest, earliest, hy, Distance.toInt, le_refl,
    decide_true, Bool.true_and, Bool.and_eq_true]
  cases hd : net.distance .origin u with
  | unbounded => simp [Distance.bound?, Distance.allows]
  | finite x =>
    have := hdiff x hd
    -- half of a difference that is not negative lies between the two
    have hhalf : 0 ≤ (x - -y).tdiv 2 ∧ (x - -y).tdiv 2 ≤ x - -y := by
      rw [Int.tdiv_eq_ediv_of_nonneg (by omega)]
      omega
    simp only [Distance.bound?, Distance.allows]
    exact ⟨decide_eq_true (by omega), decide_eq_true (by omega)⟩

/-- The middle of the dates of a timepoint is the earliest one if there is no latest. -/
theorem middle_of_unbounded {u : Timepoint} (h : net.distance .origin u = .unbounded) :
    net.middle u = net.earliest u := by
  simp [middle, latest, h, Distance.bound?]

/-- The network with a timepoint fixed to the middle of its dates. -/
def fixMiddle (net : TrackedNetwork) (u : Timepoint) : TrackedNetwork :=
  net.postIfAdmitted (.exactly .origin u (net.value.middle u))

/-- Fixing all dates leads to a solution, if fixing one date of a network with a property `P` keeps
the solutions with that date and the property. -/
theorem exists_fits_fixMidpoints {P : TrackedNetwork → Prop}
    (solvable : ∀ net, P net → ∃ date, net.value.Fits date)
    (step : ∀ net u, P net → net.value.contains u → P (fixMiddle net u) ∧
      (fixMiddle net u).value.size = net.value.size ∧
      ∀ date, (fixMiddle net u).value.Fits date →
        net.value.Fits date ∧ date u - date .origin = net.value.middle u)
    (us : List Timepoint) (net : TrackedNetwork) (h : P net)
    (hus : ∀ u ∈ us, net.value.contains u) :
    ∃ date, net.value.Fits date ∧ date .origin = 0 ∧ fixMidpoints net us = us.map date := by
  induction us generalizing net with
  | nil =>
    obtain ⟨date, hdate⟩ := solvable net h
    -- dates only count relative to one another, so the origin can be moved to 0
    exact ⟨fun t => date t + -date .origin, hdate.add_const _, by dsimp only; omega, rfl⟩
  | cons u us ih =>
    obtain ⟨hP, hsize, hfits⟩ := step net u h (hus u List.mem_cons_self)
    obtain ⟨date, hdate, horigin, hmap⟩ := ih (fixMiddle net u) hP fun v hv =>
      (contains_congr hsize v).trans (hus v (List.mem_cons_of_mem _ hv))
    -- what is fixed later keeps the dates that were fixed before
    obtain ⟨hdate', hu⟩ := hfits date hdate
    refine ⟨date, hdate', horigin, ?_⟩
    have hvalue : net.value.middle u = date u := by omega
    rw [List.map_cons, ← hmap, ← hvalue]
    rfl

/-! ### With a horizon -/

/-- A minimal network whose timepoints have windows of length `k`. -/
def Bounded (k : Int) (net : Network) : Prop :=
  ∃ cs, net.Represents cs ∧ ∀ t, net.contains t → windowUpTo k t ∈ cs

/-- With a horizon no timepoint comes before the origin, by its window. -/
theorem Bounded.atMost_origin {k : Int} (h : net.Bounded k) {u : Timepoint}
    (hu : net.contains u) : (net.distance u .origin).AtMost 0 := by
  obtain ⟨cs, hrep, hcs⟩ := h
  refine hrep.closed.atMost_origin hrep.solvable hu fun date hdate => Int.sub_nonneg.mp ?_
  exact ((hrep.fits_iff date).mp hdate _ (hcs u hu)).1

/-- With a horizon, fixing a timepoint to the middle of its dates leaves a network that is bounded
by the windows, and exactly the solutions with that date. -/
theorem Bounded.fixMiddle {net : TrackedNetwork} {k : Int} (hk : k < Distance.ceiling)
    (h : net.value.Bounded k) {u : Timepoint} (hu : net.value.contains u) :
    (fixMiddle net u).value.Bounded k ∧ (fixMiddle net u).value.size = net.value.size ∧
      ∀ date, (fixMiddle net u).value.Fits date →
        net.value.Fits date ∧ date u - date .origin = net.value.middle u := by
  have bounded := h.atMost_origin hu
  obtain ⟨cs, hrep, hcs⟩ := h
  have closed := hrep.closed
  have horigin := closed.square.contains_origin
  have hadmits := closed.admits_middle bounded
  have feasible := (closed.admits_iff hrep.solvable horigin hu).mp hadmits
  -- the middle is admitted, so that fixing it is posting it
  have heq : Network.fixMiddle net u = net.enforce (.exactly .origin u (net.value.middle u)) :=
    if_pos hadmits
  have lossless := hrep.losslessIn_of_windows hk hcs horigin hu feasible
  obtain ⟨hrep', -⟩ :=
    hrep.enforce_of_lossless horigin hu feasible lossless.1 fun _ => lossless.2
  rw [heq]
  refine ⟨⟨_, hrep', fun t ht => List.mem_cons_of_mem _ (hcs t ?_)⟩,
    TrackedNetwork.size_enforce _ _, fun date hdate => ?_⟩
  · rwa [contains_enforce] at ht
  · -- dates fit the new network if they fit the old one and have the fixed date
    rw [hrep'.fits_iff, List.forall_mem_cons, ← hrep.fits_iff, Constraint.holds_exactly] at hdate
    exact hdate.symm

/-! ### Without a horizon -/

/-- A point fixed to a date after the origin. -/
def fixed (a : Timepoint × Int) : Constraint := .exactly .origin a.1 a.2

/-- A minimal network of constraints with bounds up to `b` and of the dates `anchors` to which some
timepoints are fixed. No stretch of length `b` below a fixed date is free of timepoints. -/
structure Anchored (b : Int) (anchors : List (Timepoint × Int)) (net : Network) : Prop where
  represents : ∃ cs, net.Represents (anchors.map fixed ++ cs) ∧ ∀ c ∈ cs, c.Within b
  nonneg : 0 ≤ b
  small : net.size * b ≤ quarter
  bounded : ∀ t, net.contains t → (net.distance t .origin).AtMost 0
  crowded : ∀ date, net.Fits date → ∀ a ∈ anchors, ∀ k, date .origin ≤ k → k + b < date a.1 →
    ∃ v, net.contains v ∧ k < date v ∧ date v ≤ k + b

variable {b : Int} {anchors : List (Timepoint × Int)}

/-- Distances to the origin of at most 0 say that in no solution a timepoint comes before it. -/
theorem le_date_of_bounded (bounded : ∀ t, net.contains t → (net.distance t .origin).AtMost 0)
    {date : Timepoint → Int} (hdate : net.Fits date) {t : Timepoint} (ht : net.contains t) :
    date .origin ≤ date t := by
  have := hdate _ _ _ (bounded t ht)
  omega

/-- If some constraints lie below every free stretch and the bounds of the others are small, all
distances are small: what lies above a free stretch can be moved. -/
theorem Represents.within_of_crowded (low : List Constraint) {cs : List Constraint}
    (h : net.Represents (low ++ cs)) (hb : 0 ≤ b) (hcs : ∀ c ∈ cs, c.Within b)
    (bounded : ∀ t, net.contains t → (net.distance t .origin).AtMost 0)
    (hlow : ∀ date, net.Fits date → ∀ k, date .origin ≤ k →
      (∀ v, net.contains v → ¬ (k < date v ∧ date v ≤ k + b)) →
        ∀ c ∈ low, date c.first ≤ k ∧ date c.second ≤ k) :
    net.Within (net.size * b) := by
  intro t u x hx
  have hux : (net.distance t u).AtMost x := by simp [hx]
  obtain ⟨ht, hu⟩ := h.closed.square.contains_of_atMost hux
  obtain ⟨date, hdate, hd⟩ := h.closed.exists_fits_eq h.solvable hx
  -- no timepoint comes before the origin, so that a stretch below one lies above the origin
  have ht₀ := le_date_of_bounded bounded hdate ht
  have hu₀ := le_date_of_bounded bounded hdate hu
  have moved : ∀ k δ, date .origin ≤ k → -1 ≤ δ →
      (∀ v, net.contains v → ¬ (k < date v ∧ date v ≤ k + b)) →
        net.Fits (moveAbove k δ date) := by
    intro k δ hk hδ hfree
    have hfits := (h.fits_iff date).mp hdate
    refine (h.fits_iff _).mpr (List.forall_mem_append.mpr ⟨fun c hc => ?_, fun c hc => ?_⟩)
    · -- constraints below the stretch are about dates that do not move
      obtain ⟨hfirst, hsecond⟩ := hlow date hdate k hk hfree c hc
      have hsame : ∀ v, date v ≤ k → moveAbove k δ date v = date v := fun v hv => if_neg (by omega)
      have := hfits c (List.mem_append_left _ hc)
      simpa only [Constraint.Holds, hsame _ hfirst, hsame _ hsecond] using this
    · -- the others are short, and none of them reaches over the stretch
      have hmem := List.mem_append_right low hc
      exact (hfits c hmem).moveAbove (hcs c hc) hδ (hfree _ (h.contains c hmem).1)
        (hfree _ (h.contains c hmem).2)
  -- a greater distance leaves a free stretch, beyond which something could be moved further
  constructor
  · by_contra hlt
    have far : net.size * b < date t - date u := by omega
    obtain ⟨k, hk, hkt, hfree⟩ := exists_free_stretch hb ht far
    have := moved k (-1) (by omega) (by omega) hfree t u x hux
    rw [moveAbove, moveAbove, if_neg (by omega), if_pos (by omega)] at this
    omega
  · by_contra hlt
    have far : net.size * b < date u - date t := by omega
    obtain ⟨k, hk, hku, hfree⟩ := exists_free_stretch hb hu far
    have := moved k 1 (by omega) (by omega) hfree t u x hux
    rw [moveAbove, moveAbove, if_pos (by omega), if_neg (by omega)] at this
    omega

/-- A date below which every stretch holds a timepoint is small. -/
theorem le_of_crowded (hb : 0 ≤ b) {date : Timepoint → Int} {u : Timepoint} (hu : net.contains u)
    (crowded : ∀ k, date .origin ≤ k → k + b < date u →
      ∃ v, net.contains v ∧ k < date v ∧ date v ≤ k + b) :
    date u - date .origin ≤ net.size * b := by
  by_contra hlt
  obtain ⟨k, hk, hku, hfree⟩ := exists_free_stretch hb hu (not_le.mp hlt)
  obtain ⟨v, hv, hkv⟩ := crowded k hk hku
  exact hfree v hv hkv

/-- The fixed dates lie below every free stretch. A fixed date was chosen in the middle of its
range, and no stretch of length `b` below such a date is free. -/
theorem Anchored.le_of_free (h : net.Anchored b anchors) {date : Timepoint → Int}
    (hdate : net.Fits date) {k : Int} (hk : date .origin ≤ k)
    (hfree : ∀ v, net.contains v → ¬ (k < date v ∧ date v ≤ k + b)) :
    ∀ a ∈ anchors, date a.1 ≤ k := by
  intro a ha
  by_contra hlt
  obtain ⟨cs, hrep, -⟩ := h.represents
  have hmem := List.mem_append_left cs (List.mem_map_of_mem (f := fixed) ha)
  have hout := hfree a.1 (hrep.contains _ hmem).2
  obtain ⟨v, hv, hkv⟩ := h.crowded date hdate a ha k hk (by omega)
  exact hfree v hv hkv

/-- No stretch below a timepoint is free, unless the timepoint is later than the middle of its
dates. -/
theorem Anchored.crowded_middle (h : net.Anchored b anchors) {u : Timepoint}
    (hu : net.contains u) {date : Timepoint → Int} (hdate : net.Fits date)
    (hmiddle : date u - date .origin ≤ net.middle u) {k : Int} (hk : date .origin ≤ k)
    (hku : k + b < date u) : ∃ v, net.contains v ∧ k < date v ∧ date v ≤ k + b := by
  by_contra hnone
  have hfree : ∀ v, net.contains v → ¬ (k < date v ∧ date v ≤ k + b) :=
    fun v hv hkv => hnone ⟨v, hv, hkv⟩
  obtain ⟨cs, hrep, hcs⟩ := h.represents
  have hfits := (hrep.fits_iff date).mp hdate
  have hb := h.nonneg
  -- no fixed date lies above the stretch, so that what does can be moved freely
  have below := h.le_of_free hdate hk hfree
  have moved : ∀ δ, -1 ≤ δ → net.Fits (moveAbove k δ date) := by
    intro δ hδ
    refine (hrep.fits_iff _).mpr (List.forall_mem_append.mpr ⟨fun c hc => ?_, fun c hc => ?_⟩)
    · obtain ⟨a, ha, rfl⟩ := List.mem_map.mp hc
      have := hfits _ (List.mem_append_left cs hc)
      rw [fixed, Constraint.holds_exactly] at this ⊢
      rwa [moveAbove, moveAbove, if_neg (by have := below a ha; omega), if_neg (by omega)]
    · have hmem := List.mem_append_right (anchors.map fixed) hc
      exact (hfits c hmem).moveAbove (hcs c hc) hδ (hfree _ (hrep.contains c hmem).1)
        (hfree _ (hrep.contains c hmem).2)
  have hmove : ∀ δ, moveAbove k δ date u = date u + δ := fun δ => if_pos (by omega)
  have hstay : ∀ δ, moveAbove k δ date .origin = date .origin := fun δ => if_neg (by omega)
  -- what is above the stretch can be moved up without end, and down by one
  have latest : net.distance .origin u = .unbounded := by
    cases hd : net.distance .origin u with
    | unbounded => rfl
    | finite x =>
      have := moved (max 0 (x - (date u - date .origin) + 1)) (by omega) .origin u x (by simp [hd])
      rw [hmove, hstay] at this
      omega
  -- but the middle of unbounded dates is the earliest date, which cannot be moved down
  obtain ⟨y, hy, -⟩ := (h.bounded u hu).exists_finite
  have := moved (-1) le_rfl u .origin y (by simp [hy])
  rw [hmove, hstay] at this
  rw [middle_of_unbounded latest, earliest, hy] at hmiddle
  simp only [Distance.toInt] at hmiddle
  omega

/-- The middle of the dates of a timepoint is possible, and small. These are the two things that the
debug assertions of the program ask: that fixing is never refused, and that the date is in range. -/
theorem Anchored.feasible_middle (h : net.Anchored b anchors) {u : Timepoint}
    (hu : net.contains u) :
    (∃ date, net.Fits date ∧ (Constraint.exactly .origin u (net.middle u)).Holds date) ∧
      0 ≤ net.middle u ∧ net.middle u ≤ quarter := by
  obtain ⟨cs, hrep, -⟩ := h.represents
  have closed := hrep.closed
  obtain ⟨date, hdate, hd⟩ := (closed.admits_iff hrep.solvable closed.square.contains_origin
    hu).mp (closed.admits_middle (h.bounded u hu))
  refine ⟨⟨date, hdate, hd⟩, ?_⟩
  rw [Constraint.holds_exactly] at hd
  have := le_date_of_bounded h.bounded hdate hu
  -- no anchor lies beyond the crowd, so a midpoint cannot run away either
  have := le_of_crowded h.nonneg hu fun k => h.crowded_middle hu hdate hd.le (k := k)
  have := h.small
  omega

/-- The fixed dates and the origin lie below every free stretch. -/
theorem Anchored.fixed_le (h : net.Anchored b anchors) {date : Timepoint → Int}
    (hdate : net.Fits date) {k : Int} (hk : date .origin ≤ k)
    (hfree : ∀ v, net.contains v → ¬ (k < date v ∧ date v ≤ k + b)) :
    ∀ c ∈ anchors.map fixed, date c.first ≤ k ∧ date c.second ≤ k := by
  intro c hc
  obtain ⟨a, ha, rfl⟩ := List.mem_map.mp hc
  exact ⟨hk, h.le_of_free hdate hk hfree a ha⟩

/-- All distances are small. -/
theorem Anchored.within (h : net.Anchored b anchors) : net.Within quarter := by
  obtain ⟨cs, hrep, hcs⟩ := h.represents
  exact (Represents.within_of_crowded _ hrep h.nonneg hcs h.bounded
    fun date hdate k hk hfree => h.fixed_le hdate hk hfree).mono h.small

/-- All distances stay small when the middle of the dates of a timepoint becomes its latest date.
The new edge lies below every stretch of length `b` without timepoints, as the anchors do, and with
constraints of this kind no distance exceeds the number of timepoints times `b`. -/
theorem Anchored.within_addEdge {net : TrackedNetwork} (h : net.value.Anchored b anchors)
    {u : Timepoint} (hu : net.value.contains u) {cs : List Constraint} (hcs : ∀ c ∈ cs, c.Within b)
    (hrep : net.value.Represents (anchors.map fixed ++ cs))
    (hrep₁ : (net.addEdge .origin u (.ofInt (net.value.middle u))).value.Represents
      (.edge .origin u (net.value.middle u) :: (anchors.map fixed ++ cs))) :
    (net.addEdge .origin u (.ofInt (net.value.middle u))).value.Within quarter := by
  obtain ⟨-, hnonneg, hle⟩ := h.feasible_middle hu
  have room := h.within.roomy le_rfl (t := .origin) (u := u) (w := net.value.middle u) (by omega)
  have shrinks : ∀ date, (net.addEdge .origin u (.ofInt (net.value.middle u))).value.Fits date →
      net.value.Fits date ∧ date u - date .origin ≤ net.value.middle u := fun date hdate =>
    (hrep.closed.fits_addEdge_iff room.lossless hrep.closed.square.contains_origin hu).mp hdate
  -- the new edge is one more constraint that lies below every free stretch
  refine (Represents.within_of_crowded (.edge .origin u (net.value.middle u) :: anchors.map fixed)
    hrep₁ h.nonneg hcs (fun t ht => ?_) fun date hdate k hk hfree =>
      List.forall_mem_cons.mpr ⟨⟨?_, hk⟩, ?_⟩).mono (by simpa using h.small)
  · exact hrep₁.closed.atMost_origin hrep₁.solvable ht fun date hdate =>
      le_date_of_bounded h.bounded (shrinks date hdate).1 (by simpa using ht)
  · -- the timepoint itself cannot be above a free stretch, being at the middle of its dates at most
    obtain ⟨hdate', hmiddle⟩ := shrinks date hdate
    by_contra hlt
    have hout := hfree u (by simpa using hu)
    obtain ⟨v, hv, hkv⟩ := h.crowded_middle hu hdate' hmiddle hk (by
      simp only [Constraint.edge] at hlt
      omega)
    exact hfree v (by simpa using hv) hkv
  · exact h.fixed_le (shrinks date hdate).1 hk fun v hv => hfree v (by simpa using hv)

/-- Fixing a timepoint to the middle of its dates leaves the network anchored, with one more anchor.
Fixing adds two edges, one for each direction; after the first one the timepoint has the middle as
its latest date, and the second closes the gap from below. -/
theorem Anchored.fixMiddle {net : TrackedNetwork} (h : net.value.Anchored b anchors)
    {u : Timepoint} (hu : net.value.contains u) :
    (fixMiddle net u).value.Anchored b ((u, net.value.middle u) :: anchors) ∧
      (fixMiddle net u).value.size = net.value.size ∧
      ∀ date, (fixMiddle net u).value.Fits date →
        net.value.Fits date ∧ date u - date .origin = net.value.middle u := by
  obtain ⟨cs, hrep, hcs⟩ := h.represents
  have horigin := hrep.closed.square.contains_origin
  have heq : Network.fixMiddle net u = net.enforce (.exactly .origin u (net.value.middle u)) :=
    if_pos (hrep.closed.admits_middle (h.bounded u hu))
  rw [heq]
  -- nothing saturates: what is posted so far stays within the reach of the anchors
  obtain ⟨feasible, hnonneg, hle⟩ := h.feasible_middle hu
  obtain ⟨hrep', hsize⟩ := hrep.enforce_of_lossless (c := .exactly .origin u (net.value.middle u))
    horigin hu feasible
    (fun hi hhi => by
      obtain rfl := Option.some.inj hhi
      exact (h.within.roomy le_rfl (by omega)).lossless)
    fun hrep₁ => by
      have hwithin := h.within_addEdge hu hcs hrep hrep₁
      exact (hwithin.roomy le_rfl (by simp only [Constraint.exactly]; omega)).lossless
  have hsub : ∀ date, (net.enforce (.exactly .origin u (net.value.middle u))).value.Fits date →
      net.value.Fits date ∧ date u - date .origin = net.value.middle u := by
    intro date hdate
    rw [hrep'.fits_iff, List.forall_mem_cons, ← hrep.fits_iff, Constraint.holds_exactly] at hdate
    exact hdate.symm
  refine ⟨⟨⟨cs, hrep', hcs⟩, h.nonneg, by rw [hsize]; exact h.small, fun t ht => ?_,
    fun date hdate a ha k hk hka => ?_⟩, hsize, hsub⟩
  · -- no date that fits lies before the origin
    exact hrep'.closed.atMost_origin hrep'.solvable ht fun date hdate =>
      le_date_of_bounded h.bounded (hsub date hdate).1 (contains_enforce.symm.trans ht)
  · obtain ⟨hdate', hd⟩ := hsub date hdate
    simp only [contains_enforce]
    -- the new anchor is crowded by the middle of its dates, the old ones were before
    rcases List.mem_cons.mp ha with rfl | ha
    · exact h.crowded_middle hu hdate' hd.le hk hka
    · exact h.crowded date hdate' a ha k hk hka

/-! ### In the middle -/

/-- What allows to go on fixing dates: a horizon limits them; without one, the fixed dates limit
each other. -/
def Datable (horizon : Option Int) (net : Network) : Prop :=
  match horizon with
  | none => ∃ b anchors, net.Anchored b anchors
  | some k => k < Distance.ceiling ∧ net.Bounded k

/-- A steady network can be dated: with a horizon its windows bound all distances, without one the
durations do, as far as there are timepoints. -/
theorem Steady.datable (h : net.Steady horizon) : net.Datable horizon := by
  obtain ⟨cs, hcs⟩ := id h
  -- without a horizon durations bound the dates, and windows bound nothing
  cases hh : horizon with
  | none =>
    refine ⟨Duration.limit, [], ⟨cs, hcs.represents, fun c hc => ?_⟩, by decide, ?_,
      fun t ht => h.atMost_origin ht, by simp⟩
    · rcases hcs.within c hc with hw | ⟨t, rfl⟩
      · exact hw
      · simp [Constraint.Within, TrackedNetwork.window, hcs.horizon_eq, hh, Duration.limit]
    · have : (net.size : Int) ≤ 1048576 := by exact_mod_cast hcs.size_le
      simp only [Duration.limit, quarter]
      omega
  | some k =>
    -- with a horizon every timepoint has its window
    have hk := (hcs.horizon_range k hh).2
    refine ⟨hk.trans_lt (by decide), cs, hcs.represents, fun t ht => ?_⟩
    simpa [TrackedNetwork.window, hcs.horizon_eq, hh, windowUpTo] using hcs.windowed t ht

/-- A network that can be dated has a solution. -/
theorem Datable.exists_fits (h : net.Datable horizon) : ∃ date, net.Fits date := by
  cases horizon with
  | none =>
    obtain ⟨b, anchors, hanchored⟩ := h
    obtain ⟨cs, hrep, -⟩ := hanchored.represents
    exact hrep.solvable
  | some k =>
    obtain ⟨-, cs, hrep, -⟩ := h
    exact hrep.solvable

theorem Datable.closed (h : net.Datable horizon) : net.Closed := by
  cases horizon with
  | none =>
    obtain ⟨b, anchors, hanchored⟩ := h
    exact hanchored.represents.choose_spec.1.closed
  | some k => exact h.2.choose_spec.1.closed

/-- No timepoint comes before the origin. -/
theorem Datable.atMost_origin (h : net.Datable horizon) {u : Timepoint} (hu : net.contains u) :
    (net.distance u .origin).AtMost 0 := by
  cases horizon with
  | none =>
    obtain ⟨b, anchors, hanchored⟩ := h
    exact hanchored.bounded u hu
  | some k => exact h.2.atMost_origin hu

/-- There is room for the middle of the dates of a timepoint. -/
theorem Datable.admits_middle (h : net.Datable horizon) {u : Timepoint} (hu : net.contains u) :
    net.admits (.exactly .origin u (net.middle u)) :=
  h.closed.admits_middle (h.atMost_origin hu)

/-- Fixing a timepoint to the middle of its dates leaves a network that can be dated, with or
without a horizon, and exactly the solutions with that date. -/
theorem Datable.fixMiddle {net : TrackedNetwork} (h : net.value.Datable horizon) {u : Timepoint}
    (hu : net.value.contains u) :
    (fixMiddle net u).value.Datable horizon ∧ (fixMiddle net u).value.size = net.value.size ∧
      ∀ date, (fixMiddle net u).value.Fits date →
        net.value.Fits date ∧ date u - date .origin = net.value.middle u := by
  cases horizon with
  -- without a horizon the anchors bound the midpoints; with one, the horizon does
  | none =>
    obtain ⟨b, anchors, hanchored⟩ := h
    obtain ⟨hfixed, hsize, hfits⟩ := hanchored.fixMiddle hu
    exact ⟨⟨b, _, hfixed⟩, hsize, hfits⟩
  | some k =>
    obtain ⟨hk, hbounded⟩ := h
    obtain ⟨hfixed, hsize, hfits⟩ := hbounded.fixMiddle hk hu
    exact ⟨⟨hk, hfixed⟩, hsize, hfits⟩

/-- The dates that are chosen in a network that allows it are a solution. -/
theorem Datable.fits_midpointSchedule (h : net.Datable horizon) :
    ∃ date, net.Fits date ∧ date .origin = 0 ∧ net.midpointSchedule = net.timepoints.map date :=
  exists_fits_fixMidpoints (P := fun net => net.value.Datable horizon)
    (fun _ hn => hn.exists_fits) (fun _ _ hn hu => hn.fixMiddle hu) net.timepoints (.fresh net)
    h fun _ ht => mem_timepoints.mp ht

/-- **The midpoint schedule is a solution.** -/
theorem Steady.fits_midpointSchedule (h : net.Steady horizon) :
    ∃ date, net.Fits date ∧ date .origin = 0 ∧ net.midpointSchedule = net.timepoints.map date :=
  h.datable.fits_midpointSchedule

/-- Whenever one of some timepoints is fixed, the network has room for the middle of its dates. -/
def FixesEach (net : TrackedNetwork) : List Timepoint → Prop
  | [] => True
  | u :: rest => net.value.admits (.exactly .origin u (net.value.middle u)) ∧
      FixesEach (Network.fixMiddle net u) rest

/-- Fixing timepoint after timepoint is never refused, and each of them is fixed to the middle of
the dates that the ones before it leave. -/
theorem Datable.fixesEach {net : TrackedNetwork} (h : net.value.Datable horizon)
    {us : List Timepoint} (hus : ∀ u ∈ us, net.value.contains u) : FixesEach net us := by
  induction us generalizing net with
  | nil => trivial
  | cons u us ih =>
    obtain ⟨hu, hus⟩ := List.forall_mem_cons.mp hus
    obtain ⟨hfixed, hsize, -⟩ := h.fixMiddle hu
    exact ⟨h.admits_middle hu, ih hfixed fun v hv => (contains_congr hsize v).trans (hus v hv)⟩

/-- **The dates of the midpoint schedule are never refused.** -/
theorem Steady.fixesEach (h : net.Steady horizon) : FixesEach (.fresh net) net.timepoints :=
  h.datable.fixesEach fun _ ht => mem_timepoints.mp ht

/-! ### In the range of the clocks -/

/-- The earliest date and the middle of the dates are in the range of the clocks. With a horizon
both lie below it; without one they are kept small by the number of timepoints times the longest
duration. -/
theorem Datable.lt_ceiling (h : net.Datable horizon) {u : Timepoint} (hu : net.contains u) :
    net.earliest u < Distance.ceiling ∧ net.middle u < Distance.ceiling := by
  obtain ⟨x, hx, -⟩ := (h.atMost_origin hu).exists_finite
  rw [earliest, hx, Distance.toInt]
  -- without a horizon the anchors bound the dates, with one the windows do
  cases horizon with
  | none =>
    obtain ⟨b, anchors, hanchored⟩ := h
    have hmiddle := (hanchored.feasible_middle hu).2.2
    have := hanchored.within u .origin x hx
    simp only [quarter, Distance.ceiling] at *
    omega
  | some k =>
    obtain ⟨hk, cs, hrep, hcs⟩ := id h
    have := hrep.within_of_windows hcs u .origin x hx
    -- some solution has the middle of the dates, and obeys the window
    obtain ⟨date, hdate, hmiddle⟩ := (hrep.closed.admits_iff hrep.solvable
      hrep.closed.square.contains_origin hu).mp (h.admits_middle hu)
    have hwindow := ((hrep.fits_iff date).mp hdate _ (hcs u hu)).2 k rfl
    rw [Constraint.holds_exactly] at hmiddle
    simp only [windowUpTo] at hwindow
    omega

/-- All dates that are fixed in turn are in the range of the clocks. Each network in the sequence is
as good as the first, which is what makes the induction go through. -/
theorem Datable.lt_ceiling_of_mem_fixMidpoints {net : TrackedNetwork}
    (h : net.value.Datable horizon) {us : List Timepoint} (hus : ∀ u ∈ us, net.value.contains u) :
    ∀ x ∈ fixMidpoints net us, x < Distance.ceiling := by
  induction us generalizing net with
  | nil => simp [fixMidpoints]
  | cons u us ih =>
    obtain ⟨hu, hus⟩ := List.forall_mem_cons.mp hus
    obtain ⟨hfixed, hsize, -⟩ := h.fixMiddle hu
    -- the later timepoints are still there after the first is fixed
    have hrest : ∀ v ∈ us, (Network.fixMiddle net u).value.contains v := fun v hv =>
      (contains_congr hsize v).trans (hus v hv)
    exact List.forall_mem_cons.mpr ⟨(h.lt_ceiling hu).2, ih hfixed hrest⟩

end Network

end TemporalPlanning
