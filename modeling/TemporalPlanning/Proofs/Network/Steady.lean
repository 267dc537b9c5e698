import TemporalPlanning.Proofs.Edits
import TemporalPlanning.Proofs.Network.Posting

/-!
# The network of a search

A search posts constraints with bounds of at most `2 ^ 40`, under a horizon of at most `2 ^ 60` if
there is one, and creates no more than `2 ^ 20` timepoints. Its network is then *steady*: it is the
minimal network of what was posted and of the windows of its timepoints, and no distance comes near
the ends of the clocks.

What an edit does to a steady network is said by what it does to the solutions: a constraint keeps
those that obey it (`Network.Steady.post`), and a new interval adds two dates to them
(`Network.Steady.addInterval`). A constraint that some solution obeys is never refused
(`Network.Steady.unstuck_post`).
-/

namespace TemporalPlanning

namespace Network

/-- The greatest horizon of a search. -/
def horizonLimit : Int := 1152921504606846976

/-- The greatest number of timepoints of a search. -/
def sizeLimit : Nat := 1048576

/-- `net` is the minimal network of the constraints `cs` that a search has posted. -/
structure Governed (horizon : Option Int) (net : Network) (cs : List Constraint) : Prop where
  represents : net.Represents cs
  windowed : ∀ t, net.contains t → TrackedNetwork.window net t ∈ cs
  within : ∀ c ∈ cs, c.Within Duration.limit ∨ ∃ t, c = TrackedNetwork.window net t
  horizon_eq : net.horizon = horizon
  horizon_range : ∀ h, horizon = some h → 0 ≤ h ∧ h ≤ horizonLimit
  size_le : net.size ≤ sizeLimit

/-- `net` is the minimal network of what a search has posted. -/
def Steady (horizon : Option Int) (net : Network) : Prop := ∃ cs, net.Governed horizon cs

variable {net : Network} {horizon : Option Int} {cs : List Constraint}

/-- The constraints that govern a network are well scaled: durations of states, and windows if there
is a horizon. -/
theorem Governed.scaled (h : net.Governed horizon cs) : net.Scaled cs Duration.limit := by
  refine ⟨by decide, ?_⟩
  -- without a horizon every constraint is small; with one every timepoint has its window
  cases hh : horizon with
  | none =>
    refine .inl ⟨?_, fun c hc => ?_⟩
    · have : (net.size : Int) ≤ 1048576 := by exact_mod_cast h.size_le
      simp only [Duration.limit, quarter]
      omega
    · rcases h.within c hc with hw | ⟨t, rfl⟩
      · exact hw
      · simp [Constraint.Within, TrackedNetwork.window, h.horizon_eq, hh, Duration.limit]
  | some k =>
    have := h.horizon_range k hh
    refine .inr ⟨k, by simp only [quarter, horizonLimit] at *; omega, fun t ht => ?_⟩
    simpa [TrackedNetwork.window, h.horizon_eq, hh, windowUpTo] using h.windowed t ht

/-- Whatever governs a network keeps its distances within a quarter of the range. -/
theorem Governed.within_quarter (h : net.Governed horizon cs) : net.Within quarter :=
  h.represents.within h.scaled

theorem Steady.closed (h : net.Steady horizon) : net.Closed := h.choose_spec.represents.closed

theorem Steady.exists_fits (h : net.Steady horizon) : ∃ date, net.Fits date :=
  h.choose_spec.represents.solvable

/-- Every timepoint lies between the origin and the horizon. -/
theorem Steady.window (h : net.Steady horizon) {date : Timepoint → Int} (hdate : net.Fits date)
    {t : Timepoint} (ht : net.contains t) :
    0 ≤ date t - date .origin ∧ ∀ k, horizon = some k → date t - date .origin ≤ k := by
  obtain ⟨cs, hcs⟩ := h
  obtain ⟨hlo, hhi⟩ := (hcs.represents.fits_iff date).mp hdate _ (hcs.windowed t ht)
  exact ⟨hlo, fun k hk => hhi k (hcs.horizon_eq.trans hk)⟩

/-- In a steady network no timepoint comes before the origin. -/
theorem Steady.atMost_origin (h : net.Steady horizon) {t : Timepoint} (ht : net.contains t) :
    (net.distance t .origin).AtMost 0 :=
  h.closed.atMost_origin h.exists_fits ht fun _ hdate => Int.sub_nonneg.mp (h.window hdate ht).1

/-- The origin alone. Every partial plan starts from it, with the horizon of the search as its
window. -/
theorem Steady.origin (hh : ∀ h, horizon = some h → 0 ≤ h ∧ h ≤ horizonLimit) :
    (Network.origin horizon).Steady horizon := by
  refine ⟨[TrackedNetwork.window (.origin horizon) .origin], ?_, fun t ht => ?_, fun c hc => ?_,
    rfl, hh, show 1 ≤ sizeLimit by decide⟩
  · have hrep := Represents.origin horizon
    -- the window of the origin binds nothing, so it can be listed without being posted
    refine hrep.congr (fun date => ?_) fun c hc => ?_
    · -- the origin is at distance 0 from itself, and the horizon is not negative
      simp only [List.not_mem_nil, false_implies, implies_true, List.mem_singleton, forall_eq,
        true_iff]
      refine ⟨by simp [TrackedNetwork.window], fun k hk => ?_⟩
      simpa [TrackedNetwork.window] using (hh k hk).1
    · obtain rfl := List.mem_singleton.mp hc
      exact ⟨hrep.closed.square.contains_origin, hrep.closed.square.contains_origin⟩
  · rw [eq_origin_of_contains ht]
    exact List.mem_singleton_self _
  · exact .inr ⟨.origin, List.mem_singleton.mp hc⟩

/-! ### Edits of a steady network -/

variable {s s' : PartialPlan}

/-- Posting a constraint keeps the solutions that obey it. It also keeps the bookkeeping of the
network intact, so that the next constraint can be posted with the same guarantee. -/
theorem Steady.post (h : s.network.Steady horizon) {c : Constraint} (hc : c.Within Duration.limit)
    {u : Unit} (hs : Edit.post c s = .done u s') :
    s'.network.Steady horizon ∧ s'.network.size = s.network.size ∧ s'.book = s.book ∧
      s'.chron = s.chron ∧ ∀ date, s'.network.Fits date ↔ s.network.Fits date ∧ c.Holds date := by
  -- what governs the network after the posting is the constraint and what governed it before
  obtain ⟨cs, hcs⟩ := h
  obtain ⟨⟨hfirst, hsecond⟩, hadmits, rfl⟩ := Edit.post_eq_done.mp hs
  have hrep := hcs.represents
  have feasible := (hrep.closed.admits_iff hrep.solvable hfirst hsecond).mp hadmits
  have hrep' := (hrep.enforce hcs.scaled hc hfirst hsecond feasible).1
  have hsize : (s.net.enforce c).value.size = s.net.value.size := TrackedNetwork.size_enforce _ _
  have hhorizon : (s.net.enforce c).value.horizon = s.net.value.horizon :=
    TrackedNetwork.horizon_enforce _ _
  have hwindow := TrackedNetwork.window_congr hhorizon
  -- the windows are those of before, as neither the timepoints nor the horizon change
  refine ⟨⟨c :: cs, hrep', fun t ht => ?_, ?_, hhorizon.trans hcs.horizon_eq, hcs.horizon_range,
    ?_⟩, hsize, rfl, rfl, fun date => ?_⟩
  · rw [hwindow]
    refine List.mem_cons_of_mem _ (hcs.windowed t ?_)
    rwa [contains_congr hsize] at ht
  · rw [hwindow]
    exact List.forall_mem_cons.mpr ⟨.inl hc, hcs.within⟩
  · exact hsize.le.trans hcs.size_le
  · show (s.net.enforce c).value.Fits date ↔ _
    rw [hrep'.fits_iff, List.forall_mem_cons, ← hrep.fits_iff, and_comm]

/-- A constraint that some solution obeys is not refused. -/
theorem Steady.unstuck_post (h : s.network.Steady horizon) {c : Constraint}
    {date : Timepoint → Int} (hdate : s.network.Fits date) (hc : c.Holds date) :
    (Edit.post c).Unstuck s := by
  intro why s' hs
  obtain ⟨⟨hfirst, hsecond⟩, hadmits, -, -⟩ := Edit.post_eq_stuck.mp hs
  exact hadmits ((h.closed.admits_iff h.exists_fits hfirst hsecond).mpr ⟨date, hdate, hc⟩)

/-- A new timepoint has any date in its window. The limit on the size is what keeps the sums of
distances exact: beyond it a window could be lost to saturation. -/
theorem Steady.addTimepoint (h : s.network.Steady horizon) (hsize : s.network.size < sizeLimit)
    {t : Timepoint} (hs : Edit.addTimepoint s = .done t s') :
    t = s.network.next ∧ s'.network.Steady horizon ∧ s'.network.size = s.network.size + 1 ∧
      s'.book = s.book ∧ s'.chron = s.chron ∧
      ∀ date, s'.network.Fits date ↔
        s.network.Fits date ∧ (Constraint.mk .origin t 0 horizon).Holds date := by
  have windowed : ∀ t, s.network.contains t → (s.network.distance t .origin).AtMost 0 :=
    fun t ht => h.atMost_origin ht
  obtain ⟨cs, hcs⟩ := h
  obtain ⟨rfl, rfl⟩ := Edit.onNetwork_eq_done.mp hs
  -- all constraints are small, so that nothing is cut off when the network grows
  have hrep := hcs.represents
  obtain ⟨hrep', hsize', hhorizon⟩ := hrep.addTimepoint hcs.within_quarter.ranged windowed
    fun k hk => by
      have := hcs.horizon_range k (hcs.horizon_eq.symm.trans hk)
      simp only [Distance.ceiling, horizonLimit] at *
      omega
  -- the window of the new timepoint is one more constraint
  have hwindow := TrackedNetwork.window_congr hhorizon
  refine ⟨rfl, ⟨_, hrep', fun t ht => ?_, ?_, hhorizon.trans hcs.horizon_eq, hcs.horizon_range, ?_⟩,
    hsize', rfl, rfl, fun date => ?_⟩
  · rw [hwindow]
    rw [contains_iff] at ht
    -- a timepoint is an old one, with its window among the old constraints, or the new one
    have : t.index < s.network.size ∨ t = s.network.next := by
      cases t
      simp only [next, Timepoint.mk.injEq]
      rw [hsize'] at ht
      exact Nat.lt_succ_iff_lt_or_eq.mp ht
    rcases this with hold | rfl
    · exact List.mem_cons_of_mem _ (hcs.windowed t (contains_iff.mpr hold))
    · exact List.mem_cons_self
  · rw [hwindow]
    exact List.forall_mem_cons.mpr ⟨.inr ⟨_, rfl⟩, hcs.within⟩
  · rw [hsize']
    exact hsize
  · show s.net.addTimepoint.1.value.Fits date ↔ _
    rw [hrep'.fits_iff, List.forall_mem_cons, ← hrep.fits_iff, and_comm, TrackedNetwork.window,
      show s.net.value.horizon = horizon from hcs.horizon_eq]
    rfl

/-- What is posted between the ends of an interval says that its length is one that the duration
contains. -/
theorem holds_duration_iff {d : Duration} {t u : Timepoint} {date : Timepoint → Int} :
    (Constraint.mk t u d.min d.max).Holds date ↔ d.contains (date u - date t) := by
  unfold Constraint.Holds Duration.contains
  cases hmax : d.max <;> simp

/-- The bounds of a valid duration stay within the limit that is set to durations. -/
theorem within_of_isValid {d : Duration} (hd : d.isValid) {t u : Timepoint} :
    (Constraint.mk t u d.min d.max).Within Duration.limit := by
  unfold Duration.isValid at hd
  unfold Constraint.Within
  have hlimit : (0 : Int) ≤ Duration.limit := by decide
  -- a valid duration is not negative, and its maximum is not below its minimum
  cases hmax : d.max with
  | none =>
    simp only [hmax, Bool.and_true, Bool.and_eq_true, decide_eq_true_eq] at hd
    exact ⟨⟨by dsimp only; omega, hd.2⟩, by simp⟩
  | some k =>
    simp only [hmax, Bool.and_eq_true, decide_eq_true_eq] at hd
    refine ⟨⟨by dsimp only; omega, hd.1.2⟩, fun hi hhi => ?_⟩
    obtain rfl := Option.some.inj hhi
    omega

/-- A new interval has any dates in the windows whose difference its duration allows. The start gets
the first free number and the end the next one, which is how tokens and timepoints can be counted
against each other. -/
theorem Steady.addInterval (h : s.network.Steady horizon)
    (hsize : s.network.size + 1 < sizeLimit) {d : Duration} (hd : d.isValid)
    {r : Timepoint × Timepoint} (hs : Edit.addInterval d s = .done r s') :
    r = (⟨s.network.size⟩, ⟨s.network.size + 1⟩) ∧ s'.network.Steady horizon ∧
      s'.network.size = s.network.size + 2 ∧ s'.book = s.book ∧ s'.chron = s.chron ∧
      ∀ date, s'.network.Fits date ↔ s.network.Fits date ∧
        (Constraint.mk .origin r.1 0 horizon).Holds date ∧
        (Constraint.mk .origin r.2 0 horizon).Holds date ∧ d.contains (date r.2 - date r.1) := by
  obtain ⟨t, s₁, h₁, hs⟩ := Edit.bind_eq_done.mp hs
  obtain ⟨u, s₂, h₂, hs⟩ := Edit.bind_eq_done.mp hs
  obtain ⟨_, s₃, h₃, hs⟩ := Edit.bind_eq_done.mp hs
  obtain ⟨rfl, rfl⟩ := Edit.pure_eq_done.mp hs
  -- its start, its end, and the difference between the two
  obtain ⟨rfl, st₁, size₁, book₁, chron₁, fits₁⟩ := h.addTimepoint (by omega) h₁
  obtain ⟨rfl, st₂, size₂, book₂, chron₂, fits₂⟩ := st₁.addTimepoint (by omega) h₂
  obtain ⟨st₃, size₃, book₃, chron₃, fits₃⟩ := st₂.post (within_of_isValid hd) h₃
  refine ⟨by simp [next, size₁], st₃, by omega, by rw [book₃, book₂, book₁],
    by rw [chron₃, chron₂, chron₁], fun date => ?_⟩
  rw [fits₃, fits₂, fits₁, holds_duration_iff]
  simp only [and_assoc]

/-- A new interval is not refused if its duration allows the difference of its dates. Given dates on
which everything holds, none of the three constraints can be refused, since each refusal would say
that no solution obeys it. -/
theorem Steady.unstuck_addInterval (h : s.network.Steady horizon)
    (hsize : s.network.size + 1 < sizeLimit) {d : Duration} {date : Timepoint → Int}
    (hdate : s.network.Fits date)
    (hstart : (Constraint.mk .origin ⟨s.network.size⟩ 0 horizon).Holds date)
    (hstop : (Constraint.mk .origin ⟨s.network.size + 1⟩ 0 horizon).Holds date)
    (hlength : d.contains (date ⟨s.network.size + 1⟩ - date ⟨s.network.size⟩)) :
    (Edit.addInterval d).Unstuck s := by
  -- only posting the duration may be refused
  refine .bind Edit.unstuck_onNetwork fun t s₁ h₁ => .bind Edit.unstuck_onNetwork fun u s₂ h₂ =>
    .bind ?_ fun _ _ _ => Edit.unstuck_pure
  obtain ⟨rfl, st₁, size₁, -, -, fits₁⟩ := h.addTimepoint (by omega) h₁
  obtain ⟨rfl, st₂, size₂, -, -, fits₂⟩ := st₁.addTimepoint (by omega) h₂
  -- the dates fit when both timepoints are there, and the duration is all that is posted
  have hdate₂ : s₂.network.Fits date := by
    rw [fits₂, fits₁]
    refine ⟨⟨hdate, hstart⟩, ?_⟩
    simpa [next, size₁] using hstop
  refine st₂.unstuck_post hdate₂ ?_
  rw [holds_duration_iff]
  simpa [next, size₁] using hlength

end Network

end TemporalPlanning
