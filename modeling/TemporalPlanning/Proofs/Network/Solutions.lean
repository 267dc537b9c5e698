import Mathlib
import TemporalPlanning.Proofs.Network.Closure

/-!
# Solutions of a network

The distances of a closed network are exact: each is the least upper bound of the differences that
its solutions give to the two timepoints (`Network.Closed.isLUB_distance`), and a constraint has
room in the distances if and only if some solution obeys it (`Network.Closed.admits_iff`).

`Network.Represents net cs` says that `net` is the minimal network of the constraints `cs`: it is
closed, it has a solution, and its solutions are those of `cs`.
-/

namespace TemporalPlanning

namespace Constraint

/-- Some dates obey a constraint. -/
def Holds (c : Constraint) (date : Timepoint → Int) : Prop :=
  c.lo ≤ date c.second - date c.first ∧ ∀ hi, c.hi = some hi → date c.second - date c.first ≤ hi

/-- The bounds of a constraint are at most `b` away from 0. -/
def Within (b : Int) (c : Constraint) : Prop :=
  (-b ≤ c.lo ∧ c.lo ≤ b) ∧ ∀ hi, c.hi = some hi → -b ≤ hi ∧ hi ≤ b

/-- `second` comes at most `w` after `first`, as a lower bound in the other direction. -/
def edge (first second : Timepoint) (w : Int) : Constraint := ⟨second, first, -w, none⟩

@[simp] theorem holds_edge {t u : Timepoint} {w : Int} {date : Timepoint → Int} :
    (edge t u w).Holds date ↔ date u - date t ≤ w := by
  simp only [Holds, edge, reduceCtorEq, false_implies, implies_true, and_true]
  omega

/-- One timepoint precedes another if it is dated no later. -/
@[simp] theorem holds_precedes {t u : Timepoint} {date : Timepoint → Int} :
    (precedes t u).Holds date ↔ date t ≤ date u := by
  simp only [Holds, precedes, reduceCtorEq, false_implies, implies_true, and_true]
  omega

@[simp] theorem holds_exactly {t u : Timepoint} {v : Int} {date : Timepoint → Int} :
    (exactly t u v).Holds date ↔ date u - date t = v := by
  simp only [Holds, exactly, Option.some.injEq, forall_eq']
  omega

end Constraint

namespace Distance

/-- A distance as a number, cut off at `m`. -/
def cutAt (m : Int) : Distance → Int
  | .finite d => min d m
  | .unbounded => m

/-- A distance as an element of the integers with a greatest element. -/
def toWithTop : Distance → WithTop Int
  | .finite d => (d : WithTop Int)
  | .unbounded => ⊤

end Distance

namespace Network

variable {net : Network}

/-! ### Building solutions -/

/-- Only the dates of the network's own timepoints matter. -/
theorem Fits.congr {date date' : Timepoint → Int} (h : net.Fits date) (square : net.Square)
    (hagree : ∀ t, net.contains t → date' t = date t) : net.Fits date' := by
  intro t u x hx
  obtain ⟨ht, hu⟩ := square.contains_of_atMost hx
  rw [hagree t ht, hagree u hu]
  exact h t u x hx

/-- Dates move together without leaving a network. -/
theorem Fits.add_const {date : Timepoint → Int} (h : net.Fits date) (k : Int) :
    net.Fits fun t => date t + k := by
  intro t u x hx
  have := h t u x hx
  dsimp only
  omega

/-- The earlier of two solutions, timepoint by timepoint, is a solution. -/
theorem Fits.min {date date' : Timepoint → Int} (h : net.Fits date) (h' : net.Fits date') :
    net.Fits fun t => min (date t) (date' t) := by
  intro t u x hx
  have h₁ := h t u x hx
  have h₂ := h' t u x hx
  dsimp only
  omega

/-- All timepoints as late as possible after `t`, but not later than some solution. It is the one
way in which solutions are built in this development, besides moving all dates alike and taking
minima. -/
theorem Closed.fits_cutAt (closed : net.Closed) {date : Timepoint → Int} (h : net.Fits date)
    (t : Timepoint) : net.Fits fun u => (net.distance t u).cutAt (date u) := by
  intro a b x hx
  have hab := h a b x hx
  dsimp only
  -- where `t` does not bound `a`, the date of `b` only gets smaller
  cases ha : net.distance t a with
  | unbounded =>
    cases hb : net.distance t b with
    | unbounded => exact hab
    | finite y => simp only [Distance.cutAt]; omega
  | finite y =>
    have hta : (net.distance t a).AtMost y := by simp [ha]
    -- where `t` bounds `a` it bounds `b` by the triangle inequality
    obtain ⟨z, hz, hzx⟩ := (closed.triangle _ _ _ _ _ hta hx).exists_finite
    simp only [hz, Distance.cutAt]
    omega

/-- Every difference that the distances between two timepoints allow occurs in a solution. Two late
solutions, one cut down to what a date of 0 for `t` leaves open and one to what a date of `x` for
`u` leaves open, are combined by taking the earlier date everywhere. -/
theorem Closed.exists_fits_sub_eq (closed : net.Closed) (solvable : ∃ date, net.Fits date)
    {t u : Timepoint} (ht : net.contains t) (hu : net.contains u) {x : Int}
    (upper : (net.distance t u).allows x) (lower : (net.distance u t).allows (-x)) :
    ∃ date, net.Fits date ∧ date u - date t = x := by
  obtain ⟨s, hs⟩ := solvable
  have hlow := Distance.allows_iff.mp lower
  have hupp := Distance.allows_iff.mp upper
  -- a solution that is late everywhere, so that only `t` at 0 and `u` at `x` hold dates back
  have hm := hs.add_const (max (-s t) (x - s u))
  have hm' := hs.add_const (max (-s t) (x - s u) - x)
  refine ⟨_, (closed.fits_cutAt hm t).min ((closed.fits_cutAt hm' u).add_const x), ?_⟩
  -- each cut leaves its own timepoint where it was put
  rw [closed.diagonal t ht, closed.diagonal u hu]
  -- neither cut comes before the date that the other one asks for
  have hut : 0 ≤ (net.distance u t).cutAt (s t + (max (-s t) (x - s u) - x)) + x := by
    cases hd : net.distance u t with
    | unbounded => simp only [Distance.cutAt]; omega
    | finite y =>
      have := hlow y (by simp [hd])
      simp only [Distance.cutAt]
      omega
  have htu : x ≤ (net.distance t u).cutAt (s u + max (-s t) (x - s u)) := by
    cases hd : net.distance t u with
    | unbounded => simp only [Distance.cutAt]; omega
    | finite y =>
      have := hupp y (by simp [hd])
      simp only [Distance.cutAt]
      omega
  simp only [Distance.cutAt] at *
  omega

/-! ### Exactness -/

/-- A finite distance is the difference of the two timepoints in some solution. The distances are
therefore the least upper bounds of the differences, and not just some bounds. -/
theorem Closed.exists_fits_eq (closed : net.Closed) (solvable : ∃ date, net.Fits date)
    {t u : Timepoint} {x : Int} (hx : net.distance t u = .finite x) :
    ∃ date, net.Fits date ∧ date u - date t = x := by
  have hux : (net.distance t u).AtMost x := by simp [hx]
  obtain ⟨ht, hu⟩ := closed.square.contains_of_atMost hux
  refine closed.exists_fits_sub_eq solvable ht hu (by simp [hx, Distance.allows])
    (Distance.allows_iff.mpr fun y hy => ?_)
  have := closed.triangle _ _ _ _ _ hux hy
  rw [closed.diagonal t ht, Distance.atMost_finite] at this
  omega

/-- A bound that the distance does not give is exceeded in some solution. A finite distance is
attained, and where it is unbounded some greater difference is allowed by the way back. -/
theorem Closed.exists_fits_lt_sub (closed : net.Closed) (solvable : ∃ date, net.Fits date)
    {t u : Timepoint} (ht : net.contains t) (hu : net.contains u) {x : Int}
    (h : ¬ (net.distance t u).AtMost x) : ∃ date, net.Fits date ∧ x < date u - date t := by
  -- a finite distance is reached; beyond every bound there is room if the way back allows it
  cases hd : net.distance t u with
  | finite y =>
    simp only [hd, Distance.atMost_finite, not_le] at h
    obtain ⟨date, hdate, hy⟩ := closed.exists_fits_eq solvable hd
    exact ⟨date, hdate, by omega⟩
  | unbounded =>
    -- the way back leaves room above some number, if it is bounded at all
    obtain ⟨y, hxy, hback⟩ : ∃ y, x < y ∧ (net.distance u t).allows (-y) := by
      cases hd' : net.distance u t with
      | unbounded => exact ⟨x + 1, by omega, rfl⟩
      | finite z =>
        refine ⟨max (x + 1) (-z), by omega, ?_⟩
        simp only [Distance.allows, decide_eq_true_eq]
        omega
    obtain ⟨date, hdate, hy⟩ := closed.exists_fits_sub_eq solvable ht hu
      (by simp [hd, Distance.allows]) hback
    exact ⟨date, hdate, by omega⟩

/-- A bound that all solutions respect is known to a closed network. -/
theorem Closed.atMost_iff (closed : net.Closed) (solvable : ∃ date, net.Fits date)
    {t u : Timepoint} (ht : net.contains t) (hu : net.contains u) {x : Int} :
    (net.distance t u).AtMost x ↔ ∀ date, net.Fits date → date u - date t ≤ x := by
  refine ⟨fun h date hdate => hdate t u x h, fun h => ?_⟩
  by_contra hnot
  obtain ⟨date, hdate, hx⟩ := closed.exists_fits_lt_sub solvable ht hu hnot
  exact absurd (h date hdate) (by omega)

/-- A timepoint that no solution puts before the origin. -/
theorem Closed.atMost_origin (closed : net.Closed) (solvable : ∃ date, net.Fits date)
    {t : Timepoint} (ht : net.contains t) (hle : ∀ date, net.Fits date → date .origin ≤ date t) :
    (net.distance t .origin).AtMost 0 := by
  rw [closed.atMost_iff solvable ht closed.square.contains_origin]
  intro date hdate
  have := hle date hdate
  omega

/-- **The distances of a closed network are exact.** The distance from `t` to `u` is the least upper
bound of the differences of the two in all solutions, infinite if these are unbounded. -/
theorem Closed.isLUB_distance (closed : net.Closed) (solvable : ∃ date, net.Fits date)
    {t u : Timepoint} (ht : net.contains t) (hu : net.contains u) :
    IsLUB {x : WithTop Int | ∃ date, net.Fits date ∧ x = ((date u - date t : Int) : WithTop Int)}
      (net.distance t u).toWithTop := by
  constructor
  · -- solutions respect the distance
    rintro _ ⟨date, hdate, rfl⟩
    cases hd : net.distance t u with
    | unbounded => exact le_top
    | finite y => exact WithTop.coe_le_coe.mpr (hdate t u y (by simp [hd]))
  · intro b hb
    induction b using WithTop.recTopCoe with
    | top => exact le_top
    | coe m =>
      -- a lesser bound would be known to the network
      have hm : (net.distance t u).AtMost m := by
        rw [closed.atMost_iff solvable ht hu]
        exact fun date hdate => WithTop.coe_le_coe.mp (hb ⟨date, hdate, rfl⟩)
      obtain ⟨y, hy, hym⟩ := hm.exists_finite
      rw [hy]
      exact WithTop.coe_le_coe.mpr hym

/-- The triangle inequality, with no bound as the greatest distance. In this form the distances can
be compared with least upper bounds, which may be infinite. -/
theorem Closed.toWithTop_triangle (closed : net.Closed) (t u v : Timepoint) :
    (net.distance t v).toWithTop ≤
      (net.distance t u).toWithTop + (net.distance u v).toWithTop := by
  -- where one of the two legs is unbounded there is nothing to show
  cases htu : net.distance t u with
  | unbounded =>
    rw [show Distance.unbounded.toWithTop = ⊤ from rfl, WithTop.top_add]
    exact le_top
  | finite x =>
    cases huv : net.distance u v with
    | unbounded =>
      rw [show Distance.unbounded.toWithTop = ⊤ from rfl, WithTop.add_top]
      exact le_top
    | finite y =>
      obtain ⟨z, hz, hzxy⟩ :=
        (closed.triangle t u v x y (by simp [htu]) (by simp [huv])).exists_finite
      rw [hz]
      exact WithTop.coe_le_coe.mpr hzxy

/-- A constraint that some solution obeys has room, in any network. No closure is needed for this
direction: what refuses a constraint is a distance, and solutions respect the distances. -/
theorem Fits.admits {date : Timepoint → Int} (h : net.Fits date) {c : Constraint}
    (hc : c.Holds date) : net.admits c = true := by
  obtain ⟨hlo, hhi⟩ := hc
  have hupper := fun y => h c.first c.second y
  have hlower := fun y => h c.second c.first y
  simp only [Network.admits, Bool.and_eq_true]
  -- the lower bound against the distance forth
  refine ⟨Distance.allows_iff.mpr fun y hy => hlo.trans (hupper y hy), ?_⟩
  -- the difference of the two dates obeys the constraint and the distances alike
  cases hcase : c.hi with
  | none => rfl
  | some hi =>
    have hle := hhi hi hcase
    simp only [Bool.and_eq_true, decide_eq_true_eq]
    refine ⟨hlo.trans hle, Distance.allows_iff.mpr fun y hy => ?_⟩
    have := hlower y hy
    omega

/-- **A constraint has room if and only if a solution obeys it.** The test looks at two cells only,
one for each side of the constraint, and that these suffice is what the closed form of the matrix is
for. -/
theorem Closed.admits_iff (closed : net.Closed) (solvable : ∃ date, net.Fits date)
    {c : Constraint} (hfirst : net.contains c.first) (hsecond : net.contains c.second) :
    net.admits c = true ↔ ∃ date, net.Fits date ∧ c.Holds date := by
  constructor
  · intro h
    simp only [admits, Bool.and_eq_true] at h
    obtain ⟨hlo, hhi⟩ := h
    have hlo' := Distance.allows_iff.mp hlo
    have hhi' : ∀ hi, c.hi = some hi →
        c.lo ≤ hi ∧ ∀ y, (net.distance c.second c.first).AtMost y → -hi ≤ y := by
      intro hi hc
      simp only [hc, Bool.and_eq_true, decide_eq_true_eq] at hhi
      exact ⟨hhi.1, Distance.allows_iff.mp hhi.2⟩
    -- the least difference that both the constraint and the way back leave open
    obtain ⟨x, hx, hupper, hlower⟩ : ∃ x, (c.lo ≤ x ∧ ∀ hi, c.hi = some hi → x ≤ hi) ∧
        (net.distance c.first c.second).allows x ∧
        (net.distance c.second c.first).allows (-x) := by
      cases hd : net.distance c.second c.first with
      | unbounded => exact ⟨c.lo, ⟨le_rfl, fun hi hc => (hhi' hi hc).1⟩, hlo, rfl⟩
      | finite z =>
        have hz : (net.distance c.second c.first).AtMost z := by simp [hd]
        refine ⟨max c.lo (-z), ⟨by omega, fun hi hc => ?_⟩, Distance.allows_iff.mpr ?_, ?_⟩
        · have h₁ := (hhi' hi hc).1
          have h₂ := (hhi' hi hc).2 z hz
          omega
        · intro y hy
          have h₁ := hlo' y hy
          have h₂ := closed.triangle _ _ _ _ _ hy hz
          rw [closed.diagonal _ hfirst, Distance.atMost_finite] at h₂
          omega
        · simp only [Distance.allows, decide_eq_true_eq]; omega
    -- a difference that both distances leave open occurs in a solution
    obtain ⟨date, hdate, hdx⟩ := closed.exists_fits_sub_eq solvable hfirst hsecond hupper hlower
    exact ⟨date, hdate, by rw [hdx]; exact hx.1, fun hi hc => by rw [hdx]; exact hx.2 hi hc⟩
  · rintro ⟨date, hdate, hc⟩
    exact hdate.admits hc

/-- The latest date of a timepoint is its distance from the origin, if that is finite. -/
theorem latest_eq_some {t : Timepoint} {k : Int} :
    net.latest t = some k ↔ net.distance .origin t = .finite k := by
  rw [latest]
  cases net.distance .origin t <;> simp [Distance.bound?]

/-- No timepoint can be later than its distance from the origin says. -/
theorem Fits.le_latest {date : Timepoint → Int} (h : net.Fits date) {t : Timepoint} {k : Int}
    (hk : net.latest t = some k) : date t - date .origin ≤ k :=
  h .origin t k (by simp [latest_eq_some.mp hk])

/-- One timepoint can be after another if the network admits that it is later by 1. -/
theorem canBeAfter_eq_admits (t u : Timepoint) :
    net.canBeAfter t u = net.admits ⟨t, u, 1, none⟩ := by
  simp [canBeAfter, admits]

/-- What comes after a timepoint in some solution can do so, in any network. -/
theorem Fits.canBeAfter {date : Timepoint → Int} (h : net.Fits date) {t u : Timepoint}
    (hlt : date t < date u) : net.canBeAfter t u = true := by
  rw [canBeAfter_eq_admits]
  exact h.admits ⟨Int.le_sub_left_of_add_le (by simpa using hlt), by simp⟩

/-- **A timepoint can come after another if and only if it does in a solution.** -/
theorem Closed.canBeAfter_iff (closed : net.Closed) (solvable : ∃ date, net.Fits date)
    {t u : Timepoint} (ht : net.contains t) (hu : net.contains u) :
    net.canBeAfter t u = true ↔ ∃ date, net.Fits date ∧ date t < date u := by
  rw [canBeAfter_eq_admits, closed.admits_iff solvable ht hu]
  refine exists_congr fun date => and_congr_right fun _ => ?_
  simp only [Constraint.Holds, reduceCtorEq, false_implies, implies_true, and_true]
  omega

/-! ### The minimal network of some constraints -/

/-- `net` is the minimal network of the constraints `cs` over its timepoints. -/
structure Represents (net : Network) (cs : List Constraint) : Prop where
  closed : net.Closed
  solvable : ∃ date, net.Fits date
  fits_iff : ∀ date, net.Fits date ↔ ∀ c ∈ cs, c.Holds date
  contains : ∀ c ∈ cs, net.contains c.first ∧ net.contains c.second

/-- Constraints with the same solutions have the same minimal network. -/
theorem Represents.congr {cs cs' : List Constraint} (h : net.Represents cs)
    (hiff : ∀ date, (∀ c ∈ cs, c.Holds date) ↔ ∀ c ∈ cs', c.Holds date)
    (hcontains : ∀ c ∈ cs', net.contains c.first ∧ net.contains c.second) :
    net.Represents cs' :=
  ⟨h.closed, h.solvable, fun date => (h.fits_iff date).trans (hiff date), hcontains⟩

/-- In the beginning there is the origin alone. -/
theorem eq_origin_of_contains {horizon : Option Int} {t : Timepoint}
    (ht : (Network.origin horizon).contains t) : t = .origin := by
  cases t
  simpa [contains_iff, size, Network.origin, Timepoint.origin] using ht

/-- In the first network only the distance of the origin from itself is known. The matrix has a
single cell, and every other pair reads as unbounded. -/
theorem eq_origin_of_atMost {horizon : Option Int} {t u : Timepoint} {x : Int}
    (h : ((Network.origin horizon).distance t u).AtMost x) : t = .origin ∧ u = .origin ∧ 0 ≤ x := by
  obtain ⟨t⟩ := t
  obtain ⟨u⟩ := u
  cases t with
  | succ t => simp [distance, Network.origin] at h
  | zero =>
    cases u with
    | zero => exact ⟨rfl, rfl, h⟩
    | succ u => simp [distance, Network.origin] at h

/-- The first network has no constraints, and is the minimal network of none. The origin itself has
the date 0 relative to itself, and there is no other timepoint that a date could be chosen for. -/
theorem Represents.origin (horizon : Option Int) : (Network.origin horizon).Represents [] := by
  -- one row with one entry: every distance that is known is that of the origin from itself
  refine ⟨⟨⟨Nat.one_pos, fun i row h => ?_⟩, fun t ht => ?_, fun t u v x y htu huv => ?_⟩,
    ⟨fun _ => 0, fun t u x h => ?_⟩, fun date => ⟨fun _ => by simp, fun _ t u x h => ?_⟩, by simp⟩
  · cases i with
    | zero => obtain rfl := Option.some.inj h; rfl
    | succ i => simp [Network.origin] at h
  · obtain rfl := eq_origin_of_contains ht
    rfl
  · -- a way over three timepoints stays at the origin
    obtain ⟨rfl, rfl, hx⟩ := eq_origin_of_atMost htu
    obtain ⟨-, rfl, hy⟩ := eq_origin_of_atMost huv
    show (Distance.finite 0).AtMost _
    simp only [Distance.atMost_finite]; omega
  · have := (eq_origin_of_atMost h).2.2
    dsimp only
    omega
  · obtain ⟨rfl, rfl, hx⟩ := eq_origin_of_atMost h
    omega

end Network

end TemporalPlanning
