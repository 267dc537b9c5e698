import TemporalPlanning.Network.Basic
import Mathlib.Data.Int.Order.Basic
import Mathlib.Tactic.Common

/-!
# Closed networks

A network is *closed* when its distances are those of a metric without symmetry: every timepoint is
at distance 0 from itself, and no detour is shorter than the direct connection. This file says what
the distances of a closed network become when an edge is added (`TrackedNetwork.atMost_addEdge`),
and that the result is closed again (`Network.Closed.addEdge`).

Distances are compared through `Distance.AtMost`: `d.AtMost x` says that the bound `d` is at least
as tight as `x`. A network is read through the dates that respect its distances (`Network.Fits`).

The sums in the algorithm are sums of 64-bit clocks. `Network.Roomy` is the condition under which
none of those made for an edge leaves their range.
-/

namespace TemporalPlanning

namespace Distance

/-- `d.AtMost x`: the bound `d` is `x` or tighter. -/
def AtMost : Distance → Int → Prop
  | .finite d, x => d ≤ x
  | .unbounded, _ => False

@[simp] theorem atMost_finite {d x : Int} : (finite d).AtMost x ↔ d ≤ x := Iff.rfl

@[simp] theorem not_atMost_unbounded {x : Int} : ¬ unbounded.AtMost x := id

/-- A distance that is at most some number is at most every greater one. -/
theorem AtMost.mono {d : Distance} {x y : Int} (h : d.AtMost x) (hxy : x ≤ y) : d.AtMost y := by
  cases d with
  | finite d => exact le_trans (atMost_finite.mp h) hxy
  | unbounded => exact absurd h not_atMost_unbounded

theorem AtMost.exists_finite {d : Distance} {x : Int} (h : d.AtMost x) :
    ∃ y, d = .finite y ∧ y ≤ x := by
  cases d with
  | finite d => exact ⟨d, rfl, h⟩
  | unbounded => exact absurd h not_atMost_unbounded

/-- A distance allows a number if no bound on it is below that number. So an unbounded distance
allows every number. -/
theorem allows_iff {d : Distance} {x : Int} : d.allows x = true ↔ ∀ y, d.AtMost y → x ≤ y := by
  cases d with
  | finite d => simpa [allows] using ⟨fun h y hy => le_trans h hy, fun h => h d le_rfl⟩
  | unbounded => simp [allows]

/-- Distances are the same if they have the same bounds. In this way equations between distances are
proved bound by bound. -/
theorem ext_atMost {d e : Distance} (h : ∀ x, d.AtMost x ↔ e.AtMost x) : d = e := by
  cases d with
  -- a finite bound is the least number that is at least it
  | finite d =>
    obtain ⟨y, rfl, hy⟩ := ((h d).mp le_rfl).exists_finite
    exact congrArg finite (le_antisymm ((h y).mpr le_rfl) hy)
  | unbounded =>
    cases e with
    | finite e => exact absurd ((h e).mpr le_rfl) not_atMost_unbounded
    | unbounded => rfl

/-- The tighter of two bounds is as tight as either. -/
theorem atMost_ite_tighter {d e : Distance} {x : Int} :
    (if d.tighter e then d else e).AtMost x ↔ d.AtMost x ∨ e.AtMost x := by
  cases d <;> cases e <;> simp only [tighter]
  case finite.finite a b =>
    by_cases h : a < b
    · simp only [h, decide_true, if_true, atMost_finite]; omega
    · simp only [h, decide_false, Bool.false_eq_true, if_false, atMost_finite]; omega
  all_goals simp

/-- A distance is not tighter than another one if it has no bounds that the other has not. -/
theorem not_tighter_iff {d e : Distance} :
    d.tighter e = false ↔ ∀ x, d.AtMost x → e.AtMost x := by
  cases d <;> cases e <;> simp only [tighter]
  case finite.finite a b =>
    simpa using ⟨fun h x hx => le_trans h hx, fun h => h a le_rfl⟩
  case finite.unbounded a => simpa using ⟨a, le_rfl⟩
  all_goals simp

/-- The sum of two finite distances is cut off from below, and unbounded from the ceiling on. -/
theorem finite_add_finite (a b : Int) :
    (finite a + finite b : Distance) = ofInt (max (a + b) (-ceiling)) := rfl

/-- A sum is no tighter than its parts together, whether it is cut off or not. -/
theorem exists_of_atMost_add {d e : Distance} {z : Int} (h : (d + e).AtMost z) :
    ∃ x y, d.AtMost x ∧ e.AtMost y ∧ x + y ≤ z := by
  cases d with
  | unbounded => simp at h
  | finite a =>
    cases e with
    | unbounded => simp at h
    | finite b =>
      -- two finite distances are their own best bounds
      refine ⟨a, b, le_rfl, le_rfl, ?_⟩
      rw [finite_add_finite, ofInt] at h
      split at h
      · -- a sum beyond the range bounds nothing
        exact absurd h not_atMost_unbounded
      · simp only [atMost_finite] at h
        omega

/-- A sum inside the range of the clocks is as tight as its parts together. -/
theorem atMost_add {d e : Distance} {z : Int}
    (range : ∀ x y, d = .finite x → e = .finite y → -ceiling ≤ x + y ∧ x + y < ceiling) :
    (d + e).AtMost z ↔ ∃ x y, d.AtMost x ∧ e.AtMost y ∧ x + y ≤ z := by
  refine ⟨exists_of_atMost_add, ?_⟩
  rintro ⟨x, y, hx, hy, hxy⟩
  obtain ⟨a, rfl, ha⟩ := hx.exists_finite
  obtain ⟨b, rfl, hb⟩ := hy.exists_finite
  obtain ⟨lower, upper⟩ := range a b rfl rfl
  rw [add_finite lower upper, atMost_finite]
  omega

/-- The sum of two distances that are at most 0 is at most 0, also where it is cut off. -/
theorem AtMost.add_nonpos {d e : Distance} (hd : d.AtMost 0) (he : e.AtMost 0) :
    (d + e).AtMost 0 := by
  obtain ⟨a, rfl, ha⟩ := hd.exists_finite
  obtain ⟨b, rfl, hb⟩ := he.exists_finite
  have hmax : max (a + b) (-ceiling) ≤ 0 := by simp only [ceiling]; omega
  rw [finite_add_finite, ofInt, if_neg (by simp only [ceiling] at hmax ⊢; omega)]
  exact hmax

/-- A finite sum is inside the range of the clocks. A sum at or above the ceiling is unbounded, and
one below the range is cut off at its lower end. -/
theorem range_of_add_eq {d e : Distance} {z : Int} (h : d + e = .finite z) :
    -ceiling ≤ z ∧ z < ceiling := by
  cases d with
  | unbounded => simp at h
  | finite a =>
    cases e with
    | unbounded => simp at h
    | finite b =>
      rw [finite_add_finite, ofInt] at h
      -- a sum from the ceiling on is unbounded, and not finite
      split at h
      · exact absurd h (by simp)
      · obtain rfl := finite.inj h
        omega

/-- The distance that a number bounds is no tighter than the number. -/
theorem le_of_atMost_ofInt {d x : Int} (h : (ofInt d).AtMost x) : d ≤ x := by
  unfold ofInt at h
  split at h
  · exact absurd h not_atMost_unbounded
  · exact h

/-- A number below the ceiling is taken as it is. -/
theorem ofInt_eq_finite {d : Int} (h : d < ceiling) : ofInt d = .finite d :=
  if_neg (by omega)

end Distance

namespace Network

/-- Every row has one entry for each timepoint, and there is a first one. -/
structure Square (net : Network) : Prop where
  size_pos : 0 < net.size
  row_size : ∀ (i : Nat) (row : Array Distance), net.rows[i]? = some row → row.size = net.size

/-- Dates for which no distance is exceeded. -/
def Fits (net : Network) (date : Timepoint → Int) : Prop :=
  ∀ t u x, (net.distance t u).AtMost x → date u - date t ≤ x

/-- A network whose distances leave nothing to be tightened. -/
structure Closed (net : Network) : Prop where
  square : net.Square
  diagonal : ∀ t, net.contains t → net.distance t t = .finite 0
  triangle : ∀ t u v x y, (net.distance t u).AtMost x → (net.distance u v).AtMost y →
    (net.distance t v).AtMost (x + y)

variable {net : Network}

/-! ### Reading distances -/

/-- The timepoints of a network are numbered from 0. -/
theorem contains_iff {t : Timepoint} : net.contains t = true ↔ t.index < net.size :=
  decide_eq_true_iff

/-- Networks of the same size have the same timepoints. -/
theorem contains_congr {net' : Network} (h : net'.size = net.size) (t : Timepoint) :
    net'.contains t = net.contains t := by
  rw [contains, contains, h]

/-- The timepoints that are listed are those of the network. -/
theorem mem_timepoints {t : Timepoint} : t ∈ net.timepoints ↔ net.contains t := by
  rw [contains_iff, timepoints, List.mem_map]
  constructor
  · rintro ⟨i, hi, rfl⟩
    exact List.mem_range.mp hi
  · exact fun h => ⟨t.index, List.mem_range.mpr h, rfl⟩

/-- Nothing is known of the distance from a timepoint that the network does not have. -/
theorem distance_of_not_contains_left {t u : Timepoint} (h : ¬ net.contains t) :
    net.distance t u = .unbounded := by
  have hrow : net.rows[t.index]? = none := by
    rw [contains_iff, size] at h
    exact Array.getElem?_eq_none (by omega)
  simp [distance, hrow]

/-- Nothing is known of the distance to a timepoint that the network does not have. -/
theorem Square.distance_of_not_contains_right (sq : net.Square) {t u : Timepoint}
    (h : ¬ net.contains u) : net.distance t u = .unbounded := by
  rw [contains_iff] at h
  unfold distance
  split
  · next row hrow =>
    -- the row is too short, and an absent cell reads as unbounded
    have hsize := sq.row_size _ _ hrow
    rw [Array.getElem?_eq_none (by omega)]
    rfl
  · rfl

/-- Only timepoints of the network are bound to each other. -/
theorem Square.contains_of_atMost (sq : net.Square) {t u : Timepoint} {x : Int}
    (h : (net.distance t u).AtMost x) : net.contains t ∧ net.contains u := by
  by_contra hc
  rcases not_and_or.mp hc with ht | hu
  · rw [distance_of_not_contains_left ht] at h
    exact Distance.not_atMost_unbounded h
  · rw [sq.distance_of_not_contains_right hu] at h
    exact Distance.not_atMost_unbounded h

theorem Square.contains_origin (sq : net.Square) : net.contains .origin :=
  contains_iff.mpr sq.size_pos

/-! ### Setting one distance -/

@[simp] theorem size_setDistance (t u : Timepoint) (d : Distance) :
    (net.setDistance t u d).size = net.size := by simp [setDistance, size]

@[simp] theorem horizon_setDistance (t u : Timepoint) (d : Distance) :
    (net.setDistance t u d).horizon = net.horizon := rfl

/-- Writing a distance keeps the matrix square, also if one of the timepoints is missing, as then
nothing is written. -/
theorem Square.setDistance (sq : net.Square) (t u : Timepoint) (d : Distance) :
    (net.setDistance t u d).Square where
  size_pos := by simpa using sq.size_pos
  row_size := by
    intro i row h
    simp only [size_setDistance]
    simp only [Network.setDistance, Array.getElem?_modify] at h
    split at h
    · obtain ⟨old, hold, rfl⟩ := Option.map_eq_some_iff.mp h
      simpa using sq.row_size i old hold
    · exact sq.row_size i row h

theorem Square.distance_setDistance_self (sq : net.Square) {t u : Timepoint} (d : Distance)
    (ht : net.contains t) (hu : net.contains u) : (net.setDistance t u d).distance t u = d := by
  rw [contains_iff] at ht hu
  have hrow : net.rows[t.index]? = some net.rows[t.index] := Array.getElem?_eq_getElem ht
  have hsize := sq.row_size _ _ hrow
  simp only [distance, Network.setDistance, Array.getElem?_modify, if_pos, hrow, Option.map_some]
  rw [Array.getElem?_setIfInBounds_self_of_lt (by omega)]
  rfl

theorem distance_setDistance_of_ne {t u a b : Timepoint} (d : Distance)
    (h : ¬ (a = t ∧ b = u)) : (net.setDistance t u d).distance a b = net.distance a b := by
  simp only [distance, setDistance, Array.getElem?_modify]
  -- in another row nothing was written; in the same row it was another column
  by_cases ha : t.index = a.index
  · have hb : u.index ≠ b.index := by
      rintro hb
      exact h ⟨by cases a; cases t; simpa using ha.symm, by cases b; cases u; simpa using hb.symm⟩
    rw [if_pos ha]
    cases hrow : net.rows[a.index]? with
    | none => rfl
    | some row => simp [Array.getElem?_setIfInBounds_ne hb]
  · rw [if_neg ha]

/-! ### Room in the clocks -/

/-- Every finite distance is in the range of the clocks. -/
def Ranged (net : Network) : Prop :=
  ∀ t u x, net.distance t u = .finite x → -Distance.ceiling ≤ x ∧ x < Distance.ceiling

/-- No sum along an edge from `t` to `u` of length `w` leaves the range of the clocks. -/
def Roomy (net : Network) (t u : Timepoint) (w : Int) : Prop :=
  ∀ s v x, net.distance s t = .finite x →
    (-Distance.ceiling ≤ x + w ∧ x + w < Distance.ceiling) ∧
    ∀ y, net.distance u v = .finite y →
      -Distance.ceiling ≤ x + w + y ∧ x + w + y < Distance.ceiling

/-- Adding an edge from `t` to `u` of length `w` loses nothing: no sum along the edge leaves the
range of the clocks, except between timepoints that are as close already as the edge brings them. -/
def Lossless (net : Network) (t u : Timepoint) (w : Int) : Prop :=
  ∀ a b y z, net.distance a t = .finite y → net.distance u b = .finite z →
    (net.distance a b).AtMost (y + w + z) ∨
      (-Distance.ceiling ≤ y + w ∧ y + w < Distance.ceiling) ∧
        -Distance.ceiling ≤ y + w + z ∧ y + w + z < Distance.ceiling

/-- An edge along which all sums stay within the range of the clocks is added without loss. -/
theorem Roomy.lossless {t u : Timepoint} {w : Int} (room : net.Roomy t u w) : net.Lossless t u w :=
  fun a b y z hy hz => .inr ⟨(room a b y hy).1, (room a b y hy).2 z hz⟩

/-- Every finite distance is at most `k` away from 0. -/
def Within (net : Network) (k : Int) : Prop :=
  ∀ t u x, net.distance t u = .finite x → -k ≤ x ∧ x ≤ k

/-- A quarter of the range of the clocks: sums of three numbers of this size stay inside. -/
def quarter : Int := 2305843009213693952

/-- Three summands of a quarter of the range stay within it together: two distances of the network
and the edge between them. -/
theorem Within.roomy {k : Int} (h : net.Within k) (hk : k ≤ quarter) {t u : Timepoint} {w : Int}
    (hw : -quarter ≤ w ∧ w ≤ quarter) : net.Roomy t u w := by
  intro s v x hx
  have hxk := h s t x hx
  simp only [quarter, Distance.ceiling] at *
  refine ⟨by omega, fun y hy => ?_⟩
  have hyk := h u v y hy
  omega

end Network

namespace TrackedNetwork

variable {net : TrackedNetwork}

/-! ### Lowering distances one after the other -/

theorem value_lower (net : TrackedNetwork) (step : Tightening) :
    (net.lower step).value = net.value.setDistance step.first step.second step.value := rfl

/-- Steps of tightening are taken from the first one to the last. -/
theorem lowerAll_cons (net : TrackedNetwork) (step : Tightening) (steps : List Tightening) :
    net.lowerAll (step :: steps) = (net.lower step).lowerAll steps := rfl

@[simp] theorem size_lowerAll (net : TrackedNetwork) (steps : List Tightening) :
    (net.lowerAll steps).value.size = net.value.size := by
  induction steps generalizing net with
  | nil => rfl
  | cons step steps ih => rw [lowerAll_cons, ih, value_lower, Network.size_setDistance]

@[simp] theorem horizon_lowerAll (net : TrackedNetwork) (steps : List Tightening) :
    (net.lowerAll steps).value.horizon = net.value.horizon := by
  induction steps generalizing net with
  | nil => rfl
  | cons step steps ih => rw [lowerAll_cons, ih, value_lower, Network.horizon_setDistance]

theorem square_lowerAll (sq : net.value.Square) (steps : List Tightening) :
    (net.lowerAll steps).value.Square := by
  induction steps generalizing net with
  | nil => exact sq
  | cons step steps ih =>
    have hlower : (net.lower step).value.Square := sq.setDistance _ _ _
    exact ih hlower

/-- A pair that no step concerns keeps its distance. -/
theorem distance_lowerAll_of_forall_ne {steps : List Tightening} {a b : Timepoint}
    (h : ∀ s ∈ steps, ¬ (a = s.first ∧ b = s.second)) :
    (net.lowerAll steps).value.distance a b = net.value.distance a b := by
  induction steps generalizing net with
  | nil => rfl
  | cons step steps ih =>
    rw [lowerAll_cons, ih fun s hs => h s (List.mem_cons_of_mem step hs), value_lower]
    exact Network.distance_setDistance_of_ne _ (h step List.mem_cons_self)

/-- When the steps take their values from a table, a pair among them ends up with its entry. -/
theorem distance_lowerAll_of_mem (sq : net.value.Square) {steps : List Tightening}
    (table : Timepoint → Timepoint → Distance)
    (htable : ∀ s ∈ steps, s.value = table s.first s.second)
    (hcontains : ∀ s ∈ steps, net.value.contains s.first ∧ net.value.contains s.second)
    {step : Tightening} (hstep : step ∈ steps) :
    (net.lowerAll steps).value.distance step.first step.second = table step.first step.second := by
  -- the steps were computed from one table beforehand, so that a later step for the same pair
  -- writes the same entry
  induction steps generalizing net step with
  | nil => exact absurd hstep List.not_mem_nil
  | cons s steps ih =>
    rw [lowerAll_cons]
    have hs := hcontains s List.mem_cons_self
    -- the last step for the pair counts
    by_cases later : ∃ s' ∈ steps, step.first = s'.first ∧ step.second = s'.second
    · obtain ⟨s', hs', h₁, h₂⟩ := later
      have hlower : (net.lower s).value.Square := sq.setDistance _ _ _
      rw [h₁, h₂]
      refine ih hlower (fun r hr => htable r (List.mem_cons_of_mem s hr)) (fun r hr => ?_) hs'
      simpa [value_lower, Network.contains] using hcontains r (List.mem_cons_of_mem s hr)
    · have heq : step = s := by
        rcases List.mem_cons.mp hstep with h | h
        · exact h
        · exact absurd ⟨step, h, rfl, rfl⟩ later
      subst heq
      push Not at later
      rw [distance_lowerAll_of_forall_ne fun s' hs' h => later s' hs' h.1 h.2, value_lower,
        sq.distance_setDistance_self _ hs.1 hs.2]
      exact htable step hstep

/-! ### Adding an edge -/

/-- The distance from `a` to `b` through an edge from `t` to `u`. -/
def through (net : Network) (t u : Timepoint) (edge : Distance) (a b : Timepoint) : Distance :=
  net.distance a t + edge + net.distance u b

/-- The steps for one row: the distances that get shorter on the way through its pivot. -/
theorem mem_lowerings {net : Network} {a : Timepoint} {into : Distance}
    {row : Timepoint → Distance} {s : Tightening} :
    s ∈ net.lowerings a into row ↔ net.contains s.second ∧
      (into + row s.second).tighter (net.distance a s.second) = true ∧
      s = ⟨a, s.second, into + row s.second⟩ := by
  simp only [Network.lowerings, List.mem_filterMap, Network.mem_timepoints]
  constructor
  · rintro ⟨b, hb, h⟩
    split at h
    · next ht =>
      obtain rfl := Option.some.inj h
      exact ⟨hb, ht, rfl⟩
    · exact absurd h (by simp)
  · rintro ⟨hb, ht, hs⟩
    refine ⟨s.second, hb, ?_⟩
    rw [if_pos ht, ← hs]

/-- The steps of an edge that is tighter than the known distance: the pairs that get closer. The
matrix is read before any of the steps is taken, which makes the result independent of the order in
which the pairs are visited. -/
theorem mem_tightenings {net : Network} {t u : Timepoint} {edge : Distance}
    (hedge : edge.tighter (net.distance t u) = true) {s : Tightening} :
    s ∈ net.tightenings t u edge ↔ net.contains s.first ∧ net.contains s.second ∧
      (through net t u edge s.first s.second).tighter (net.distance s.first s.second) = true ∧
      s.value = through net t u edge s.first s.second := by
  rw [Network.tightenings, if_pos hedge]
  simp only [List.mem_flatMap, Network.mem_timepoints]
  -- a step belongs to the row of its first timepoint
  constructor
  · rintro ⟨a, ha, h⟩
    split at h
    · exact absurd h List.not_mem_nil
    · obtain ⟨hb, ht, hs⟩ := mem_lowerings.mp h
      have hfirst : s.first = a := by rw [hs]
      subst hfirst
      exact ⟨ha, hb, ht, by rw [hs]; rfl⟩
  · rintro ⟨ha, hb, ht, hv⟩
    refine ⟨s.first, ha, ?_⟩
    -- nothing gets closer to a timepoint that is out of reach
    split
    · next hinto =>
      rw [through, hinto, Distance.unbounded_add, Distance.unbounded_add] at ht
      exact absurd ht (by simp [Distance.tighter])
    · refine mem_lowerings.mpr ⟨hb, ht, ?_⟩
      cases s
      simp only [Tightening.mk.injEq, true_and]
      exact hv

/-- An edge lowers each distance to that through the edge where this is tighter. All lowerings are
computed from the old matrix and then written one by one, and no two of them write the same cell. -/
theorem distance_addEdge (sq : net.value.Square) {t u : Timepoint} {edge : Distance}
    (hedge : edge.tighter (net.value.distance t u) = true) {a b : Timepoint}
    (ha : net.value.contains a) (hb : net.value.contains b) :
    (net.addEdge t u edge).value.distance a b =
      if (through net.value t u edge a b).tighter (net.value.distance a b) then
        through net.value t u edge a b
      else net.value.distance a b := by
  have hmem := fun s : Tightening => mem_tightenings hedge (s := s)
  -- the listed tightenings are just the pairs for which the way through the edge is tighter
  unfold addEdge
  split
  · next ht =>
    exact distance_lowerAll_of_mem sq (through net.value t u edge)
      (fun s hs => ((hmem s).mp hs).2.2.2)
      (fun s hs => ⟨((hmem s).mp hs).1, ((hmem s).mp hs).2.1⟩)
      ((hmem ⟨a, b, through net.value t u edge a b⟩).mpr ⟨ha, hb, ht, rfl⟩)
  · next ht =>
    -- a pair that is not listed keeps its distance
    refine distance_lowerAll_of_forall_ne fun s hs h => ?_
    obtain ⟨rfl, rfl⟩ := h
    exact ht ((hmem s).mp hs).2.2.1

@[simp] theorem size_addEdge (net : TrackedNetwork) (t u : Timepoint) (edge : Distance) :
    (net.addEdge t u edge).value.size = net.value.size := size_lowerAll _ _

@[simp] theorem horizon_addEdge (net : TrackedNetwork) (t u : Timepoint) (edge : Distance) :
    (net.addEdge t u edge).value.horizon = net.value.horizon := horizon_lowerAll _ _

@[simp] theorem size_enforce (net : TrackedNetwork) (c : Constraint) :
    (net.enforce c).value.size = net.value.size := by
  unfold enforce
  split <;> simp

@[simp] theorem horizon_enforce (net : TrackedNetwork) (c : Constraint) :
    (net.enforce c).value.horizon = net.value.horizon := by
  unfold enforce
  split <;> simp

/-- Networks with one horizon give one window to a timepoint. -/
theorem window_congr {net net' : Network} (h : net'.horizon = net.horizon) :
    window net' = window net := by
  funext t
  simp only [window, h]

/-- An edge brings a pair no closer than it is through the edge. -/
theorem exists_of_atMost_through {net : Network} {t u a b : Timepoint} {edge : Distance} {x : Int}
    (h : (through net t u edge a b).AtMost x) :
    ∃ y w z, (net.distance a t).AtMost y ∧ edge.AtMost w ∧ (net.distance u b).AtMost z ∧
      y + w + z ≤ x := by
  obtain ⟨v, z, hv, hz, hvz⟩ := Distance.exists_of_atMost_add h
  obtain ⟨y, w, hy, hw, hyw⟩ := Distance.exists_of_atMost_add hv
  exact ⟨y, w, z, hy, hw, hz, by omega⟩

/-- Whatever is cut off, an edge leaves each distance as it was or puts the sum along the edge in
its place. -/
theorem distance_addEdge_or (sq : net.value.Square) (t u : Timepoint) (edge : Distance)
    (a b : Timepoint) :
    (net.addEdge t u edge).value.distance a b = net.value.distance a b ∨
      (net.addEdge t u edge).value.distance a b = through net.value t u edge a b := by
  by_cases hedge : edge.tighter (net.value.distance t u) = true
  · by_cases contained : net.value.contains a ∧ net.value.contains b
    · rw [distance_addEdge sq hedge contained.1 contained.2]
      split
      · exact .inr rfl
      · exact .inl rfl
    · -- distances to timepoints outside are not touched
      refine .inl (distance_lowerAll_of_forall_ne fun s hs h => contained ?_)
      obtain ⟨hfirst, hsecond, -⟩ := (mem_tightenings hedge).mp hs
      rw [h.1, h.2]
      exact ⟨hfirst, hsecond⟩
  · -- an edge that is not tighter than what is known tightens nothing
    left
    simp [addEdge, Network.tightenings, hedge, lowerAll]

/-- No distance gets longer when an edge is added. -/
theorem atMost_addEdge_of_atMost (sq : net.value.Square) {t u a b : Timepoint} {edge : Distance}
    {x : Int} (h : (net.value.distance a b).AtMost x) :
    ((net.addEdge t u edge).value.distance a b).AtMost x := by
  by_cases hedge : edge.tighter (net.value.distance t u) = true
  · obtain ⟨ha, hb⟩ := sq.contains_of_atMost h
    rw [distance_addEdge sq hedge ha hb, Distance.atMost_ite_tighter]
    exact .inr h
  · simpa [addEdge, Network.tightenings, hedge, lowerAll] using h

/-- An edge that brings its ends closer brings every pair as close as it is through the edge, if
the sum along it is not cut off. -/
theorem atMost_addEdge_of_range (sq : net.value.Square) {t u a b : Timepoint} {y w z : Int}
    (hedge : (Distance.ofInt w).tighter (net.value.distance t u) = true)
    (hy : net.value.distance a t = .finite y) (hz : net.value.distance u b = .finite z)
    (first : -Distance.ceiling ≤ y + w ∧ y + w < Distance.ceiling)
    (second : -Distance.ceiling ≤ y + w + z ∧ y + w + z < Distance.ceiling) :
    ((net.addEdge t u (.ofInt w)).value.distance a b).AtMost (y + w + z) := by
  have hay : (net.value.distance a t).AtMost y := by simp [hy]
  have hub : (net.value.distance u b).AtMost z := by simp [hz]
  -- an edge that is cut off would be unbounded, and not tighter than anything
  have hw : Distance.ofInt w = .finite w := by
    unfold Distance.ofInt at hedge ⊢
    split at hedge
    · exact absurd hedge (by simp [Distance.tighter])
    · next hlt => exact if_neg hlt
  -- the way through the edge is one of the two that the distance is chosen from
  rw [distance_addEdge sq hedge (sq.contains_of_atMost hay).1 (sq.contains_of_atMost hub).2,
    Distance.atMost_ite_tighter, through, hy, hw, hz,
    Distance.add_finite first.1 first.2, Distance.add_finite second.1 second.2]
  exact .inl le_rfl

/-- In a closed network an edge makes a pair as close as it was, or as close as it is through the
edge. -/
theorem atMost_addEdge (closed : net.value.Closed) {t u : Timepoint} {w : Int}
    (lossless : net.value.Lossless t u w) {a b : Timepoint} {x : Int} :
    ((net.addEdge t u (.ofInt w)).value.distance a b).AtMost x ↔
      (net.value.distance a b).AtMost x ∨ ∃ y z, (net.value.distance a t).AtMost y ∧
        (net.value.distance u b).AtMost z ∧ y + w + z ≤ x := by
  constructor
  · intro h
    rcases distance_addEdge_or closed.square t u (.ofInt w) a b with heq | heq
    · exact .inl (heq ▸ h)
    · obtain ⟨y, v, z, hy, hv, hz, hle⟩ := exists_of_atMost_through (heq ▸ h)
      have := Distance.le_of_atMost_ofInt hv
      exact .inr ⟨y, z, hy, hz, by omega⟩
  · -- from the right: no distance grows, and a way through the edge is either no shorter or not cut
    -- off
    rintro (h | ⟨y, z, hy, hz, hle⟩)
    · exact atMost_addEdge_of_atMost closed.square h
    · obtain ⟨y', hy', hyy⟩ := hy.exists_finite
      obtain ⟨z', hz', hzz⟩ := hz.exists_finite
      refine Distance.AtMost.mono (x := y' + w + z') ?_ (by omega)
      rcases lossless a b y' z' hy' hz' with hknown | ⟨first, second⟩
      · exact atMost_addEdge_of_atMost closed.square hknown
      · by_cases hedge : (Distance.ofInt w).tighter (net.value.distance t u) = true
        · exact atMost_addEdge_of_range closed.square hedge hy' hz' first second
        · -- an edge that is not tighter than the distance of its ends opens no shorter way
          refine atMost_addEdge_of_atMost closed.square ?_
          have htu : (net.value.distance t u).AtMost w := by
            have ht := (closed.square.contains_of_atMost hy).2
            have hu := (closed.square.contains_of_atMost hz).1
            rcases lossless t u 0 0 (closed.diagonal t ht) (closed.diagonal u hu) with h | h
            · simpa using h
            · have hfinite := Distance.ofInt_eq_finite (d := w) (by omega)
              rw [hfinite, Bool.not_eq_true] at hedge
              exact Distance.not_tighter_iff.mp hedge w le_rfl
          have hau := closed.triangle _ _ _ _ _ (show (net.value.distance a t).AtMost y' by
            simp [hy']) htu
          exact closed.triangle _ _ _ _ _ hau (by simp [hz'])

end TrackedNetwork

namespace Network

variable {net : TrackedNetwork}

/-- Whatever is cut off, distances stay in the range of the clocks. -/
theorem Ranged.addEdge (sq : net.value.Square) (h : net.value.Ranged) (t u : Timepoint)
    (edge : Distance) : (net.addEdge t u edge).value.Ranged := by
  intro a b x hx
  rcases TrackedNetwork.distance_addEdge_or sq t u edge a b with heq | heq
  · exact h a b x (heq ▸ hx)
  · exact Distance.range_of_add_eq (heq ▸ hx)

/-- Whatever is cut off, dates that fit a network and respect an edge fit the network with the
edge. -/
theorem Fits.addEdge {date : Timepoint → Int} (h : net.value.Fits date) (sq : net.value.Square)
    {t u : Timepoint} {w : Int} (hw : date u - date t ≤ w) :
    (net.addEdge t u (.ofInt w)).value.Fits date := by
  intro a b x hx
  rcases TrackedNetwork.distance_addEdge_or sq t u (.ofInt w) a b with heq | heq
  · exact h a b x (heq ▸ hx)
  · -- a lowered cell is a path over the new edge, and `date` obeys each of its three parts
    obtain ⟨y, v, z, hy, hv, hz, hle⟩ := TrackedNetwork.exists_of_atMost_through (heq ▸ hx)
    have h₁ := h _ _ _ hy
    have h₂ := h _ _ _ hz
    have := Distance.le_of_atMost_ofInt hv
    omega

/-- **Adding an edge that does not contradict the network keeps it closed.** The hypothesis `back`
says that the way back is no shorter than `-w`, so that no cycle through the edge is negative. -/
theorem Closed.addEdge (closed : net.value.Closed) {t u : Timepoint} {w : Int}
    (lossless : net.value.Lossless t u w) (back : (net.value.distance u t).allows (-w)) :
    (net.addEdge t u (.ofInt w)).value.Closed where
  square := TrackedNetwork.square_lowerAll closed.square _
  diagonal := by
    intro a ha
    have ha' : net.value.contains a := by simpa [contains_iff] using ha
    have hback := Distance.allows_iff.mp back
    refine Distance.ext_atMost fun x => ?_
    rw [TrackedNetwork.atMost_addEdge closed lossless, closed.diagonal a ha']
    refine ⟨fun h => h.elim id ?_, Or.inl⟩
    -- a cycle through the edge is no shorter than 0, by the way back
    rintro ⟨y, z, hy, hz, hyz⟩
    have := hback _ (closed.triangle _ _ _ _ _ hz hy)
    simp only [Distance.atMost_finite]
    omega
  triangle := by
    intro a b c x y hab hbc
    have hback := Distance.allows_iff.mp back
    rw [TrackedNetwork.atMost_addEdge closed lossless] at hab hbc ⊢
    rcases hab with hab | ⟨p, q, hp, hq, hpq⟩ <;> rcases hbc with hbc | ⟨r, s, hr, hs, hrs⟩
    · exact Or.inl (closed.triangle _ _ _ _ _ hab hbc)
    · exact Or.inr ⟨x + r, s, closed.triangle _ _ _ _ _ hab hr, hs, by omega⟩
    · exact Or.inr ⟨p, q + y, hp, closed.triangle _ _ _ _ _ hq hbc, by omega⟩
    · -- going through the edge twice closes a cycle, which is not negative
      have := hback _ (closed.triangle _ _ _ _ _ hq hr)
      exact Or.inr ⟨p, s, hp, hs, by omega⟩

/-- Dates fit a network with one more edge if they fit the network and the edge. -/
theorem Closed.fits_addEdge_iff (closed : net.value.Closed) {t u : Timepoint} {w : Int}
    (lossless : net.value.Lossless t u w) (ht : net.value.contains t) (hu : net.value.contains u)
    {date : Timepoint → Int} :
    (net.addEdge t u (.ofInt w)).value.Fits date ↔
      net.value.Fits date ∧ date u - date t ≤ w := by
  refine ⟨fun h => ⟨fun a b x hx => ?_, ?_⟩, fun h => h.1.addEdge closed.square h.2⟩
  · exact h a b x (TrackedNetwork.atMost_addEdge_of_atMost closed.square hx)
  · have hedge := TrackedNetwork.atMost_addEdge closed lossless (a := t) (b := u) (x := w)
    refine h t u w (hedge.mpr (.inr ⟨0, 0, ?_, ?_, by omega⟩))
    · simp [closed.diagonal t ht]
    · simp [closed.diagonal u hu]

end Network

end TemporalPlanning
