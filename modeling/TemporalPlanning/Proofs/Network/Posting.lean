import Mathlib.Tactic.Linarith
import TemporalPlanning.Proofs.Network.Solutions

/-!
# Posting constraints

Posting a constraint that is admitted, or creating a timepoint, leads from the minimal network of
some constraints to that of one constraint more (`Network.Represents.enforce`,
`Network.Represents.addTimepoint`), and computing all distances anew changes nothing
(`Network.Represents.propagate`).

All of this needs finite distances to stay away from the ends of the clocks
(`Network.Represents.within`). Without a horizon the reason is a counting argument: when two of `n`
timepoints are more than `n * b` apart, some stretch of length `b` between them is free of
timepoints (`exists_free_stretch`), no constraint with bounds up to `b` reaches across it, and what
lies above it can be moved. With a horizon the windows of the timepoints say it at once.
-/

namespace TemporalPlanning

/-! ### Moving what lies above a free stretch -/

/-- Far below a timepoint there is a stretch without timepoints. Of the stretches of length `b`
there are as many below it as there are timepoints, and as it lies in none of them itself, one is
left empty. -/
theorem Network.exists_free_stretch {net : Network} {date : Timepoint → Int} {a b : Int}
    (hb : 0 ≤ b) {u : Timepoint} (hu : net.contains u) (far : net.size * b < date u - a) :
    ∃ k, a ≤ k ∧ k + b < date u ∧ ∀ v, net.contains v → ¬ (k < date v ∧ date v ≤ k + b) := by
  by_contra hnone
  push Not at hnone
  -- otherwise each of `net.size` stretches holds a timepoint, and none of them is `u`
  have below : ∀ m : Fin net.size, ((m : Nat) : Int) * b + b ≤ net.size * b := by
    intro m
    have : ((m : Nat) : Int) + 1 ≤ net.size := by exact_mod_cast m.isLt
    nlinarith
  have stretch : ∀ m : Fin net.size, ∃ v : Fin net.size,
      a + m * b < date ⟨v⟩ ∧ date ⟨v⟩ ≤ a + m * b + b := by
    intro m
    have hm := below m
    obtain ⟨v, hv, hlo, hhi⟩ := hnone (a + m * b) (by nlinarith [m.val.zero_le]) (by omega)
    exact ⟨⟨v.index, contains_iff.mp hv⟩, hlo, hhi⟩
  -- different stretches hold different timepoints, so that all timepoints are used up
  choose point hlo hhi using stretch
  have inj : Function.Injective point := by
    intro m m' h
    have apart : ∀ i j : Fin net.size, point i = point j → ¬ i < j := by
      intro i j hij hlt
      have h₁ := hhi i
      have h₂ := hlo j
      rw [hij] at h₁
      have : ((i : Nat) : Int) + 1 ≤ (j : Nat) := by exact_mod_cast hlt
      nlinarith
    exact le_antisymm (not_lt.mp (apart m' m h.symm)) (not_lt.mp (apart m m' h))
  -- then also `u` lies in one of the stretches, but it lies above all of them
  obtain ⟨m, hm⟩ := (Finite.injective_iff_surjective.mp inj) ⟨u.index, contains_iff.mp hu⟩
  have hself : date u ≤ a + m * b + b := by simpa only [hm] using hhi m
  have := below m
  omega

/-- What lies above a date is moved. -/
def moveAbove (k δ : Int) (date : Timepoint → Int) (t : Timepoint) : Int :=
  if k < date t then date t + δ else date t

/-- A constraint with bounds up to `b` does not reach across a free stretch of length `b`. Dates
above the stretch are moved together and dates below stay, so that only a constraint from one side
to the other could notice, and those have room for one step. -/
theorem Constraint.Holds.moveAbove {c : Constraint} {date : Timepoint → Int} {b k δ : Int}
    (h : c.Holds date) (hc : c.Within b) (hδ : -1 ≤ δ)
    (hfirst : ¬ (k < date c.first ∧ date c.first ≤ k + b))
    (hsecond : ¬ (k < date c.second ∧ date c.second ≤ k + b)) :
    c.Holds (moveAbove k δ date) := by
  obtain ⟨hlo, hhi⟩ := h
  obtain ⟨⟨hb₁, hb₂⟩, hb₃⟩ := hc
  unfold TemporalPlanning.moveAbove
  constructor
  · -- neither end is in the stretch: both are moved, or none, or the constraint gets longer by `δ`
    -- at most
    dsimp only
    split <;> split <;> omega
  · intro hi hc
    have h₁ := hhi hi hc
    have h₂ := hb₃ hi hc
    dsimp only
    split <;> split <;> omega

namespace Network

variable {net : Network} {cs : List Constraint}

/-! ### Finite distances are small -/

/-- Without the windows of a horizon: the distances are limited by the bounds of the constraints and
the number of timepoints. -/
theorem Represents.within_of_constraints (h : net.Represents cs) {b : Int} (hb : 0 ≤ b)
    (hcs : ∀ c ∈ cs, c.Within b) : net.Within (net.size * b) := by
  intro t u x hx
  have hux : (net.distance t u).AtMost x := by simp [hx]
  obtain ⟨ht, hu⟩ := h.closed.square.contains_of_atMost hux
  obtain ⟨date, hdate, hd⟩ := h.closed.exists_fits_eq h.solvable hx
  -- if it were larger, moving what lies above a free stretch would give a larger difference
  have moved : ∀ k δ, -1 ≤ δ → (∀ v, net.contains v → ¬ (k < date v ∧ date v ≤ k + b)) →
      net.Fits (moveAbove k δ date) := by
    intro k δ hδ hfree
    refine (h.fits_iff _).mpr fun c hc => ?_
    exact ((h.fits_iff date).mp hdate c hc).moveAbove (hcs c hc) hδ
      (hfree _ (h.contains c hc).1) (hfree _ (h.contains c hc).2)
  constructor
  · -- the difference is too small: then the upper timepoint is `t`, and it is moved down
    by_contra hlt
    have far : net.size * b < date t - date u := by omega
    obtain ⟨k, hk, hku, hfree⟩ := exists_free_stretch hb ht far
    have := moved k (-1) (by omega) hfree t u x hux
    simp only [moveAbove] at this
    split at this <;> split at this <;> omega
  · -- the difference is too large: then what lies above the stretch is moved up
    by_contra hlt
    have far : net.size * b < date u - date t := by omega
    obtain ⟨k, hk, hku, hfree⟩ := exists_free_stretch hb hu far
    have := moved k 1 (by omega) hfree t u x hux
    simp only [moveAbove] at this
    split at this <;> split at this <;> omega

/-- The window of a timepoint in a network with horizon `h`. -/
def windowUpTo (h : Int) (t : Timepoint) : Constraint := ⟨.origin, t, 0, some h⟩

/-- With a horizon: the distances are limited by the windows. Any two dates lie in the window of the
horizon, so that no finite distance can exceed it without being attained by some solution that
leaves the window. -/
theorem Represents.within_of_windows (hrep : net.Represents cs) {h : Int}
    (hcs : ∀ t, net.contains t → windowUpTo h t ∈ cs) : net.Within h := by
  have horigin := hrep.closed.square.contains_origin
  have lower : ∀ t, net.contains t → (net.distance t .origin).AtMost 0 := by
    refine fun t ht => hrep.closed.atMost_origin hrep.solvable ht fun date hdate => ?_
    have := ((hrep.fits_iff date).mp hdate _ (hcs t ht)).1
    simp only [windowUpTo] at this
    omega
  have upper : ∀ t, net.contains t → (net.distance .origin t).AtMost h := by
    intro t ht
    rw [hrep.closed.atMost_iff hrep.solvable horigin ht]
    intro date hdate
    exact ((hrep.fits_iff date).mp hdate _ (hcs t ht)).2 h rfl
  -- any way leads through the origin
  have distance_le : ∀ t u, net.contains t → net.contains u → (net.distance t u).AtMost h := by
    intro t u ht hu
    simpa using hrep.closed.triangle _ _ _ _ _ (lower t ht) (upper u hu)
  -- the bound from below follows from that on the way back, as no cycle is negative
  intro t u x hx
  have htu : (net.distance t u).AtMost x := by simp [hx]
  obtain ⟨ht, hu⟩ := hrep.closed.square.contains_of_atMost htu
  constructor
  · have := hrep.closed.triangle _ _ _ _ _ htu (distance_le u t hu ht)
    rw [hrep.closed.diagonal t ht, Distance.atMost_finite] at this
    omega
  · simpa [hx] using distance_le t u ht hu

/-- With a horizon an edge that some solution respects loses nothing, however long it is: where the
sum along it leaves the range of the clocks, the windows bring the timepoints as close. -/
theorem Represents.lossless_of_windows (hrep : net.Represents cs) {h : Int}
    (hh : h < Distance.ceiling) (hcs : ∀ t, net.contains t → windowUpTo h t ∈ cs) {t u : Timepoint}
    {w : Int} (hu : net.contains u) (feasible : ∃ date, net.Fits date ∧ date u - date t ≤ w) :
    net.Lossless t u w := by
  intro a b y z hy hz
  obtain ⟨date, hdate, hw⟩ := feasible
  have hay : (net.distance a t).AtMost y := by simp [hy]
  have hub : (net.distance u b).AtMost z := by simp [hz]
  have ha := (hrep.closed.square.contains_of_atMost hay).1
  have hb := (hrep.closed.square.contains_of_atMost hub).2
  -- every timepoint stays within the horizon
  have window : ∀ v, net.contains v → ∀ date, net.Fits date →
      date .origin ≤ date v ∧ date v ≤ date .origin + h := by
    intro v hv date hdate
    obtain ⟨hlo, hhi⟩ := (hrep.fits_iff date).mp hdate _ (hcs v hv)
    have := hhi h rfl
    simp only [windowUpTo] at hlo this
    omega
  -- and so two timepoints differ by the horizon at most
  have near : ∀ v v', net.contains v → net.contains v' → (net.distance v v').AtMost h := by
    intro v v' hv hv'
    refine (hrep.closed.atMost_iff hrep.solvable hv hv').mpr fun date hdate => ?_
    have := window v hv date hdate
    have := window v' hv' date hdate
    omega
  -- from below the sums are limited by the differences of the solution
  have h₁ := hdate _ _ _ hay
  have h₂ := hdate _ _ _ hub
  have := window a ha date hdate
  have := window b hb date hdate
  have := window u hu date hdate
  -- where a sum leaves the range, the windows give a shorter way
  by_cases hfirst : y + w < Distance.ceiling
  · by_cases hsecond : y + w + z < Distance.ceiling
    · exact .inr (by omega)
    · exact .inl ((near a b ha hb).mono (by omega))
  · exact .inl ((hrep.closed.triangle _ _ _ _ _ (near a u ha hu) hub).mono (by omega))

/-- The constraints `cs` keep the distances of `net` away from the ends of the clocks: there are few
timepoints for their bounds, which go up to `b`, or every timepoint has a window of limited
length. -/
def Scaled (net : Network) (cs : List Constraint) (b : Int) : Prop :=
  (0 ≤ b ∧ b ≤ quarter) ∧ ((net.size * b ≤ quarter ∧ ∀ c ∈ cs, c.Within b) ∨
    ∃ h ≤ quarter, ∀ t, net.contains t → windowUpTo h t ∈ cs)

theorem Within.mono {k k' : Int} (h : net.Within k) (hk : k ≤ k') : net.Within k' := by
  intro t u x hx
  have := h t u x hx
  omega

/-- The scale of the constraints and the number of timepoints keep all distances within a quarter of
the range. -/
theorem Represents.within (h : net.Represents cs) {b : Int} (hs : net.Scaled cs b) :
    net.Within quarter := by
  obtain ⟨⟨hb, -⟩, ⟨hn, hcs⟩ | ⟨k, hk, hcs⟩⟩ := hs
  · exact (h.within_of_constraints hb hcs).mono hn
  · exact (h.within_of_windows hcs).mono hk

/-! ### One edge, one constraint -/

variable {net : TrackedNetwork}

@[simp] theorem contains_addEdge {t u v : Timepoint} {d : Distance} :
    (net.addEdge t u d).value.contains v = net.value.contains v := by
  simp [contains]

/-- One more constraint within the bound is as well scaled. -/
theorem Scaled.cons {net net' : Network} {b : Int} (h : net.Scaled cs b)
    (hsize : net'.size = net.size) {c : Constraint} (hc : c.Within b) :
    net'.Scaled (c :: cs) b := by
  refine ⟨h.1, h.2.imp (fun hn => ?_) fun ⟨k, hk, hcs⟩ => ?_⟩
  · rw [hsize]
    exact ⟨hn.1, List.forall_mem_cons.mpr ⟨hc, hn.2⟩⟩
  · refine ⟨k, hk, fun t ht => List.mem_cons_of_mem _ (hcs t ?_)⟩
    simpa [contains, hsize] using ht

/-- An edge that some solution respects leads to the minimal network with that edge. The hypothesis
that nothing is lost says that no sum on the way reaches the ceiling; without it the new matrix
would only be an upper bound. -/
theorem Represents.addEdge (h : net.value.Represents cs) {t u : Timepoint} {w : Int}
    (lossless : net.value.Lossless t u w) (ht : net.value.contains t) (hu : net.value.contains u)
    (feasible : ∃ date, net.value.Fits date ∧ date u - date t ≤ w) :
    (net.addEdge t u (.ofInt w)).value.Represents (.edge t u w :: cs) where
  closed := by
    -- the dates that respect the edge show that the way back is long enough
    obtain ⟨date, hdate, hw⟩ := feasible
    refine h.closed.addEdge lossless (Distance.allows_iff.mpr fun y hy => ?_)
    have := hdate _ _ _ hy
    omega
  solvable := by
    obtain ⟨date, hdate⟩ := feasible
    exact ⟨date, (h.closed.fits_addEdge_iff lossless ht hu).mpr hdate⟩
  -- the dates that fit are those that respect the new edge, too
  fits_iff date := by
    rw [h.closed.fits_addEdge_iff lossless ht hu, h.fits_iff, List.forall_mem_cons,
      Constraint.holds_edge, and_comm]
  contains := by
    simp only [contains_addEdge]
    exact List.forall_mem_cons.mpr ⟨⟨hu, ht⟩, h.contains⟩

end Network

/-- The upper bound of a constraint, as a constraint of its own. -/
def Constraint.upper (c : Constraint) : List Constraint :=
  c.hi.toList.map (edge c.first c.second)

/-- The upper bound of a constraint is an edge forth, if there is an upper bound. -/
theorem Constraint.holds_upper {c : Constraint} {date : Timepoint → Int} :
    (∀ c' ∈ c.upper, c'.Holds date) ↔
      ∀ hi, c.hi = some hi → date c.second - date c.first ≤ hi := by
  simp [upper]

/-- A network with the upper bound of a constraint. -/
def TrackedNetwork.bound (net : TrackedNetwork) (c : Constraint) : TrackedNetwork :=
  match c.hi with
  | some hi => net.addEdge c.first c.second (.ofInt hi)
  | none => net

/-- A constraint is enforced by its upper bound first and then by an edge back for its lower bound.
-/
theorem TrackedNetwork.enforce_eq (net : TrackedNetwork) (c : Constraint) :
    net.enforce c = (net.bound c).addEdge c.second c.first (.ofInt (-c.lo)) := rfl

/-- Posting a constraint loses nothing: adding its upper bound does not, nor adding its lower bound
after that. -/
def Constraint.LosslessIn (c : Constraint) (net : TrackedNetwork) : Prop :=
  (∀ hi, c.hi = some hi → net.value.Lossless c.first c.second hi) ∧
    (net.bound c).value.Lossless c.second c.first (-c.lo)

namespace Network

variable {cs : List Constraint} {net : TrackedNetwork}

@[simp] theorem size_bound (c : Constraint) : (net.bound c).value.size = net.value.size := by
  unfold TrackedNetwork.bound
  split <;> simp

@[simp] theorem contains_bound {c : Constraint} {t : Timepoint} :
    (net.bound c).value.contains t = net.value.contains t := by
  simp [contains]

@[simp] theorem contains_enforce {c : Constraint} {t : Timepoint} :
    (net.enforce c).value.contains t = net.value.contains t := by
  simp [contains]

theorem Square.bound (sq : net.value.Square) (c : Constraint) : (net.bound c).value.Square := by
  unfold TrackedNetwork.bound
  split
  · exact TrackedNetwork.square_lowerAll sq _
  · exact sq

theorem Square.enforce (sq : net.value.Square) (c : Constraint) : (net.enforce c).value.Square :=
  TrackedNetwork.square_lowerAll (sq.bound c) _

/-- An upper bound that some solution obeys leads to the minimal network with that bound, if it is
added without loss. -/
theorem Represents.bound (h : net.value.Represents cs) {c : Constraint}
    (hfirst : net.value.contains c.first) (hsecond : net.value.contains c.second)
    (feasible : ∃ date, net.value.Fits date ∧ c.Holds date)
    (lossless : ∀ hi, c.hi = some hi → net.value.Lossless c.first c.second hi) :
    (net.bound c).value.Represents (c.upper ++ cs) := by
  obtain ⟨date, hdate, -, hhi⟩ := feasible
  unfold TrackedNetwork.bound Constraint.upper
  cases hcase : c.hi with
  | none => exact h
  | some hi => exact h.addEdge (lossless hi hcase) hfirst hsecond ⟨date, hdate, hhi hi hcase⟩

/-- An upper bound that is not negative opens ways to its second timepoint through its first one
only. -/
theorem Closed.atMost_bound (closed : net.value.Closed) {c : Constraint}
    (nonneg : ∀ hi, c.hi = some hi → 0 ≤ hi)
    (lossless : ∀ hi, c.hi = some hi → net.value.Lossless c.first c.second hi) {a : Timepoint}
    {y : Int} (h : ((net.bound c).value.distance a c.second).AtMost y) :
    (net.value.distance a c.second).AtMost y ∨
      ((net.bound c).value.distance a c.first).AtMost y := by
  unfold TrackedNetwork.bound at h ⊢
  cases hcase : c.hi with
  | none =>
    rw [hcase] at h
    exact .inl h
  | some hi =>
    rw [hcase] at h
    refine ((TrackedNetwork.atMost_addEdge closed (lossless hi hcase)).mp h).imp_right ?_
    -- the way through the edge reaches the second timepoint with something to spare
    rintro ⟨p, q, hp, hq, hle⟩
    have hq₀ : 0 ≤ q := by
      rwa [closed.diagonal _ (closed.square.contains_of_atMost hq).1] at hq
    -- the upper bound is not negative, and so the way loses nothing without it
    have := nonneg hi hcase
    exact TrackedNetwork.atMost_addEdge_of_atMost closed.square (hp.mono (by omega))

/-- A constraint that some solution obeys leads to the minimal network with that constraint, if its
upper bound is added without loss, and then its lower bound is. -/
theorem Represents.enforce_of_lossless (h : net.value.Represents cs) {c : Constraint}
    (hfirst : net.value.contains c.first) (hsecond : net.value.contains c.second)
    (feasible : ∃ date, net.value.Fits date ∧ c.Holds date)
    (upper : ∀ hi, c.hi = some hi → net.value.Lossless c.first c.second hi)
    (lower : (net.bound c).value.Represents (c.upper ++ cs) →
      (net.bound c).value.Lossless c.second c.first (-c.lo)) :
    (net.enforce c).value.Represents (c :: cs) ∧ (net.enforce c).value.size = net.value.size := by
  have hrep := h.bound hfirst hsecond feasible upper
  obtain ⟨date, hdate, hlo, hhi⟩ := feasible
  have hdate' : (net.bound c).value.Fits date := by
    rw [hrep.fits_iff, List.forall_mem_append, Constraint.holds_upper, ← h.fits_iff]
    exact ⟨hhi, hdate⟩
  -- a constraint is an edge forth for its upper bound, if any, and one back for its lower bound
  have hrep' := hrep.addEdge (w := -c.lo) (lower hrep) (by simpa using hsecond)
    (by simpa using hfirst) ⟨date, hdate', by omega⟩
  rw [← TrackedNetwork.enforce_eq] at hrep'
  -- the two edges together say what the constraint says
  refine ⟨hrep'.congr (fun date => ?_) ?_, TrackedNetwork.size_enforce _ _⟩
  · rw [List.forall_mem_cons, List.forall_mem_append, List.forall_mem_cons, Constraint.holds_upper,
      Constraint.holds_edge, ← and_assoc]
    refine and_congr_left' (and_congr_left' ?_)
    omega
  · simp only [contains_enforce]
    exact List.forall_mem_cons.mpr ⟨⟨hfirst, hsecond⟩, h.contains⟩

/-- The upper bound of a constraint within the bound is as well scaled. A constraint without upper
bound adds no edge, and then there is nothing to show. -/
theorem Scaled.upper {net net' : Network} {b : Int} (h : net.Scaled cs b)
    (hsize : net'.size = net.size) {c : Constraint} (hc : c.Within b) :
    net'.Scaled (c.upper ++ cs) b := by
  unfold Constraint.upper
  cases hcase : c.hi with
  | none => exact ⟨h.1, by simpa [contains, hsize] using h.2⟩
  -- the edge of the upper bound weighs `hi`, which is within the bound
  | some hi =>
    have := hc.2 hi hcase
    refine h.cons hsize ⟨?_, by simp [Constraint.edge]⟩
    simp only [Constraint.edge]
    omega

/-- **A constraint that some solution obeys leads to the minimal network with that constraint.** The
two edges of the constraint are added one after the other, and for the second one the network is
already the one that the first has led to. -/
theorem Represents.enforce (h : net.value.Represents cs) {b : Int} (hs : net.value.Scaled cs b)
    {c : Constraint} (hc : c.Within b) (hfirst : net.value.contains c.first)
    (hsecond : net.value.contains c.second)
    (feasible : ∃ date, net.value.Fits date ∧ c.Holds date) :
    (net.enforce c).value.Represents (c :: cs) ∧ (net.enforce c).value.Scaled (c :: cs) b := by
  obtain ⟨⟨hb, hbq⟩, -⟩ := id hs
  obtain ⟨hlo, hhi⟩ := id hc
  -- the upper bound is added first, and the lower one to the network that results
  have hboth := h.enforce_of_lossless hfirst hsecond feasible
    (fun hi hcase => by
      have := hhi hi hcase
      exact ((h.within hs).roomy le_rfl (by omega)).lossless)
    fun hrep => by
      have hwithin := hrep.within (hs.upper (size_bound c) hc)
      exact (hwithin.roomy le_rfl (by omega)).lossless
  exact ⟨hboth.1, hs.cons hboth.2 hc⟩

/-- With a horizon, posting a constraint that some solution obeys loses nothing. All dates lie in
the window, and so do all sums that could tighten anything. -/
theorem Represents.losslessIn_of_windows (hrep : net.value.Represents cs) {h : Int}
    (hh : h < Distance.ceiling) (hcs : ∀ t, net.value.contains t → windowUpTo h t ∈ cs)
    {c : Constraint} (hfirst : net.value.contains c.first) (hsecond : net.value.contains c.second)
    (feasible : ∃ date, net.value.Fits date ∧ c.Holds date) : c.LosslessIn net := by
  have upper : ∀ hi, c.hi = some hi → net.value.Lossless c.first c.second hi := by
    intro hi hcase
    obtain ⟨date, hdate, -, hhi⟩ := feasible
    exact hrep.lossless_of_windows hh hcs hsecond ⟨date, hdate, hhi hi hcase⟩
  -- first the upper bound is posted, and it is lossless by the windows
  have hbound := hrep.bound hfirst hsecond feasible upper
  obtain ⟨date, hdate, hlo, hhi⟩ := feasible
  -- the lower bound is added to a network that has the windows, too
  refine ⟨upper, hbound.lossless_of_windows hh (fun t ht => ?_) (by simpa using hfirst)
    ⟨date, ?_, by omega⟩⟩
  · exact List.mem_append_right _ (hcs t (by simpa using ht))
  · rw [hbound.fits_iff, List.forall_mem_append, Constraint.holds_upper, ← hrep.fits_iff]
    exact ⟨hhi, hdate⟩

/-- **Posting decides consistency.** A constraint is taken if some solution obeys it, and then the
network is the minimal one with that constraint; otherwise it is refused. -/
theorem Represents.post? (h : net.value.Represents cs) {b : Int} (hs : net.value.Scaled cs b)
    {c : Constraint} (hc : c.Within b) (hfirst : net.value.contains c.first)
    (hsecond : net.value.contains c.second) :
    (∃ net', net.post? c = some net' ∧ (∃ date, net.value.Fits date ∧ c.Holds date) ∧
        net'.value.Represents (c :: cs) ∧ net'.value.Scaled (c :: cs) b) ∨
      (net.post? c = none ∧ ¬ ∃ date, net.value.Fits date ∧ c.Holds date) := by
  have hiff := h.closed.admits_iff h.solvable hfirst hsecond
  unfold TrackedNetwork.post?
  -- admission is the test for a solution, since the matrix is closed
  by_cases hadmits : net.value.admits c = true
  · have feasible := hiff.mp hadmits
    rw [if_pos hadmits]
    exact .inl ⟨_, rfl, feasible, h.enforce hs hc hfirst hsecond feasible⟩
  · rw [if_neg hadmits]
    exact .inr ⟨rfl, fun hf => hadmits (hiff.mpr hf)⟩

/-! ### New timepoints -/

end Network

/-- A network with one more timepoint, whose window is not posted yet. -/
def TrackedNetwork.widen (net : TrackedNetwork) : TrackedNetwork :=
  net.perform .newTimepoint Network.extend

namespace Network

variable {cs : List Constraint} {net : TrackedNetwork}

/-- The timepoint that comes next. -/
def next (net : Network) : Timepoint := ⟨net.size⟩

@[simp] theorem size_extend (net : Network) : net.extend.size = net.size + 1 := by
  simp [extend, size]

/-- The timepoints of a network that grew are the old ones and the next one. -/
theorem contains_extend_iff {net : Network} {t : Timepoint} :
    net.extend.contains t ↔ net.contains t ∨ t = net.next := by
  have hnext : t = net.next ↔ t.index = net.size := by
    cases t
    simp [next]
  rw [contains_iff, contains_iff, size_extend, hnext]
  omega

/-- A network grows by a column of unbounded entries and a row of them, with 0 on the diagonal. -/
theorem getElem?_rows_extend (net : Network) (i : Nat) :
    net.extend.rows[i]? =
      if i < net.size then (net.rows[i]?).map (·.push .unbounded)
      else if i = net.size then
        some ((Array.replicate net.size Distance.unbounded).push (.finite 0))
      else none := by
  simp only [extend, List.getElem?_toArray, List.getElem?_append, List.length_map,
    Array.length_toList, List.getElem?_map, Array.getElem?_toList]
  unfold size
  split
  · rfl
  · -- the new row is the last
    by_cases h : i = net.rows.size
    · simp [h]
    · rw [if_neg h]
      exact List.getElem?_eq_none (by simp only [List.length_singleton]; omega)

theorem Square.extend {net : Network} (sq : net.Square) : net.extend.Square where
  size_pos := by simp
  row_size := by
    intro i row h
    rw [getElem?_rows_extend] at h
    rw [size_extend]
    -- an old row has got one entry more, and the new one has them all
    split at h
    · obtain ⟨old, hold, rfl⟩ := Option.map_eq_some_iff.mp h
      simp [sq.row_size i old hold]
    · split at h
      · obtain rfl := Option.some.inj h
        simp
      · exact absurd h (by simp)

/-- A new timepoint is not yet bound to any other. Its row and its column are unbounded but for the
diagonal, so that a new finite distance is the one from the timepoint to itself. -/
theorem Square.atMost_extend {net : Network} (sq : net.Square) {a b : Timepoint} {x : Int} :
    (net.extend.distance a b).AtMost x ↔
      (net.distance a b).AtMost x ∨ (a = net.next ∧ b = net.next ∧ 0 ≤ x) := by
  have hnext : ∀ t : Timepoint, t = net.next ↔ t.index = net.size := by
    rintro ⟨t⟩
    simp [next]
  rw [hnext, hnext]
  unfold distance
  rw [getElem?_rows_extend]
  -- the old rows got a last entry, the new row has one entry on the diagonal
  by_cases ha : a.index < net.size
  · have hrow : net.rows[a.index]? = some net.rows[a.index] := Array.getElem?_eq_getElem ha
    have hsize := sq.row_size _ _ hrow
    rw [if_pos ha, hrow]
    simp only [Option.map_some, Array.getElem?_push, hsize, ha.ne, false_and, or_false]
    -- from an old timepoint there is no bound to the new one
    by_cases hb : b.index = net.size
    · rw [if_pos hb, hb, Array.getElem?_eq_none (by omega)]
      simp
    · rw [if_neg hb]
  · have hrow : net.rows[a.index]? = none := Array.getElem?_eq_none (by unfold size at ha; omega)
    rw [if_neg ha, hrow]
    -- from the new one there is a bound to itself, and no other
    by_cases ha' : a.index = net.size
    · simp only [ha', if_true, Array.getElem?_push, Array.size_replicate, true_and,
        Distance.not_atMost_unbounded, false_or]
      by_cases hb : b.index = net.size
      · simp [hb]
      · rw [if_neg hb, Array.getElem?_replicate]
        split <;> simp [hb]
    · simp [ha']

/-- A new timepoint can have any date. -/
theorem fits_extend_iff {net : Network} (sq : net.Square) {date : Timepoint → Int} :
    net.extend.Fits date ↔ net.Fits date := by
  refine ⟨fun hd t u x hx => hd t u x (sq.atMost_extend.mpr (.inl hx)), fun hd t u x hx => ?_⟩
  rcases sq.atMost_extend.mp hx with hx | ⟨rfl, rfl, hx⟩
  · exact hd t u x hx
  · omega

/-- A new timepoint that no constraint mentions changes nothing for the others, and the wider
network is minimal. -/
theorem Represents.extend {net : Network} (h : net.Represents cs) : net.extend.Represents cs where
  closed := by
    have sq := h.closed.square
    refine ⟨sq.extend, fun t ht => Distance.ext_atMost fun x => ?_, fun t u v x y htu huv => ?_⟩
    · rw [sq.atMost_extend, Distance.atMost_finite]
      -- the diagonal is zero for the old timepoints and for the new one
      rcases contains_extend_iff.mp ht with hold | rfl
      · rw [h.closed.diagonal t hold, Distance.atMost_finite]
        tauto
      · rw [distance_of_not_contains_left (by simp [contains_iff, next])]
        simp
    · -- the new timepoint is bound to itself alone
      rw [sq.atMost_extend] at htu huv ⊢
      have hnew : ∀ w, ¬ (net.distance net.next w).AtMost y := fun w => by
        rw [distance_of_not_contains_left (by simp [contains_iff, next])]
        simp
      have hnew' : ∀ w, ¬ (net.distance w net.next).AtMost x := fun w => by
        rw [sq.distance_of_not_contains_right (by simp [contains_iff, next])]
        simp
      -- a path by way of the new timepoint stays there, or leads nowhere
      rcases htu with htu | ⟨ht, hu, hx⟩ <;> rcases huv with huv | ⟨hu', hv, hy⟩
      · exact .inl (h.closed.triangle _ _ _ _ _ htu huv)
      · exact absurd (hu' ▸ htu) (hnew' t)
      · exact absurd (hu ▸ huv) (hnew v)
      · exact .inr ⟨ht, hv, by omega⟩
  solvable := h.solvable.imp fun _ hdate => (fits_extend_iff h.closed.square).mpr hdate
  fits_iff date := (fits_extend_iff h.closed.square).trans (h.fits_iff date)
  contains := fun c hc => ⟨contains_extend_iff.mpr (.inl (h.contains c hc).1),
    contains_extend_iff.mpr (.inl (h.contains c hc).2)⟩

/-- Distances within a quarter of the range are in the range. -/
theorem Within.ranged {net : Network} (h : net.Within quarter) : net.Ranged := by
  intro t u x hx
  have := h t u x hx
  simp only [quarter, Distance.ceiling] at *
  omega

theorem Ranged.extend {net : Network} (h : net.Ranged) (sq : net.Square) : net.extend.Ranged := by
  intro t u x hx
  have hcell : ∀ y, (net.extend.distance t u).AtMost y ↔ x ≤ y := fun y => by simp [hx]
  -- a finite cell is an old one or the diagonal of the new timepoint
  rcases sq.atMost_extend.mp ((hcell x).mpr le_rfl) with hold | ⟨rfl, rfl, hx₀⟩
  · obtain ⟨y, hy, hyx⟩ := hold.exists_finite
    have hxy : x ≤ y := (hcell y).mp (sq.atMost_extend.mpr (.inl (by simp [hy])))
    obtain rfl : x = y := le_antisymm hxy hyx
    exact h t u x hy
  · have : x ≤ 0 := (hcell 0).mp (sq.atMost_extend.mpr (.inr ⟨rfl, rfl, le_rfl⟩))
    simp only [Distance.ceiling]
    omega

/-- Enforcing an upper bound keeps distances in the range, since sums are cut off there. -/
theorem Ranged.bound (h : net.value.Ranged) (sq : net.value.Square) (c : Constraint) :
    (net.bound c).value.Ranged := by
  unfold TrackedNetwork.bound
  split
  · exact h.addEdge sq _ _ _
  · exact h

/-- From a new timepoint no way leads on. -/
theorem Square.atMost_extend_next {net : Network} (sq : net.Square) {b : Timepoint} {x : Int}
    (hx : (net.extend.distance net.next b).AtMost x) : b = net.next ∧ 0 ≤ x := by
  rcases sq.atMost_extend.mp hx with hold | ⟨-, hb, hx⟩
  · rw [distance_of_not_contains_left (by simp [contains_iff, next])] at hold
    exact absurd hold Distance.not_atMost_unbounded
  · exact ⟨hb, hx⟩

/-- A new timepoint has room for its window, whatever the distances of the others are. Its distances
to the origin are unbounded in both directions, and an unbounded distance allows everything; the
window only has to be possible in itself. -/
theorem Square.admits_window {net : Network} (sq : net.Square)
    (hh : ∀ k, net.horizon = some k → 0 ≤ k) :
    net.extend.admits (TrackedNetwork.window net.extend net.next) = true := by
  have hne : net.next ≠ Timepoint.origin := fun h => by
    have := sq.size_pos
    simp only [Timepoint.origin, next, Timepoint.mk.injEq] at h
    omega
  -- neither way is there any bound yet between the new timepoint and the origin
  have hforth : ∀ y, ¬ (net.extend.distance .origin net.next).AtMost y := fun y hy => by
    rcases sq.atMost_extend.mp hy with hold | ⟨h, -⟩
    · exact absurd (contains_iff.mp (sq.contains_of_atMost hold).2) (lt_irrefl _)
    · exact hne h.symm
  have hback : ∀ y, ¬ (net.extend.distance net.next .origin).AtMost y := fun y hy =>
    hne (sq.atMost_extend_next hy).1.symm
  simp only [admits, TrackedNetwork.window, Bool.and_eq_true]
  refine ⟨Distance.allows_iff.mpr fun y hy => absurd hy (hforth y), ?_⟩
  -- with a horizon the window has an upper bound, which is not negative
  cases hcase : net.extend.horizon with
  | none => rfl
  | some k =>
    rw [Bool.and_eq_true]
    exact ⟨decide_eq_true (hh k hcase), Distance.allows_iff.mpr fun y hy => absurd hy (hback y)⟩

/-- A new timepoint is created with its window posted. -/
theorem Square.addTimepoint_eq (sq : net.value.Square)
    (hh : ∀ k, net.value.horizon = some k → 0 ≤ k) :
    net.addTimepoint.1 = net.widen.enforce (TrackedNetwork.window net.widen.value net.value.next) :=
  if_pos (sq.admits_window hh)

/-- No timepoint is bound to come before the origin only: ways to it do not get positive when a
timepoint is new. -/
theorem Square.origin_le_extend {net : Network} (sq : net.Square)
    (windowed : ∀ t, net.contains t → (net.distance t .origin).AtMost 0) {a : Timepoint} {y : Int}
    (hy : net.extend.distance a .origin = .finite y) : y ≤ 0 := by
  have hay : (net.extend.distance a .origin).AtMost y := by simp [hy]
  -- the new timepoint has no finite cell but its own
  rcases contains_extend_iff.mp (sq.extend.contains_of_atMost hay).1 with hold | rfl
  · have := sq.atMost_extend.mpr (.inl (windowed a hold))
    rwa [hy] at this
  · have := congrArg Timepoint.index (sq.atMost_extend_next hay).1
    have := sq.size_pos
    simp only [Timepoint.origin, next] at *
    omega

/-- A new timepoint can be put at the origin, which is in its window. Since it is bound to nothing,
any solution of the old network is extended by the date of the origin. -/
theorem Represents.exists_fits_window {net : Network} (h : net.Represents cs) {hi : Option Int}
    (hhi : ∀ k, hi = some k → 0 ≤ k) :
    ∃ date, net.extend.Fits date ∧ (⟨.origin, net.next, 0, hi⟩ : Constraint).Holds date := by
  have sq := h.closed.square
  obtain ⟨date, hdate⟩ := h.solvable
  -- the dates of a solution of the old network, and the origin for the new timepoint
  let placed : Timepoint → Int := fun t => if t = net.next then date .origin else date t
  have hnext : placed net.next = date .origin := if_pos rfl
  have horigin : placed .origin = date .origin := ite_self _
  refine ⟨placed, fun t u x hx => ?_, ?_, fun k hk => ?_⟩
  · -- the wider network bounds old timepoints by each other only, and the new one by itself
    rcases sq.atMost_extend.mp hx with hx | ⟨rfl, rfl, hx₀⟩
    · obtain ⟨ht, hu⟩ := sq.contains_of_atMost hx
      have hne : ∀ v, net.contains v → placed v = date v := by
        rintro v hv
        refine if_neg ?_
        rintro rfl
        simp [contains_iff, next] at hv
      rw [hne t ht, hne u hu]
      exact hdate t u x hx
    · rwa [sub_self]
  · show 0 ≤ placed net.next - placed .origin
    rw [hnext, horigin, sub_self]
  · show placed net.next - placed .origin ≤ k
    rw [hnext, horigin, sub_self]
    exact hhi k hk

/-- A limit for a new timepoint loses nothing: a way through the new edge ends there, and the way to
the origin is not positive. -/
theorem Represents.lossless_next {net : Network} (h : net.Represents cs) (ranged : net.Ranged)
    (windowed : ∀ t, net.contains t → (net.distance t .origin).AtMost 0) {k : Int} (hk : 0 ≤ k)
    (hkc : k < Distance.ceiling) : net.extend.Lossless .origin net.next k := by
  have sq := h.closed.square
  intro a b y z hy hz
  -- the only finite cell out of the new timepoint is its diagonal, so the sum is at most `k`
  obtain ⟨rfl, hz₀⟩ : b = net.next ∧ 0 ≤ z := sq.atMost_extend_next (by rw [hz]; exact le_rfl)
  rw [h.extend.closed.diagonal _ (contains_extend_iff.mpr (.inr rfl))] at hz
  obtain rfl := Distance.finite.inj hz
  have hy₀ : y ≤ 0 := sq.origin_le_extend windowed hy
  have hyr := ranged.extend sq _ _ _ hy
  exact .inr (by omega)

/-- Nor does a limit of 0 from below after that: another timepoint reaches the new one through the
first timepoint of the constraint, and so is no further from there. -/
theorem Represents.lossless_bound_next (h : net.value.Represents cs) (ranged : net.value.Ranged)
    {c : Constraint} (hsecond : c.second = net.value.next)
    (nonneg : ∀ k, c.hi = some k → 0 ≤ k)
    (upper : ∀ k, c.hi = some k → net.widen.value.Lossless c.first c.second k)
    {cs' : List Constraint} (hrep : (net.widen.bound c).value.Represents cs') :
    (net.widen.bound c).value.Lossless c.second c.first 0 := by
  have sq := h.closed.square
  have hE : net.widen.value.Represents cs := h.extend
  intro a b y z hy hz
  have hay : ((net.widen.bound c).value.distance a c.second).AtMost y := by simp [hy]
  have hob : ((net.widen.bound c).value.distance c.first b).AtMost z := by simp [hz]
  -- from the new timepoint itself the sum is that of one distance and 0
  by_cases hnext : a = c.second
  · rw [hnext, hrep.closed.diagonal _ (hrep.closed.square.contains_of_atMost hay).2] at hy
    obtain rfl := Distance.finite.inj hy
    have hzr := (ranged.extend sq).bound hE.closed.square c _ _ _ hz
    exact .inr ⟨by decide, by omega⟩
  · -- any other timepoint comes to the new one through the first timepoint of the constraint
    have horigin : ((net.widen.bound c).value.distance a c.first).AtMost y := by
      refine (hE.closed.atMost_bound nonneg upper hay).resolve_left fun hold => ?_
      rw [hsecond] at hold hnext
      rcases sq.atMost_extend.mp hold with hold | ⟨ha, -⟩
      · exact absurd (contains_iff.mp (sq.contains_of_atMost hold).2) (lt_irrefl _)
      · exact hnext ha
    exact .inl ((hrep.closed.triangle _ _ _ _ _ horigin hob).mono (by omega))

/-- A new timepoint that comes no earlier than the origin, and no later than a limit if there is
one. -/
theorem Represents.enforce_next (h : net.value.Represents cs) (ranged : net.value.Ranged)
    (windowed : ∀ t, net.value.contains t → (net.value.distance t .origin).AtMost 0)
    {hi : Option Int} (hhi : ∀ k, hi = some k → 0 ≤ k ∧ k < Distance.ceiling) :
    (net.widen.enforce ⟨.origin, net.value.next, 0, hi⟩).value.Represents
      (⟨.origin, net.value.next, 0, hi⟩ :: cs) := by
  have hE : net.widen.value.Represents cs := h.extend
  have upper : ∀ k, hi = some k → net.widen.value.Lossless .origin net.value.next k :=
    fun k hk => h.lossless_next ranged windowed (hhi k hk).1 (hhi k hk).2
  refine (hE.enforce_of_lossless (contains_extend_iff.mpr (.inl h.closed.square.contains_origin))
    (contains_extend_iff.mpr (.inr rfl)) (h.exists_fits_window fun k hk => (hhi k hk).1) upper
    fun hrep => ?_).1
  exact h.lossless_bound_next ranged rfl (fun k hk => (hhi k hk).1) upper hrep

/-- A network that grew and then got a constraint has one timepoint more. -/
theorem size_enforce_widen (c : Constraint) :
    (net.widen.enforce c).value.size = net.value.size + 1 :=
  (TrackedNetwork.size_enforce _ _).trans (size_extend _)

/-- **A new timepoint gets its window.** Size and horizon are listed because the next timepoint
needs them. -/
theorem Represents.addTimepoint (h : net.value.Represents cs) (ranged : net.value.Ranged)
    (windowed : ∀ t, net.value.contains t → (net.value.distance t .origin).AtMost 0)
    (horizon : ∀ k, net.value.horizon = some k → 0 ≤ k ∧ k < Distance.ceiling) :
    net.addTimepoint.1.value.Represents
        (TrackedNetwork.window net.value net.value.next :: cs) ∧
      net.addTimepoint.1.value.size = net.value.size + 1 ∧
      net.addTimepoint.1.value.horizon = net.value.horizon := by
  rw [h.closed.square.addTimepoint_eq fun k hk => (horizon k hk).1]
  exact ⟨h.enforce_next ranged windowed horizon, size_enforce_widen _,
    TrackedNetwork.horizon_enforce _ _⟩

end Network

/-! ### Computing all distances anew -/

namespace TrackedNetwork

variable {net : TrackedNetwork}

@[simp] theorem size_relaxThrough (net : TrackedNetwork) (pivot first : Timepoint) :
    (relaxThrough pivot net first).value.size = net.value.size := by
  unfold relaxThrough
  split <;> simp

@[simp] theorem horizon_relaxThrough (net : TrackedNetwork) (pivot first : Timepoint) :
    (relaxThrough pivot net first).value.horizon = net.value.horizon := by
  unfold relaxThrough
  split <;> simp

theorem square_relaxThrough (sq : net.value.Square) (pivot first : Timepoint) :
    (relaxThrough pivot net first).value.Square := by
  unfold relaxThrough
  split
  · exact sq
  · exact square_lowerAll sq _

/-- What letting connections run through a pivot keeps holds when all distances are computed. Loops
over pivots, first and second timepoints are nested, and this is the one induction over all of them.
-/
theorem relaxAll_induction {P : TrackedNetwork → Prop} (h : P net)
    (step : ∀ net pivot first, net.value.contains first → P net →
      P (relaxThrough pivot net first)) : P net.relaxAll := by
  refine List.foldlRecOn _ _ h fun net' h' pivot _ => ?_
  -- the timepoints are those that the network had when it came to the pivot
  refine (List.foldlRecOn (motive := fun net'' => P net'' ∧ net''.value.size = net'.value.size)
    net'.value.timepoints (relaxThrough pivot) ⟨h', rfl⟩ ?_).1
  rintro net'' ⟨h'', hsize⟩ first hfirst
  refine ⟨step net'' pivot first ?_ h'', (size_relaxThrough _ _ _).trans hsize⟩
  rw [Network.contains_congr hsize]
  exact Network.mem_timepoints.mp hfirst

end TrackedNetwork

namespace Network

variable {net : TrackedNetwork}

/-- In a closed network no connection gets closer through a third timepoint. In each row the sum
over the third timepoint is at least the distance that is there, by the triangle inequality, and the
bound on the distances keeps the sum exact. -/
theorem Closed.relaxThrough (closed : net.value.Closed) (hW : net.value.Within quarter)
    (u t : Timepoint) : TrackedNetwork.relaxThrough u net t = net := by
  unfold TrackedNetwork.relaxThrough
  -- a timepoint without a connection to the pivot has nothing to gain
  split
  · rfl
  · have hnone : net.value.lowerings t (net.value.distance t u) (net.value.distance u) = [] := by
      refine List.eq_nil_iff_forall_not_mem.mpr fun s hs => ?_
      obtain ⟨-, htighter, -⟩ := TrackedNetwork.mem_lowerings.mp hs
      refine absurd htighter (Bool.eq_false_iff.mp (Distance.not_tighter_iff.mpr fun x hx => ?_))
      -- what could be lower is a sum, and sums within bounds are not cut off
      rw [Distance.atMost_add fun y z hy hz => ?_] at hx
      · obtain ⟨y, z, hy, hz, hyz⟩ := hx
        exact (closed.triangle _ _ _ _ _ hy hz).mono hyz
      · have h₁ := hW _ _ _ hy
        have h₂ := hW _ _ _ hz
        simp only [quarter, Distance.ceiling] at *
        omega
    rw [hnone]
    rfl

/-- **Computing all distances of a minimal network anew changes nothing.** The bound on the
distances keeps sums from saturating; without it a sum could come out lower than it should. -/
theorem Closed.propagate (closed : net.value.Closed) (hW : net.value.Within quarter) :
    net.propagate = (net, none) := by
  -- no relaxation lowers a cell of a closed matrix, and its diagonal is zero
  have hrelax : net.relaxAll = net :=
    TrackedNetwork.relaxAll_induction (P := (· = net)) rfl fun _ u t _ heq =>
      heq ▸ closed.relaxThrough hW u t
  have hnone : (net.value.timepoints.find? fun u =>
      (net.value.distance u u).tighter (.finite 0)) = none := by
    refine List.find?_eq_none.mpr fun u hu => ?_
    rw [closed.diagonal u (mem_timepoints.mp hu)]
    decide
  simp only [TrackedNetwork.propagate, hrelax, hnone, Option.map_none]

end Network

end TemporalPlanning
