import TemporalPlanning.Proofs.Network.Session

/-!
# Sums that are cut off

Clocks have 64 bits, and a sum of distances that leaves their range is cut off: above it reads as no
bound, below it stays at the least clock. `Session.Reachable.exact` is about sessions in which this
does not happen. This file is about all others, whatever the bounds that are posted.

A network whose sums were cut off is no longer minimal, but no distance is tighter than it should
be: `Network.Relaxed` says that what solves the constraints taken fits the distances. So no
constraint is refused that could be kept. The converse needs that nothing was lost
(`Constraint.LosslessIn`): a path whose length was cut off is missing when a later constraint closes
a cycle with it, and a cycle of negative length is then taken
(`Session.exists_negative_cycle`). The two sides together are `Session.Taking.consistent`.
-/

namespace TemporalPlanning

namespace Network

variable {horizon : Option Int} {net : TrackedNetwork} {taken : List Constraint}

/-- Every timepoint is at distance 0 from itself, and its earliest date is not after its latest. -/
structure Coherent (net : Network) : Prop where
  diagonal : ∀ t, net.contains t → net.distance t t = .finite 0
  earliest_le : ∀ t k, net.contains t → net.latest t = some k → net.earliest t ≤ k

/-- What holds of a network whatever was cut off: its distances are in the range of the clocks, and
none is tighter than the constraints `taken` and the windows say. -/
structure Relaxed (horizon : Option Int) (net : Network) (taken : List Constraint) : Prop where
  square : net.Square
  ranged : net.Ranged
  horizon_eq : net.horizon = horizon
  diagonal : ∀ t, net.contains t → (net.distance t t).AtMost 0
  windowed : ∀ t, net.contains t → (net.distance t .origin).AtMost 0
  fits : ∀ date, (∀ c ∈ net.windows ++ taken, c.Holds date) → net.Fits date

/-- A relaxed network that some dates fit is coherent. Being coherent is what the rest of the
program relies on where distances may have saturated: the diagonal is zero, and no latest date is
before the earliest. -/
theorem Relaxed.coherent {net : Network} (h : net.Relaxed horizon taken)
    (fitting : ∃ date, net.Fits date) : net.Coherent := by
  obtain ⟨date, hdate⟩ := fitting
  constructor
  · -- the distance is at most 0, and dates that fit keep it from being less
    intro t ht
    obtain ⟨x, hx, hx₀⟩ := (h.diagonal t ht).exists_finite
    have := hdate t t x (by simp [hx])
    rw [hx, show x = 0 by omega]
  · -- the earliest and the latest date have a date that fits between them
    intro t k ht hk
    obtain ⟨x, hx, -⟩ := (h.windowed t ht).exists_finite
    have h₁ := hdate t .origin x (by simp [hx])
    have h₂ := hdate.le_latest hk
    simp only [earliest, hx, Distance.toInt]
    omega

/-! ### Posting with sums cut off -/

/-- Enforcing a constraint keeps distances in the range, whatever its bounds are, since sums are cut
off there. -/
theorem Ranged.enforce (h : net.value.Ranged) (sq : net.value.Square) (c : Constraint) :
    (net.enforce c).value.Ranged :=
  (h.bound sq c).addEdge (sq.bound c) _ _ _

theorem Square.atMost_bound_of_atMost (sq : net.value.Square) {c : Constraint} {t u : Timepoint}
    {x : Int} (h : (net.value.distance t u).AtMost x) :
    ((net.bound c).value.distance t u).AtMost x := by
  unfold TrackedNetwork.bound
  split
  · exact TrackedNetwork.atMost_addEdge_of_atMost sq h
  · exact h

/-- No distance gets longer when a constraint is posted. -/
theorem Square.atMost_enforce_of_atMost (sq : net.value.Square) {c : Constraint} {t u : Timepoint}
    {x : Int} (h : (net.value.distance t u).AtMost x) :
    ((net.enforce c).value.distance t u).AtMost x :=
  TrackedNetwork.atMost_addEdge_of_atMost (sq.bound c) (sq.atMost_bound_of_atMost h)

/-- No distance of the second network is longer than that of the first. -/
def Tightens (net net' : Network) : Prop :=
  ∀ t u x, (net.distance t u).AtMost x → (net'.distance t u).AtMost x

theorem Square.tightens_enforce (sq : net.value.Square) (c : Constraint) :
    Tightens net.value (net.enforce c).value := fun _ _ _ => sq.atMost_enforce_of_atMost

/-- What a tighter network admits was admitted before. The test compares the constraint with two
distances, and smaller ones can only refuse more. -/
theorem Tightens.admits {net net' : Network} (h : Tightens net net') {c : Constraint}
    (hadmits : net'.admits c = true) : net.admits c = true := by
  have hallows : ∀ t u x, (net'.distance t u).allows x = true →
      (net.distance t u).allows x = true := fun t u x hx =>
    Distance.allows_iff.mpr fun y hy => Distance.allows_iff.mp hx y (h t u y hy)
  simp only [Network.admits, Bool.and_eq_true] at hadmits ⊢
  refine ⟨hallows _ _ _ hadmits.1, ?_⟩
  -- the upper side is asked only where there is one
  cases hhi : c.hi with
  | none => rfl
  | some hi =>
    obtain ⟨hle, hback⟩ := Bool.and_eq_true_iff.mp (hhi ▸ hadmits.2)
    exact Bool.and_eq_true_iff.mpr ⟨hle, hallows _ _ _ hback⟩

/-- In a tighter network no timepoint is earlier, if it was not before the origin. -/
theorem Tightens.earliest_le {net net' : Network} (h : Tightens net net') {t : Timepoint}
    (hwindow : (net.distance t .origin).AtMost 0) : net.earliest t ≤ net'.earliest t := by
  obtain ⟨x, hx, -⟩ := hwindow.exists_finite
  obtain ⟨y, hy, hle⟩ := (h t .origin x (by simp [hx])).exists_finite
  rw [earliest, earliest, hx, hy]
  exact Int.neg_le_neg hle

/-- In a tighter network no timepoint is later. -/
theorem Tightens.exists_latest {net net' : Network} (h : Tightens net net') {t : Timepoint}
    {k : Int} (hk : net.latest t = some k) : ∃ k', net'.latest t = some k' ∧ k' ≤ k := by
  obtain ⟨k', hk', hle⟩ := (h .origin t k (by simp [latest_eq_some.mp hk])).exists_finite
  exact ⟨k', latest_eq_some.mpr hk', hle⟩

/-- Dates that fit a network and obey a constraint fit the network with the constraint. -/
theorem Fits.enforce {date : Timepoint → Int} (h : net.value.Fits date) (sq : net.value.Square)
    {c : Constraint} (hc : c.Holds date) : (net.enforce c).value.Fits date := by
  have hbound : (net.bound c).value.Fits date := by
    unfold TrackedNetwork.bound
    split
    · next hi hhi => exact h.addEdge sq (hc.2 hi hhi)
    · exact h
  have hlo := hc.1
  exact hbound.addEdge (sq.bound c) (by omega)

/-- A lower bound of 0 is known once it is posted. It holds without any assumption on what was
posted before, saturated or not. -/
theorem Square.atMost_enforce_zero (sq : net.value.Square) {c : Constraint} (hlo : c.lo = 0)
    (hfirst : (net.value.distance c.first c.first).AtMost 0)
    (hsecond : (net.value.distance c.second c.second).AtMost 0) :
    ((net.enforce c).value.distance c.second c.first).AtMost 0 := by
  have hfirst' := sq.atMost_bound_of_atMost (c := c) hfirst
  have hsecond' := sq.atMost_bound_of_atMost (c := c) hsecond
  have sq' := sq.bound c
  rw [TrackedNetwork.enforce_eq, hlo]
  -- the edge back is not tighter than what was known, or it is written through both ends
  cases hedge : (Distance.ofInt (-0)).tighter ((net.bound c).value.distance c.second c.first) with
  | false =>
    exact TrackedNetwork.atMost_addEdge_of_atMost sq' (Distance.not_tighter_iff.mp hedge 0 le_rfl)
  | true =>
    rw [TrackedNetwork.distance_addEdge sq' hedge (sq'.contains_of_atMost hsecond').1
      (sq'.contains_of_atMost hfirst').1, Distance.atMost_ite_tighter]
    exact .inl ((hsecond'.add_nonpos le_rfl).add_nonpos hfirst')

/-- Whatever is cut off, a network stays above the distances of its constraints: solutions of these
still fit after one more is enforced, since each entry that is written is a sum that they obey, or
more. -/
theorem Relaxed.enforce (h : net.value.Relaxed horizon taken) (c : Constraint) :
    (net.enforce c).value.Relaxed horizon (c :: taken) where
  square := h.square.enforce c
  ranged := h.ranged.enforce h.square c
  horizon_eq := (TrackedNetwork.horizon_enforce _ _).trans h.horizon_eq
  diagonal t ht :=
    h.square.atMost_enforce_of_atMost (h.diagonal t (by rwa [contains_enforce] at ht))
  windowed t ht :=
    h.square.atMost_enforce_of_atMost (h.windowed t (by rwa [contains_enforce] at ht))
  fits date hdate := by
    rw [windows_congr (TrackedNetwork.size_enforce net c) (TrackedNetwork.horizon_enforce net c)]
      at hdate
    -- the windows are the same as before, and the new constraint is one of those that are to be
    -- obeyed
    have hall := fun c' hc' => hdate c' (mem_windows_append_cons.mpr hc')
    rw [List.forall_mem_cons] at hall
    exact (h.fits date hall.2).enforce h.square hall.1

/-! ### New timepoints with sums cut off -/

/-- A new timepoint keeps a network above the distances of its constraints, among which its own
window is counted. -/
theorem Relaxed.addTimepoint (h : net.value.Relaxed horizon taken)
    (hh : ∀ k, horizon = some k → 0 ≤ k) : net.addTimepoint.1.value.Relaxed horizon taken := by
  have sq := h.square
  let wider := net.widen
  have sqw : wider.value.Square := sq.extend
  let c := TrackedNetwork.window wider.value net.value.next
  have hsize : (wider.enforce c).value.size = net.value.size + 1 := size_enforce_widen c
  have hhorizon : (wider.enforce c).value.horizon = net.value.horizon :=
    TrackedNetwork.horizon_enforce _ _
  -- the diagonal is not above 0, for the new timepoint as well
  have diagonal : ∀ t, wider.value.contains t → (wider.value.distance t t).AtMost 0 := fun t ht =>
    sq.atMost_extend.mpr ((contains_extend_iff.mp ht).imp (h.diagonal t) fun h => ⟨h, h, le_rfl⟩)
  -- the network is widened, then the window of the new timepoint is posted like any constraint
  rw [sq.addTimepoint_eq fun k hk => hh k (h.horizon_eq.symm.trans hk)]
  refine ⟨sqw.enforce c, Ranged.enforce (h.ranged.extend sq) sqw c,
    hhorizon.trans h.horizon_eq, fun t ht => ?_, fun t ht => ?_, fun date hdate => ?_⟩
  · exact sqw.atMost_enforce_of_atMost (diagonal t (by rwa [contains_enforce] at ht))
  · rw [contains_enforce] at ht
    -- the old timepoints lie after the origin as before, and the new one does by its window
    rcases contains_extend_iff.mp ht with hold | rfl
    · exact sqw.atMost_enforce_of_atMost (sq.atMost_extend.mpr (.inl (h.windowed t hold)))
    · exact sqw.atMost_enforce_zero (c := c) rfl (diagonal _ sqw.contains_origin) (diagonal _ ht)
  · rw [show (wider.enforce c).value.windows = net.value.windows ++
      [TrackedNetwork.window net.value net.value.next] from
        windows_of_size_eq_succ hsize hhorizon] at hdate
    -- dates that meet all windows meet those of the old network
    have hnet := h.fits date fun c' hc' => hdate c' (by
      rcases List.mem_append.mp hc' with h | h <;> simp [h])
    have hc := hdate c
      (List.mem_append_left _ (List.mem_append_right _ (List.mem_singleton.mpr rfl)))
    exact Fits.enforce ((fits_extend_iff sq).mpr hnet) sqw hc

/-! ### Nothing lost -/

/-- What holds as long as nothing was lost: the network is minimal for the constraints `taken` and
the windows. -/
structure Faithful (horizon : Option Int) (net : Network) (taken : List Constraint) : Prop where
  represents : net.Represents (net.windows ++ taken)
  ranged : net.Ranged
  horizon_eq : net.horizon = horizon

/-- Whether the sums that an edge of length `w` makes of two distances stay in the range of the
clocks. -/
def sumsRanged (w : Int) : Distance → Distance → Bool
  | .finite y, .finite z => decide ((-Distance.ceiling ≤ y + w ∧ y + w < Distance.ceiling) ∧
      -Distance.ceiling ≤ y + w + z ∧ y + w + z < Distance.ceiling)
  | _, _ => true

/-- An edge can be checked pair by pair. The check on the right can be computed, so that for a
concrete network the hypothesis on sums is decided. -/
theorem Square.lossless_of_all {net : Network} (sq : net.Square) {t u : Timepoint} {w : Int}
    (h : (net.timepoints.all fun a => net.timepoints.all fun b =>
      sumsRanged w (net.distance a t) (net.distance u b)) = true) : net.Lossless t u w := by
  intro a b y z hy hz
  simp only [List.all_eq_true, mem_timepoints] at h
  have hay : (net.distance a t).AtMost y := by simp [hy]
  have hub : (net.distance u b).AtMost z := by simp [hz]
  have hpair := h a (sq.contains_of_atMost hay).1 b (sq.contains_of_atMost hub).2
  rw [hy, hz] at hpair
  exact .inr (of_decide_eq_true hpair)

/-- A network that is exact is above the distances of its constraints in particular. -/
theorem Faithful.relaxed {net : Network} (h : net.Faithful horizon taken) :
    net.Relaxed horizon taken where
  square := h.represents.closed.square
  ranged := h.ranged
  horizon_eq := h.horizon_eq
  diagonal t ht := by simp [h.represents.closed.diagonal t ht]
  windowed := h.represents.windowed
  fits date hdate := (h.represents.fits_iff date).mpr hdate

/-- The first network has the origin alone and obeys its window. It is the base of the induction
along a history of requests. -/
theorem Faithful.origin (hh : ∀ k, horizon = some k → 0 ≤ k) :
    (Network.origin horizon).Faithful horizon [] where
  represents := represents_windows_origin hh
  ranged t u x hx := by
    have htu : ((Network.origin horizon).distance t u).AtMost x := by simp [hx]
    obtain ⟨rfl, rfl, -⟩ := eq_origin_of_atMost htu
    rw [show (Network.origin horizon).distance .origin .origin = .finite 0 from rfl] at hx
    obtain rfl := Distance.finite.inj hx
    decide
  horizon_eq := rfl

/-- A constraint that is admitted, and that is added without loss, leads to the exact network with
it. -/
theorem Faithful.enforce (h : net.value.Faithful horizon taken) {c : Constraint}
    (hfirst : net.value.contains c.first) (hsecond : net.value.contains c.second)
    (hadmits : net.value.admits c) (lossless : c.LosslessIn net) :
    (net.enforce c).value.Faithful horizon (c :: taken) := by
  have hrep := h.represents
  have feasible := (hrep.closed.admits_iff hrep.solvable hfirst hsecond).mp hadmits
  have hrep' := (hrep.enforce_of_lossless hfirst hsecond feasible lossless.1 fun _ => lossless.2).1
  exact ⟨hrep'.enforce_windows, h.ranged.enforce hrep.closed.square c,
    (TrackedNetwork.horizon_enforce _ _).trans h.horizon_eq⟩

/-- A new timepoint keeps a network exact, as its window is added without loss. -/
theorem Faithful.addTimepoint (h : net.value.Faithful horizon taken)
    (hh : ∀ k, horizon = some k → 0 ≤ k ∧ k < Distance.ceiling) :
    net.addTimepoint.1.value.Faithful horizon taken := by
  have hh' := fun k hk => hh k (h.horizon_eq.symm.trans hk)
  have sq := h.represents.closed.square
  obtain ⟨hrep, -, hhorizon⟩ := h.represents.addTimepoint_windows h.ranged hh'
  refine ⟨hrep, ?_, hhorizon.trans h.horizon_eq⟩
  rw [sq.addTimepoint_eq fun k hk => (hh' k hk).1]
  exact Ranged.enforce (h.ranged.extend sq) sq.extend _

end Network

namespace Session

variable {P : TrackedNetwork → Constraint → Prop} {horizon : Option Int} {σ σ' : Session}

/-- The sessions with any number of timepoints and any bounds in which each constraint had the
property `P` when it was taken. -/
inductive Taking (P : TrackedNetwork → Constraint → Prop) (horizon : Option Int) :
    Session → Prop where
  | start : Taking P horizon (start horizon)
  | step {σ σ' : Session} {r : Request} (h : Taking P horizon σ)
    (hr : ∀ c, r = .post c → σ.plan.network.admits c → P σ.plan.net c) (hσ : σ.step r = .ok σ') :
    Taking P horizon σ'

/-- Whatever is posted, the network stays relaxed. -/
theorem Taking.relaxed (h : Taking P horizon σ) (hh : ∀ k, horizon = some k → 0 ≤ k) :
    σ.Throughout (Network.Relaxed horizon) := by
  induction h with
  | start => exact ⟨(Network.Faithful.origin hh).relaxed, by simp [Session.start]⟩
  | step _ _ hσ ih =>
    exact ih.step hσ (fun _ => ih.now.addTimepoint hh) fun c _ _ _ _ => ih.now.enforce c

/-- As long as nothing is lost, the network stays minimal. -/
theorem Taking.faithful (h : Taking (fun net c => c.LosslessIn net) horizon σ)
    (hh : ∀ k, horizon = some k → 0 ≤ k ∧ k < Distance.ceiling) :
    σ.Throughout (Network.Faithful horizon) := by
  induction h with
  | start =>
    exact ⟨Network.Faithful.origin fun k hk => (hh k hk).1, by simp [Session.start]⟩
  | step _ hr hσ ih =>
    exact ih.step hσ (fun _ => ih.now.addTimepoint hh) fun c hc hfirst hsecond hadmits =>
      ih.now.enforce hfirst hsecond hadmits (hr c hc hadmits)

/-- A constraint between timepoints of the network is taken, or it is refused without a change. -/
theorem post_done_or_stuck {c : Constraint} (hfirst : σ.plan.network.contains c.first)
    (hsecond : σ.plan.network.contains c.second) :
    (σ.plan.network.admits c = true ∧ ∃ plan, Edit.post c σ.plan = .done () plan) ∨
      (σ.plan.network.admits c = false ∧
        Edit.post c σ.plan = .stuck (.inconsistent c) σ.plan) := by
  cases hadmits : σ.plan.network.admits c with
  | true => exact .inl ⟨rfl, _, Edit.post_eq_done.mpr ⟨⟨hfirst, hsecond⟩, hadmits, rfl⟩⟩
  | false =>
    exact .inr ⟨rfl, Edit.post_eq_stuck.mpr
      ⟨⟨hfirst, hsecond⟩, by simp [hadmits], rfl, rfl⟩⟩

/-- **What posting promises, whatever the bounds.** A constraint that is refused has no solution
together with those taken, and its refusal changes nothing; as long as the constraints taken have a
solution, each timepoint is at distance 0 from itself and its earliest date is not after its latest.
If moreover nothing was lost, then the constraints taken have a solution, and every constraint that
has none together with them is refused. -/
theorem Taking.consistent (h : Taking P horizon σ) (hh : ∀ k, horizon = some k → 0 ≤ k) :
    ((∃ date, σ.Solves date) → σ.plan.network.Coherent) ∧
    (∀ c : Constraint, σ.plan.network.contains c.first → σ.plan.network.contains c.second →
      (∃ plan, Edit.post c σ.plan = .done () plan) ∨
        Edit.post c σ.plan = .stuck (.inconsistent c) σ.plan ∧
          ¬ ∃ date, σ.Solves date ∧ c.Holds date) ∧
    ((∀ k, horizon = some k → k < Distance.ceiling) →
      Taking (fun net c => c.LosslessIn net) horizon σ →
      (∃ date, σ.Solves date) ∧ σ.plan.network.Coherent ∧
      ∀ c : Constraint, σ.plan.network.contains c.first → σ.plan.network.contains c.second →
        (¬ ∃ date, σ.Solves date ∧ c.Holds date) →
          Edit.post c σ.plan = .stuck (.inconsistent c) σ.plan) := by
  have hrelaxed := (h.relaxed hh).now
  have hfits : ∀ date, σ.Solves date → σ.plan.network.Fits date := fun date hdate =>
    hrelaxed.fits date (Network.forall_windows_append.mpr hdate)
  refine ⟨fun ⟨date, hdate⟩ => hrelaxed.coherent ⟨date, hfits date hdate⟩,
    fun c hfirst hsecond => ?_, fun hceiling hlossless => ?_⟩
  · -- a refusal is final: dates that solve everything would be admitted
    rcases post_done_or_stuck hfirst hsecond with ⟨-, hdone⟩ | ⟨hadmits, hstuck⟩
    · exact .inl hdone
    · refine .inr ⟨hstuck, fun ⟨date, hdate, hc⟩ => ?_⟩
      simp [(hfits date hdate).admits hc] at hadmits
  · -- if nothing was lost the network is exact, and it admits what has a solution only
    have hfaithful := (hlossless.faithful fun k hk => ⟨hh k hk, hceiling k hk⟩).now
    have hrep := hfaithful.represents
    have hsolves : ∀ date, σ.Solves date ↔ σ.plan.network.Fits date := fun date =>
      Network.forall_windows_append.symm.trans (hrep.fits_iff date).symm
    refine ⟨by simpa only [hsolves] using hrep.solvable, hrelaxed.coherent hrep.solvable,
      fun c hfirst hsecond hnone => ?_⟩
    rcases post_done_or_stuck hfirst hsecond with ⟨hadmits, -⟩ | ⟨-, hstuck⟩
    · simp only [hsolves] at hnone
      exact absurd ((hrep.closed.admits_iff hrep.solvable hfirst hsecond).mp hadmits) hnone
    · exact hstuck

/-- Half the range of the clocks, rounded up: twice this is cut off. -/
def half : Int := 4611686018427387904

/-- With bounds of this size no sum is cut off, and a constraint is refused that would put the first
timepoint back to the origin. -/
theorem consistent_half : ∃ σ, Taking (fun net c => c.LosslessIn net) none σ ∧
    σ.taken = [.exactly .origin ⟨1⟩ half] ∧ σ.plan.network.Coherent ∧
    Edit.post ⟨⟨1⟩, .origin, 0, none⟩ σ.plan =
      .stuck (.inconsistent ⟨⟨1⟩, .origin, 0, none⟩) σ.plan := by
  have empty : Taking (fun net c => c.LosslessIn net) none (start none) := .start
  have first := empty.step (r := .addTimepoint) (fun _ h => by cases h) rfl
  have sq := (first.relaxed (by simp)).now.square
  have final := first.step (r := .post (.exactly .origin ⟨1⟩ half))
    (fun c hc _ => by
      obtain rfl := Request.post.inj hc
      -- the distances are written out, and none of the sums is cut off
      refine ⟨fun hi hhi => ?_, (sq.bound _).lossless_of_all rfl⟩
      obtain rfl := Option.some.inj hhi
      exact sq.lossless_of_all rfl) rfl
  have hnone : ∀ k, (none : Option Int) = some k → 0 ≤ k := by simp
  obtain ⟨-, -, hlossless⟩ := final.consistent hnone
  obtain ⟨-, hcoherent, hrefused⟩ := hlossless (by simp) final
  -- the constraint back to the origin has no solution, as timepoint 1 is at `half`
  refine ⟨_, final, rfl, hcoherent, hrefused _ rfl rfl ?_⟩
  rintro ⟨date, hdate, hc⟩
  have h₁ := hdate.1 (.exactly .origin ⟨1⟩ half) (by decide)
  have h₂ := hc.1
  rw [Constraint.holds_exactly] at h₁
  simp only [half] at *
  omega

/-- **A cycle of negative length that is taken.** Timepoint 3 is at most twice `half` after the
origin, but this length is cut off. When it is put later than that by way of timepoint 2, the
distance of timepoint 1 from itself gets negative, and its earliest date is after its latest. -/
theorem exists_negative_cycle : ∃ σ c plan, Reachable 4 (2 ^ 63 - 1) none σ ∧
    c.Within (2 ^ 63 - 1) ∧ (¬ ∃ date, σ.Solves date ∧ c.Holds date) ∧
    Edit.post c σ.plan = .done () plan ∧ plan.network.contains ⟨1⟩ ∧
    plan.network.distance ⟨1⟩ ⟨1⟩ = .finite (-1) ∧
    plan.network.latest ⟨1⟩ = some half ∧ plan.network.earliest ⟨1⟩ = half + 1 := by
  have empty : Reachable 4 (2 ^ 63 - 1) none (start none) := .start (by decide) (by simp)
  have first := empty.step (r := .addTimepoint) trivial rfl (by decide)
  have second := first.step (r := .addTimepoint) trivial rfl (by decide)
  have third := second.step (r := .addTimepoint) trivial rfl (by decide)
  have up₁ := third.step (r := .post ⟨.origin, ⟨1⟩, 0, some half⟩)
    (by simp [Request.Within, Constraint.Within, half]) rfl (by decide)
  have up₃ := up₁.step (r := .post ⟨⟨1⟩, ⟨3⟩, 0, some half⟩)
    (by simp [Request.Within, Constraint.Within, half]) rfl (by decide)
  have above₂ := up₃.step (r := .post ⟨.origin, ⟨2⟩, half + 1, none⟩)
    (by simp [Request.Within, Constraint.Within, half]) rfl (by decide)
  -- the two upper bounds add up to the ceiling, which reads as unbounded
  refine ⟨_, ⟨⟨2⟩, ⟨3⟩, half, none⟩, _, above₂, by simp [Constraint.Within, half], ?_, rfl, rfl,
    rfl, rfl, rfl⟩
  -- the constraints along the cycle add up to a contradiction for every date
  rintro ⟨date, hdate, hc⟩
  have h₁ := hdate.1 ⟨.origin, ⟨1⟩, 0, some half⟩ (by decide)
  have h₂ := hdate.1 ⟨⟨1⟩, ⟨3⟩, 0, some half⟩ (by decide)
  have h₃ := hdate.1 ⟨.origin, ⟨2⟩, half + 1, none⟩ (by decide)
  simp [Constraint.Holds] at *
  omega

end Session

end TemporalPlanning
