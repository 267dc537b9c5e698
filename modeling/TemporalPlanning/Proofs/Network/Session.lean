import TemporalPlanning.Proofs.Network.Posting
import TemporalPlanning.Proofs.Undo

/-!
# Sessions with a network

A session creates timepoints, posts constraints, takes marks and goes back to them, in any order.
Beside the partial plan a `Session` keeps what the network is meant to know: the constraints that
were taken and not taken back, and for each mark those of the time when it was set.

The network of a session is always the minimal network of these constraints and of the windows of
its timepoints (`Session.Sound`); one step keeps this (`Session.Sound.step`), and hence every run
does (`Session.Reachable.sound`). It follows that at any time the distances are exact, that posting
decides consistency, that computing all distances anew changes nothing and that every mark still set
can be reached (`Session.Reachable.exact`).
-/

namespace TemporalPlanning

/-- A session: the partial plan, the constraints taken, and the marks with the constraints of their
time. -/
structure Session where
  plan : PartialPlan
  taken : List Constraint
  marks : List (Nat × List Constraint)

/-- What a session can be asked to do. -/
inductive Request where
  | addTimepoint
  | post (c : Constraint)
  | mark
  /-- Goes back to the mark at a place of the list. -/
  | undo (place : Nat)

/-- The bounds of a posted constraint are at most `b` away from 0. -/
def Request.Within (b : Nat) : Request → Prop
  | .post c => c.Within b
  | _ => True

namespace Session

/-- The session with the origin alone. -/
def start (horizon : Option Int) : Session := ⟨.empty horizon 0, [], []⟩

/-- Carries out a request. A refused constraint is not taken; going back gives up the marks that
were set later. -/
def step (σ : Session) : Request → Except Fault Session
  | .addTimepoint =>
    -- an edit that gets stuck is a step as well, to the plan that it leaves
    match Edit.addTimepoint σ.plan with
    | .done _ plan => .ok { σ with plan }
    | .stuck _ plan => .ok { σ with plan }
    | .forbidden why => .error why
  | .post c =>
    match Edit.post c σ.plan with
    | .done () plan => .ok { σ with plan, taken := c :: σ.taken }
    | .stuck _ plan => .ok { σ with plan }
    | .forbidden why => .error why
  | .mark => .ok { σ with marks := (σ.plan.net.mark, σ.taken) :: σ.marks }
  | .undo place =>
    match σ.marks[place]? with
    | none => .error .outOfRange
    | some (m, taken) =>
      (σ.plan.undoNetwork m).map fun plan => ⟨plan, taken, σ.marks.filter (·.1 ≤ m)⟩

/-- The sessions with at most `n` timepoints and bounds of at most `b`. -/
inductive Reachable (n b : Nat) (horizon : Option Int) : Session → Prop where
  | start (hn : 1 ≤ n) (hh : ∀ h, horizon = some h → 0 ≤ h ∧ h ≤ b) :
    Reachable n b horizon (start horizon)
  | step {σ σ' : Session} {r : Request} (h : Reachable n b horizon σ) (hr : r.Within b)
    (hσ : σ.step r = .ok σ') (hn : σ'.plan.network.size ≤ n) : Reachable n b horizon σ'

/-- Dates that obey the constraints taken and the windows of all timepoints. -/
def Solves (σ : Session) (date : Timepoint → Int) : Prop :=
  (∀ c ∈ σ.taken, c.Holds date) ∧
    ∀ t, σ.plan.network.contains t → (TrackedNetwork.window σ.plan.network t).Holds date

end Session

/-! ### The network of a session -/

namespace Network

/-- The windows of all timepoints. -/
def windows (net : Network) : List Constraint := net.timepoints.map (TrackedNetwork.window net)

/-- The windows of a network are those of its timepoints. -/
theorem mem_windows {net : Network} {c : Constraint} :
    c ∈ net.windows ↔ ∃ t, net.contains t ∧ TrackedNetwork.window net t = c := by
  simp only [windows, List.mem_map, mem_timepoints]

/-- Dates obey the windows and what was taken exactly if they obey what was taken and put every
timepoint in its window. -/
theorem forall_windows_append {net : Network} {date : Timepoint → Int} {taken : List Constraint} :
    (∀ c ∈ net.windows ++ taken, c.Holds date) ↔ (∀ c ∈ taken, c.Holds date) ∧
      ∀ t, net.contains t → (TrackedNetwork.window net t).Holds date := by
  rw [List.forall_mem_append, and_comm]
  refine and_congr_right' ⟨fun hw t ht => hw _ (mem_windows.mpr ⟨t, ht, rfl⟩), fun hw c hc => ?_⟩
  obtain ⟨t, ht, rfl⟩ := mem_windows.mp hc
  exact hw t ht

/-- Networks with the same timepoints and the same horizon give the same windows. -/
theorem windows_congr {net net' : Network} (hsize : net'.size = net.size)
    (hhorizon : net'.horizon = net.horizon) : net'.windows = net.windows := by
  simp only [windows, timepoints, hsize, TrackedNetwork.window_congr hhorizon]

/-- A network with one timepoint more has one window more, at the end of the list. -/
theorem windows_of_size_eq_succ {net net' : Network} (hsize : net'.size = net.size + 1)
    (hhorizon : net'.horizon = net.horizon) :
    net'.windows = net.windows ++ [TrackedNetwork.window net net.next] := by
  simp only [windows, timepoints, hsize, TrackedNetwork.window_congr hhorizon, List.range_succ,
    List.map_append, List.map_cons, List.map_nil, next]

/-- The minimal network does not depend on the order of the constraints. -/
theorem Represents.of_mem_iff {net : Network} {cs cs' : List Constraint} (h : net.Represents cs)
    (hmem : ∀ c, c ∈ cs' ↔ c ∈ cs) : net.Represents cs' :=
  h.congr (fun _ => ⟨fun hc c hc' => hc c ((hmem c).mp hc'),
    fun hc c hc' => hc c ((hmem c).mpr hc')⟩) fun c hc => h.contains c ((hmem c).mp hc)

/-- In the beginning there is one window, that of the origin. The windows are written in front of
the constraints taken, in the form in which all networks of a session are described. -/
theorem represents_windows_origin {horizon : Option Int} (hh : ∀ k, horizon = some k → 0 ≤ k) :
    (Network.origin horizon).Represents ((Network.origin horizon).windows ++ []) := by
  refine (Represents.origin horizon).congr (fun date => ?_) fun c hc => ?_
  · simp only [List.append_nil, List.not_mem_nil, false_implies, implies_true, true_iff]
    -- the origin's own window is the only one, and it asks nothing
    intro c hc
    obtain ⟨t, ht, rfl⟩ := mem_windows.mp hc
    obtain rfl := eq_origin_of_contains ht
    refine ⟨by simp [TrackedNetwork.window], fun hi hhi => ?_⟩
    simpa [TrackedNetwork.window] using hh hi hhi
  · rw [List.append_nil] at hc
    obtain ⟨t, ht, rfl⟩ := mem_windows.mp hc
    exact ⟨(Represents.origin horizon).closed.square.contains_origin, ht⟩

/-- The order in which windows and constraints are listed does not matter. -/
theorem mem_windows_append_cons {net : Network} {c c' : Constraint} {taken : List Constraint} :
    c' ∈ net.windows ++ c :: taken ↔ c' ∈ c :: (net.windows ++ taken) := by
  simp only [List.mem_append, List.mem_cons]
  tauto

/-- A network of at most `n` timepoints is the minimal network of the constraints `taken`, with
bounds up to `b`, and of its windows. -/
structure Minimal (n b : Nat) (horizon : Option Int) (net : Network) (taken : List Constraint) :
    Prop where
  represents : net.Represents (net.windows ++ taken)
  within : ∀ c ∈ taken, c.Within b
  size_le : net.size ≤ n
  horizon_eq : net.horizon = horizon

variable {n b : Nat} {horizon : Option Int} {net : TrackedNetwork} {taken : List Constraint}

/-- The windows are constraints within the bound of a session, as its horizon is. -/
theorem Minimal.windows_within {net : Network} (h : net.Minimal n b horizon taken)
    (hh : ∀ h, horizon = some h → 0 ≤ h ∧ h ≤ b) : ∀ c ∈ net.windows, c.Within b := by
  intro c hc
  obtain ⟨t, -, rfl⟩ := mem_windows.mp hc
  refine ⟨by simp [TrackedNetwork.window], fun hi hhi => ?_⟩
  have := hh hi (h.horizon_eq.symm.trans hhi)
  omega

/-- The windows and what was taken are well scaled, as long as the number of timepoints times the
bound stays below a quarter of the range. -/
theorem Minimal.scaled {net : Network} (h : net.Minimal n b horizon taken)
    (hh : ∀ h, horizon = some h → 0 ≤ h ∧ h ≤ b) (hnb : n * b ≤ 2 ^ 61) :
    net.Scaled (net.windows ++ taken) b := by
  have hsize : net.size * b ≤ 2 ^ 61 := (Nat.mul_le_mul_right b h.size_le).trans hnb
  have hb : b ≤ 2 ^ 61 := (Nat.le_mul_of_pos_left b h.represents.closed.square.size_pos).trans hsize
  refine ⟨⟨by omega, by simp only [quarter]; omega⟩, .inl ⟨?_, ?_⟩⟩
  · simp only [quarter]
    exact_mod_cast hsize
  · exact List.forall_mem_append.mpr ⟨h.windows_within hh, h.within⟩

/-- The solutions of the network are those of the constraints and of the windows. -/
theorem Minimal.fits_iff {net : Network} (h : net.Minimal n b horizon taken)
    (date : Timepoint → Int) :
    net.Fits date ↔ (∀ c ∈ taken, c.Holds date) ∧
      ∀ t, net.contains t → (TrackedNetwork.window net t).Holds date := by
  rw [h.represents.fits_iff, forall_windows_append]

/-- A session starts with a minimal network that has taken nothing. -/
theorem Minimal.origin (hn : 1 ≤ n) (hh : ∀ h, horizon = some h → 0 ≤ h ∧ h ≤ b) :
    (Network.origin horizon).Minimal n b horizon [] where
  represents := represents_windows_origin fun k hk => (hh k hk).1
  within := by simp
  size_le := hn
  horizon_eq := rfl

/-- No timepoint comes before the origin. -/
theorem Represents.windowed {net : Network} (h : net.Represents (net.windows ++ taken)) :
    ∀ t, net.contains t → (net.distance t .origin).AtMost 0 := by
  intro t ht
  refine h.closed.atMost_origin h.solvable ht fun date hdate => ?_
  have hwindow := (h.fits_iff date).mp hdate _
    (List.mem_append_left _ (mem_windows.mpr ⟨t, ht, rfl⟩))
  have := hwindow.1
  simp only [TrackedNetwork.window] at this
  omega

/-- A new timepoint brings its window with it. A session lists the windows of all of its timepoints
first, so that the new one joins that list. -/
theorem Represents.addTimepoint_windows (h : net.value.Represents (net.value.windows ++ taken))
    (ranged : net.value.Ranged)
    (hh : ∀ k, net.value.horizon = some k → 0 ≤ k ∧ k < Distance.ceiling) :
    net.addTimepoint.1.value.Represents (net.addTimepoint.1.value.windows ++ taken) ∧
      net.addTimepoint.1.value.size = net.value.size + 1 ∧
      net.addTimepoint.1.value.horizon = net.value.horizon := by
  obtain ⟨hrep, hsize, hhorizon⟩ := h.addTimepoint ranged h.windowed hh
  refine ⟨hrep.of_mem_iff fun c => ?_, hsize, hhorizon⟩
  simp only [windows_of_size_eq_succ hsize hhorizon, List.mem_append, List.mem_cons,
    List.not_mem_nil, or_false]
  tauto

/-- A constraint that is posted leaves the windows alone. -/
theorem Represents.enforce_windows {c : Constraint}
    (h : (net.enforce c).value.Represents (c :: (net.value.windows ++ taken))) :
    (net.enforce c).value.Represents ((net.enforce c).value.windows ++ c :: taken) := by
  have hwindows := windows_congr (TrackedNetwork.size_enforce net c)
    (TrackedNetwork.horizon_enforce net c)
  rw [hwindows]
  exact h.of_mem_iff fun c' => mem_windows_append_cons

/-- A new timepoint keeps the network of a session minimal. The number of timepoints is bounded in
advance, and with it the size of every distance. -/
theorem Minimal.addTimepoint (h : net.value.Minimal n b horizon taken)
    (hh : ∀ h, horizon = some h → 0 ≤ h ∧ h ≤ b) (hnb : n * b ≤ 2 ^ 61)
    (hn : net.addTimepoint.1.value.size ≤ n) :
    net.addTimepoint.1.value.Minimal n b horizon taken := by
  have hs := h.scaled hh hnb
  have hb := hs.1.2
  obtain ⟨hrep, hsize, hhorizon⟩ := h.represents.addTimepoint_windows
    (h.represents.within hs).ranged fun k hk => by
      -- the horizon is within the bound, so the window does not saturate
      have := hh k (h.horizon_eq.symm.trans hk)
      simp only [quarter, Distance.ceiling] at *
      omega
  exact ⟨hrep, h.within, hn, hhorizon.trans h.horizon_eq⟩

/-- A constraint that is admitted leads to the minimal network with it. What was taken before stays
in the list, which is what a return to a mark can go back to. -/
theorem Minimal.enforce (h : net.value.Minimal n b horizon taken)
    (hh : ∀ h, horizon = some h → 0 ≤ h ∧ h ≤ b) (hnb : n * b ≤ 2 ^ 61) {c : Constraint}
    (hc : c.Within b) (hfirst : net.value.contains c.first) (hsecond : net.value.contains c.second)
    (hadmits : net.value.admits c) :
    (net.enforce c).value.Minimal n b horizon (c :: taken) := by
  -- admission of a closed matrix is solvability together with the constraint
  have feasible :=
    (h.represents.closed.admits_iff h.represents.solvable hfirst hsecond).mp hadmits
  have hrep := (h.represents.enforce (h.scaled hh hnb) hc hfirst hsecond feasible).1
  refine ⟨hrep.enforce_windows, List.forall_mem_cons.mpr ⟨hc, h.within⟩, ?_, ?_⟩
  · rw [TrackedNetwork.size_enforce]
    exact h.size_le
  · rw [TrackedNetwork.horizon_enforce]
    exact h.horizon_eq

end Network

/-! ### What holds throughout a session -/

namespace Session

variable {σ σ' : Session} {P : Network → List Constraint → Prop}

/-- A property of the network and of the constraints taken holds now, and held at each mark. -/
structure Throughout (P : Network → List Constraint → Prop) (σ : Session) : Prop where
  now : P σ.plan.network σ.taken
  marks : ∀ m ∈ σ.marks, ∃ net : TrackedNetwork, σ.plan.net.undoTo? m.1 = some net ∧
    P net.value m.2

/-- Marks are not lost by going on. -/
theorem Throughout.marks_of_extends (h : σ.Throughout P) {net' : TrackedNetwork}
    (hnet : σ.plan.net.Extends net') : ∀ m ∈ σ.marks, ∃ net : TrackedNetwork,
      net'.undoTo? m.1 = some net ∧ P net.value m.2 := by
  intro m hm
  obtain ⟨net, hundo, hP⟩ := h.marks m hm
  exact ⟨net, hnet.undoTo?_eq_some hundo, hP⟩

/-- A property that new timepoints and posted constraints keep holds on after any request. Marks and
returns need no case of their own: the property held at each mark when it was made, and returning
restores exactly that network. -/
theorem Throughout.step (h : σ.Throughout P) {r : Request} (hσ : σ.step r = .ok σ')
    (addTimepoint : r = .addTimepoint → P σ.plan.net.addTimepoint.1.value σ.taken)
    (post : ∀ c, r = .post c → σ.plan.network.contains c.first →
      σ.plan.network.contains c.second → σ.plan.network.admits c →
      P (σ.plan.net.enforce c).value (c :: σ.taken)) : σ'.Throughout P := by
  cases r with
  | addTimepoint =>
    obtain rfl := Except.ok.inj hσ
    exact ⟨addTimepoint rfl, h.marks_of_extends (TrackedNetwork.extends_addTimepoint _)⟩
  | post c =>
    simp only [Session.step] at hσ
    split at hσ
    · -- a constraint that was taken is a change on top, one that was refused is none
      next plan hpost =>
      obtain rfl := Except.ok.inj hσ
      obtain ⟨⟨hfirst, hsecond⟩, hadmits, rfl⟩ := Edit.post_eq_done.mp hpost
      exact ⟨post c rfl hfirst hsecond hadmits,
        h.marks_of_extends (TrackedNetwork.extends_enforce _ _)⟩
    · next plan hpost =>
      obtain rfl := Except.ok.inj hσ
      obtain ⟨-, -, -, rfl⟩ := Edit.post_eq_stuck.mp hpost
      exact h
    · exact absurd hσ (by simp)
  -- a new mark remembers the network as it is
  | mark =>
    obtain rfl := Except.ok.inj hσ
    exact ⟨h.now, List.forall_mem_cons.mpr ⟨⟨σ.plan.net, Trailed.undoTo?_mark _, h.now⟩, h.marks⟩⟩
  | undo place =>
    simp only [Session.step] at hσ
    split at hσ
    · exact absurd hσ (by simp)
    · next m taken hplace =>
      obtain ⟨plan, hplan, rfl⟩ := Fault.map_eq_ok.mp hσ
      -- what lies below the mark is not touched by going back to it
      obtain ⟨net, hundo, hP⟩ := h.marks _ (List.mem_of_getElem? hplace)
      obtain ⟨net', hundo', rfl⟩ := PartialPlan.undoNetwork_eq_ok.mp hplan
      obtain rfl : net = net' := Option.some.inj (hundo.symm.trans hundo')
      refine ⟨hP, fun m' hm' => ?_⟩
      obtain ⟨hmem, hle⟩ := List.mem_filter.mp hm'
      obtain ⟨net', hundo', hP'⟩ := h.marks m' hmem
      refine ⟨net', ?_, hP'⟩
      -- an earlier mark is gone back to from here as well
      rw [Trailed.undoTo?_of_undoTo? hundo (by simpa using hle)]
      exact hundo'

end Session

/-! ### Every session is sound -/

namespace Session

variable {n b : Nat} {horizon : Option Int} {σ σ' : Session}

/-- The network is minimal for the constraints taken, and so is the one of each mark. -/
structure Sound (n b : Nat) (horizon : Option Int) (σ : Session) : Prop where
  minimal : σ.plan.network.Minimal n b horizon σ.taken
  marks : ∀ m ∈ σ.marks, ∃ net : TrackedNetwork, σ.plan.net.undoTo? m.1 = some net ∧
    net.value.Minimal n b horizon m.2

/-- That a session is sound is a property of its network now and at all its marks. -/
theorem sound_iff_throughout :
    σ.Sound n b horizon ↔ σ.Throughout fun net taken => net.Minimal n b horizon taken :=
  ⟨fun h => ⟨h.minimal, h.marks⟩, fun h => ⟨h.now, h.marks⟩⟩

/-- **Each request keeps a session sound.** -/
theorem Sound.step (h : σ.Sound n b horizon) (hh : ∀ h, horizon = some h → 0 ≤ h ∧ h ≤ b)
    (hnb : n * b ≤ 2 ^ 61) {r : Request} (hr : r.Within b) (hσ : σ.step r = .ok σ')
    (hn : σ'.plan.network.size ≤ n) : σ'.Sound n b horizon := by
  refine sound_iff_throughout.mpr ((sound_iff_throughout.mp h).step hσ ?_ ?_)
  · rintro rfl
    obtain rfl := Except.ok.inj hσ
    exact h.minimal.addTimepoint hh hnb hn
  · rintro c rfl hfirst hsecond hadmits
    exact h.minimal.enforce hh hnb hr hfirst hsecond hadmits

/-- **Every session that can be reached is sound.** -/
theorem Reachable.sound (hnb : n * b ≤ 2 ^ 61) (h : Reachable n b horizon σ) :
    (∀ h, horizon = some h → 0 ≤ h ∧ h ≤ b) ∧ σ.Sound n b horizon := by
  induction h with
  | start hn hh => exact ⟨hh, Network.Minimal.origin hn hh, by simp [Session.start]⟩
  | step _ hr hσ hn ih => exact ⟨ih.1, ih.2.step ih.1 hnb hr hσ hn⟩

/-- **The network of a session is exact.** It has solutions, and every distance is the least upper
bound of the differences that they give to its timepoints, infinite if these are unbounded. A
constraint is taken if some solution obeys it, and otherwise refused without a change. Computing all
distances anew changes nothing, and every mark still set can be reached. -/
theorem Reachable.exact (hnb : n * b ≤ 2 ^ 61) (h : Reachable n b horizon σ) :
    (∃ date, σ.Solves date) ∧
    (∀ t u, σ.plan.network.contains t → σ.plan.network.contains u →
      IsLUB {x : WithTop Int | ∃ date, σ.Solves date ∧ x = ((date u - date t : Int) : WithTop Int)}
        (σ.plan.network.distance t u).toWithTop) ∧
    (∀ t, σ.plan.network.contains t → σ.plan.network.distance t t = .finite 0) ∧
    (∀ t u v, (σ.plan.network.distance t v).toWithTop ≤
      (σ.plan.network.distance t u).toWithTop + (σ.plan.network.distance u v).toWithTop) ∧
    (∀ c : Constraint, c.Within b → σ.plan.network.contains c.first →
      σ.plan.network.contains c.second →
      ((∃ date, σ.Solves date ∧ c.Holds date) → ∃ plan, Edit.post c σ.plan = .done () plan) ∧
      ((¬ ∃ date, σ.Solves date ∧ c.Holds date) →
        Edit.post c σ.plan = .stuck (.inconsistent c) σ.plan)) ∧
    Edit.propagate σ.plan = .done () σ.plan ∧
    ∀ place < σ.marks.length, ∃ σ', σ.step (.undo place) = .ok σ' := by
  obtain ⟨hh, hminimal, hmarks⟩ := h.sound hnb
  have hrep := hminimal.represents
  have closed := hrep.closed
  have hsolves : ∀ date, σ.Solves date ↔ σ.plan.network.Fits date :=
    fun date => (hminimal.fits_iff date).symm
  -- the test by which a constraint is taken or refused asks for a solution that obeys it
  have hadmits : ∀ c : Constraint, σ.plan.network.contains c.first →
      σ.plan.network.contains c.second →
        (σ.plan.network.admits c ↔ ∃ date, σ.Solves date ∧ c.Holds date) := by
    intro c hfirst hsecond
    simp only [hsolves]
    exact closed.admits_iff hrep.solvable hfirst hsecond
  refine ⟨?_, fun t u ht hu => ?_, closed.diagonal, fun t u v => ?_,
    fun c _ hfirst hsecond => ⟨fun hc => ?_, fun hc => ?_⟩, ?_, fun place hplace => ?_⟩
  · simpa only [hsolves] using hrep.solvable
  · simp only [hsolves]
    exact closed.isLUB_distance hrep.solvable ht hu
  · exact closed.toWithTop_triangle t u v
  · exact ⟨_, Edit.post_eq_done.mpr ⟨⟨hfirst, hsecond⟩, (hadmits c hfirst hsecond).mpr hc, rfl⟩⟩
  · exact Edit.post_eq_stuck.mpr
      ⟨⟨hfirst, hsecond⟩, fun ha => hc ((hadmits c hfirst hsecond).mp ha), rfl, rfl⟩
  · -- a closed network has nothing to gain by propagating
    have hsame := closed.propagate (hrep.within (hminimal.scaled hh hnb))
    refine Edit.bind_eq_done.mpr ⟨none, σ.plan, Edit.onNetwork_eq_done.mpr ?_, rfl⟩
    rw [hsame]
    exact ⟨rfl, rfl⟩
  · -- the marks that are set are among those of the network
    obtain ⟨net, hundo, -⟩ := hmarks _ (List.getElem_mem hplace)
    refine ⟨⟨{ σ.plan with net }, σ.marks[place].2, σ.marks.filter (·.1 ≤ σ.marks[place].1)⟩, ?_⟩
    simp only [Session.step, List.getElem?_eq_getElem hplace]
    exact Fault.map_eq_ok.mpr ⟨_, PartialPlan.undoNetwork_eq_ok.mpr ⟨net, hundo, rfl⟩, rfl⟩

/-- With a horizon of 10, a token of length 3 to 5 starts at 7 at the latest, whatever was posted
before and taken back. -/
theorem exact_after_undo : ∃ σ, Reachable 3 10 (some 10) σ ∧ 3 * 10 ≤ 2 ^ 61 ∧
    σ.taken = [⟨⟨1⟩, ⟨2⟩, 3, some 5⟩] ∧ σ.plan.network.contains ⟨1⟩ ∧
    IsLUB {x : WithTop Int | ∃ date, σ.Solves date ∧
      x = ((date ⟨1⟩ - date .origin : Int) : WithTop Int)} ((7 : Int) : WithTop Int) := by
  have start : Reachable 3 10 (some 10) (start (some 10)) :=
    .start (by decide) fun h hh => by obtain rfl := Option.some.inj hh; decide
  have first := start.step (r := .addTimepoint) trivial rfl (by decide)
  have marked := first.step (r := .mark) trivial rfl (by decide)
  have posted := marked.step (r := .post (.exactly .origin ⟨1⟩ 9))
    (by simp [Request.Within, Constraint.Within, Constraint.exactly]) rfl (by decide)
  have undone := posted.step (r := .undo 0) trivial rfl (by decide)
  have second := undone.step (r := .addTimepoint) trivial rfl (by decide)
  have final := second.step (r := .post ⟨⟨1⟩, ⟨2⟩, 3, some 5⟩)
    (by simp [Request.Within, Constraint.Within]) rfl (by decide)
  -- the constraint that was posted after the mark is gone, and the second timepoint is a new one
  exact ⟨_, final, by decide, rfl, by decide,
    (Reachable.exact (by decide) final).2.1 .origin ⟨1⟩ rfl rfl⟩

end Session

end TemporalPlanning
