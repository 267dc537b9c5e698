import TemporalPlanning.Proofs.Search.Steps
import TemporalPlanning.Proofs.Sound

/-!
# Carrying out decisions

Carrying out a decision that suits, checking the capacities and confirming the reservations keeps a
partial plan sound (`PartialPlan.Sound.apply`), because every step does. A decision creates at most
one token.
-/

namespace TemporalPlanning

namespace PartialPlan

variable {task : Task} {facts : Nat → Nat} {s s' : PartialPlan} {made : List ReservationId}

/-- A step keeps a partial plan sound as long as the network does not get too large. -/
theorem Sound.step (h : s.Sound task facts) (hm : task.model.WellFormed)
    (hs : task.Step s made s') (hsize : s'.network.size ≤ Network.sizeLimit) :
    s'.Sound task facts := by
  cases hs with
  | place hs =>
    obtain ⟨_, _, placed, -⟩ := Edit.place_footprint h.tidy.size_eq hs
    -- the two timepoints of the token are still within the limit
    have hgrown := placed.size_eq
    exact h.place hm (by omega) hs
  | linkTo hasks hrelation hsupplies hs => exact h.linkTo hasks hrelation hsupplies hs
  | reserveFor hasks hres hmatch hroom hs => exact h.reserveFor hasks hres hmatch hroom hs
  | serveGoal hgoal ht htl hstate hs => exact h.serveGoal hgoal ht htl hstate hs
  | order _ _ hs => exact h.post (Network.within_precedes _ _) hs
  | addTimeline hnew hname hs => exact (h.addTimeline hnew hname hs).1
  | addResource hnew hname hs => exact (h.addResource hnew hname hs).1

/-- Steps keep a partial plan sound as long as its network is not too large. -/
theorem Sound.steps (h : s.Sound task facts) (hm : task.model.WellFormed)
    (hs : task.Steps s made s') (hsize : s'.network.size ≤ Network.sizeLimit) :
    s'.Sound task facts := by
  induction hs with
  | refl => exact h
  | tail hs hstep ih =>
    have hgrown := (h.tidy.steps hs).size_le_steps hstep.steps
    exact (ih (hgrown.trans hsize)).step hm hstep hsize

/-- Carrying out a decision that suits keeps a partial plan sound, and creates at most one token. -/
theorem Sound.carryOut (h : s.Sound task facts) (hm : task.model.WellFormed)
    (hsize : s.network.size + 1 < Network.sizeLimit) {d : Decision} (hd : d.Suits task s)
    (hs : task.carryOut d s = .done made s') :
    s'.Sound task facts ∧ s'.network.size ≤ s.network.size + 2 := by
  obtain ⟨hsteps, hgrown⟩ := h.tidy.carryOut_steps hd hs
  exact ⟨h.steps hm hsteps (by omega), hgrown⟩

/-- A decision leaves timepoints where they are, and creates at most one token. -/
theorem Tidy.size_apply (h : s.Tidy task.model facts) {d : Decision} (hd : d.Suits task s)
    {u : Unit} (hs : task.apply d s = .done u s') :
    s.network.size ≤ s'.network.size ∧ s'.network.size ≤ s.network.size + 2 := by
  obtain ⟨made, s₁, hsteps, hgrown, -, hcommit⟩ := h.apply_steps hd hs
  rw [PartialPlan.network_congr (commitAll_eq_done hcommit).1]
  exact ⟨h.size_le_steps hsteps, hgrown⟩

/-- **Carrying out a repair keeps a partial plan sound** as long as the network does not get too
large. -/
theorem Sound.of_apply (h : s.Sound task facts) (hm : task.model.WellFormed) {d : Decision}
    (hd : d.Suits task s) {u : Unit} (hs : task.apply d s = .done u s')
    (hsize : s'.network.size ≤ Network.sizeLimit) : s'.Sound task facts := by
  obtain ⟨made, s₁, hsteps, -, -, hcommit⟩ := h.tidy.apply_steps hd hs
  rw [PartialPlan.network_congr (commitAll_eq_done hcommit).1] at hsize
  exact of_commitAll (fun _ _ _ _ h hs => h.commit hs) (h.steps hm hsteps hsize) hcommit

/-- Carrying out a repair keeps a partial plan sound where there is room for one more token. -/
theorem Sound.apply (h : s.Sound task facts) (hm : task.model.WellFormed)
    (hsize : s.network.size + 1 < Network.sizeLimit) {d : Decision} (hd : d.Suits task s)
    {u : Unit} (hs : task.apply d s = .done u s') :
    s'.Sound task facts ∧ s'.network.size ≤ s.network.size + 2 := by
  obtain ⟨-, hgrown⟩ := h.tidy.size_apply hd hs
  exact ⟨h.of_apply hm hd hs (by omega), hgrown⟩

/-! ### Solutions -/

/-- A step takes solutions away, and adds none. Every kind of step only posts constraints or adds
timepoints, and dates for the larger network are dates for the smaller one. -/
theorem Sound.fits_of_step (h : s.Sound task facts) (hm : task.model.WellFormed)
    (hs : task.Step s made s') (hsize : s'.network.size ≤ Network.sizeLimit)
    {date : Timepoint → Int} (hdate : s'.network.Fits date) : s.network.Fits date := by
  -- some steps post constraints, and the others leave the network as it is
  cases hs with
  | place hs =>
    obtain ⟨_, _, placed, -⟩ := Edit.place_footprint h.tidy.size_eq hs
    have hgrown := placed.size_eq
    obtain ⟨_, _, -, -, hfits⟩ := Edit.place_eq_done h.ready hm (by omega) hs
    exact ((hfits date).mp hdate).1
  | linkTo _ _ _ hs =>
    obtain ⟨_, _, -, -, hfits⟩ := Task.linkTo_eq_done h.ready.steady hs
    exact ((hfits date).mp hdate).1
  -- the book and the goals are kept apart from the network
  | reserveFor _ _ _ _ hs =>
    obtain ⟨_, reserved⟩ := Task.reserveFor_eq_done hs
    rwa [network, reserved.net_eq] at hdate
  | serveGoal _ _ _ _ hs =>
    obtain ⟨-, hnet, -⟩ := Task.serveGoal_eq_done hs
    rwa [network, hnet] at hdate
  | order _ _ hs =>
    obtain ⟨-, -, -, -, hfits⟩ := h.ready.steady.post (Network.within_precedes _ _) hs
    exact ((hfits date).mp hdate).1
  -- an object that is created has no timepoints
  | addTimeline hnew hname hs =>
    obtain ⟨-, hnet, -⟩ := h.tidy.addTimeline hnew hname hs
    rwa [network, hnet] at hdate
  | addResource _ _ hs =>
    obtain ⟨-, hnet, -⟩ := h.tidy.addResource hs
    rwa [network, hnet] at hdate

theorem Sound.fits_of_steps (h : s.Sound task facts) (hm : task.model.WellFormed)
    (hs : task.Steps s made s') (hsize : s'.network.size ≤ Network.sizeLimit)
    {date : Timepoint → Int} (hdate : s'.network.Fits date) : s.network.Fits date := by
  induction hs with
  | refl => exact hdate
  | tail hs hstep ih =>
    have hle := ((h.tidy.steps hs).size_le_steps hstep.steps).trans hsize
    exact ih hle ((h.steps hm hs hle).fits_of_step hm hstep hsize hdate)

/-- **A decision takes solutions away, and adds none.** -/
theorem Sound.fits_of_apply (h : s.Sound task facts) (hm : task.model.WellFormed) {d : Decision}
    (hd : d.Suits task s) {u : Unit} (hs : task.apply d s = .done u s')
    (hsize : s'.network.size ≤ Network.sizeLimit) {date : Timepoint → Int}
    (hdate : s'.network.Fits date) : s.network.Fits date := by
  obtain ⟨made, s₁, hsteps, -, -, hcommit⟩ := h.tidy.apply_steps hd hs
  rw [PartialPlan.network_congr (commitAll_eq_done hcommit).1]
    at hsize hdate
  exact h.fits_of_steps hm hsteps hsize hdate

end PartialPlan

end TemporalPlanning
