import TemporalPlanning.Proofs.Network.Saturation

/-!
# Walks along constraints

The bounds of a constraint are edges between its timepoints: its upper bound, if it has one, leads
forth and its lower bound leads back. A `Walk` follows such edges, and the least length of a walk,
over the integers, is the distance that the constraints really give to two timepoints (`shortest`).

However large the bounds are and whatever sums are cut off, no distance of a network is less than
the length of some walk (`Network.Walked`), because a sum that is cut off only gets longer. An edge
keeps this, and so does letting connections run through a pivot. Computing all distances anew is
the latter for every pivot (`TrackedNetwork.relaxAll_induction`); on a network whose sums were cut
off it does change distances, and these changes stay even where it finds the network inconsistent.

A `Session.History` is a session in which that may happen too. What it can rely on is
`Session.History.saturation_relaxes`: whatever is refused has no solution.
-/

namespace TemporalPlanning

/-! ### Walks -/

/-- A walk from `t` along the bounds of some constraints, with its end and its length. -/
inductive Walk (cs : List Constraint) (t : Timepoint) : Timepoint → Int → Prop where
  | stay : Walk cs t t 0
  | forth {c : Constraint} {x hi : Int} (h : Walk cs t c.first x) (hc : c ∈ cs)
    (hhi : c.hi = some hi) : Walk cs t c.second (x + hi)
  | back {c : Constraint} {x : Int} (h : Walk cs t c.second x) (hc : c ∈ cs) :
    Walk cs t c.first (x - c.lo)

/-- The least length of a walk between two timepoints. There is none if no walk leads there, and
walks get shorter without end if one of them meets a cycle of negative length. -/
noncomputable def shortest (cs : List Constraint) (t u : Timepoint) : WithBot (WithTop Int) :=
  sInf {x | ∃ y : Int, Walk cs t u y ∧ x = ((y : WithTop Int) : WithBot (WithTop Int))}

namespace Walk

variable {cs cs' : List Constraint} {t u v : Timepoint} {x y : Int}

theorem upper {c : Constraint} {hi : Int} (hc : c ∈ cs) (hhi : c.hi = some hi) :
    Walk cs c.first c.second hi := by
  simpa using Walk.stay.forth hc hhi

/-- A lower bound is an edge back, of the opposite length. -/
theorem lower {c : Constraint} (hc : c ∈ cs) : Walk cs c.second c.first (-c.lo) := by
  simpa using Walk.stay.back hc

theorem trans (h : Walk cs t u x) (h' : Walk cs u v y) : Walk cs t v (x + y) := by
  induction h' with
  | stay => simpa using h
  | forth _ hc hhi ih => simpa only [add_assoc] using ih.forth hc hhi
  | back _ hc ih => simpa only [add_sub_assoc] using ih.back hc

/-- Walks along some constraints are walks along more of them. -/
theorem mono (hcs : ∀ c ∈ cs, c ∈ cs') (h : Walk cs t u x) : Walk cs' t u x := by
  induction h with
  | stay => exact .stay
  | forth _ hc hhi ih => exact ih.forth (hcs _ hc) hhi
  | back _ hc ih => exact ih.back (hcs _ hc)

/-- Dates that obey the constraints differ by no more than the length of a walk. -/
theorem sub_le {date : Timepoint → Int} (hdate : ∀ c ∈ cs, c.Holds date) (h : Walk cs t u x) :
    date u - date t ≤ x := by
  induction h with
  | stay => omega
  -- forth along an upper bound, back along a lower one
  | forth _ hc hhi ih =>
    have := (hdate _ hc).2 _ hhi
    omega
  | back _ hc ih =>
    have := (hdate _ hc).1
    omega

end Walk

/-- The infimum of the lengths of all walks is at most some number exactly if one of them is:
lengths are whole numbers, so that an infimum that is not reached is no number at all. -/
theorem shortest_le_iff {cs : List Constraint} {t u : Timepoint} {x : Int} :
    shortest cs t u ≤ ((x : WithTop Int) : WithBot (WithTop Int)) ↔ ∃ y ≤ x, Walk cs t u y := by
  constructor
  · intro h
    by_contra hnone
    push Not at hnone
    -- otherwise every walk is longer by one at least
    have hlong : (((x + 1 : Int) : WithTop Int) : WithBot (WithTop Int)) ≤ shortest cs t u := by
      refine le_sInf ?_
      rintro _ ⟨y, hy, rfl⟩
      have : x + 1 ≤ y := by
        by_contra hlt
        exact hnone y (by omega) hy
      exact_mod_cast this
    have : x + 1 ≤ x := by exact_mod_cast hlong.trans h
    omega
  · -- a walk is no shorter than the shortest one
    rintro ⟨y, hyx, hy⟩
    have hle : shortest cs t u ≤ ((y : WithTop Int) : WithBot (WithTop Int)) :=
      sInf_le ⟨y, hy, rfl⟩
    exact hle.trans (by exact_mod_cast hyx)

/-- The number of a distance in the range of the clocks can be negated as a clock. -/
theorem Distance.toInt_neg_ofInt {x : Int} (h : -ceiling ≤ x ∧ x ≤ ceiling) :
    (-Int64.ofInt x).toInt = -x := by
  simp only [ceiling] at h
  rw [Int64.toInt_neg, Int64.toInt_ofInt_of_le (by omega) (by omega),
    Int.bmod_eq_of_le (by omega) (by omega)]

/-- Clock values of distances in the range lie between the ceiling and its negative, where unbounded
counts as the ceiling. -/
theorem Network.Ranged.toInt {net : Network} (h : net.Ranged) (t u : Timepoint) :
    -Distance.ceiling ≤ (net.distance t u).toInt ∧
      (net.distance t u).toInt ≤ Distance.ceiling := by
  cases hd : net.distance t u with
  | unbounded => exact ⟨by decide, le_rfl⟩
  | finite x => exact ⟨(h t u x hd).1, (h t u x hd).2.le⟩

/-! ### Letting connections run through a pivot -/

namespace TrackedNetwork

variable {net : TrackedNetwork}

/-- Whatever is cut off, running through a pivot leaves each distance as it was, or puts the sum
through the pivot in its place where this is tighter. -/
theorem distance_relaxThrough_or (sq : net.value.Square) (pivot first a b : Timepoint) :
    (relaxThrough pivot net first).value.distance a b = net.value.distance a b ∨
      (a = first ∧
        (net.value.distance first pivot + net.value.distance pivot b).tighter
          (net.value.distance a b) = true ∧
        (relaxThrough pivot net first).value.distance a b =
          net.value.distance first pivot + net.value.distance pivot b) := by
  unfold relaxThrough
  -- without a connection to the pivot nothing is done
  cases hthrough : net.value.distance first pivot with
  | unbounded => exact .inl rfl
  | finite through =>
    have hinto : (net.value.distance first pivot).AtMost through := by
      rw [hthrough]
      exact le_rfl
    have hfirst := (sq.contains_of_atMost hinto).1
    dsimp only
    -- a distance changes only if it is the one that some step lowers
    by_cases hstep : ∃ s ∈ net.value.lowerings first (.finite through) (net.value.distance pivot),
        a = s.first ∧ b = s.second
    · -- all lowerings start at `first` and lead by way of the pivot
      obtain ⟨s, hs, rfl, rfl⟩ := hstep
      obtain ⟨-, htighter, hs₁⟩ := mem_lowerings.mp hs
      have hsame : s.first = first := by rw [hs₁]
      refine .inr ⟨hsame, by rwa [hsame], ?_⟩
      refine distance_lowerAll_of_mem sq
        (fun _ u => .finite through + net.value.distance pivot u) (fun r hr => ?_)
        (fun r hr => ?_) hs
      · rw [(mem_lowerings.mp hr).2.2]
      · obtain ⟨hsecond, -, heq⟩ := mem_lowerings.mp hr
        rw [heq]
        exact ⟨hfirst, hsecond⟩
    · exact .inl (distance_lowerAll_of_forall_ne fun s hs h => hstep ⟨s, hs, h⟩)

end TrackedNetwork

/-! ### Distances are never shorter than walks -/

namespace Network

variable {cs cs' : List Constraint} {horizon : Option Int} {taken : List Constraint}

/-- Every distance is the length of a walk, or more. -/
def Walked (net : Network) (cs : List Constraint) : Prop :=
  ∀ t u x, (net.distance t u).AtMost x → ∃ y ≤ x, Walk cs t u y

/-- Distances that are no shorter than some walk are so if there are more constraints to walk along.
-/
theorem Walked.mono {net : Network} (h : net.Walked cs) (hcs : ∀ c ∈ cs, c ∈ cs') :
    net.Walked cs' := by
  intro t u x hx
  obtain ⟨y, hy, walk⟩ := h t u x hx
  exact ⟨y, hy, walk.mono hcs⟩

/-- Dates that obey the constraints fit the distances. -/
theorem Walked.fits {net : Network} (h : net.Walked cs) {date : Timepoint → Int}
    (hdate : ∀ c ∈ cs, c.Holds date) : net.Fits date := by
  intro t u x hx
  obtain ⟨y, hy, walk⟩ := h t u x hx
  exact (walk.sub_le hdate).trans hy

/-- In the first network the only distance is that of the walk that stays at the origin. -/
theorem Walked.origin : (Network.origin horizon).Walked cs := by
  intro t u x hx
  obtain ⟨rfl, rfl, hx₀⟩ := eq_origin_of_atMost hx
  exact ⟨0, hx₀, .stay⟩

/-- A new timepoint is reached by the walk that stays there, and no other distance is added. -/
theorem Walked.extend {net : Network} (h : net.Walked cs) (sq : net.Square) :
    net.extend.Walked cs := by
  intro t u x hx
  rcases sq.atMost_extend.mp hx with hold | ⟨rfl, rfl, hx₀⟩
  · exact h t u x hold
  · exact ⟨0, hx₀, .stay⟩

variable {net : TrackedNetwork}

/-- An edge that is a walk makes the distances lengths of walks, or more. Two walks and the edge
between them make one walk, and what saturates in the sum only makes the distance larger. -/
theorem Walked.addEdge (h : net.value.Walked cs) (sq : net.value.Square) {t u : Timepoint} {w : Int}
    (hw : Walk cs t u w) : (net.addEdge t u (.ofInt w)).value.Walked cs := by
  intro a b x hx
  rcases TrackedNetwork.distance_addEdge_or sq t u (.ofInt w) a b with heq | heq
  · exact h a b x (heq ▸ hx)
  · -- the sum through the edge may have been cut off, and then it is longer than its parts
    obtain ⟨y, v, z, hy, hv, hz, hle⟩ := TrackedNetwork.exists_of_atMost_through (heq ▸ hx)
    obtain ⟨y', hyy, toEdge⟩ := h _ _ _ hy
    obtain ⟨z', hzz, fromEdge⟩ := h _ _ _ hz
    have := Distance.le_of_atMost_ofInt hv
    exact ⟨y' + w + z', by omega, (toEdge.trans hw).trans fromEdge⟩

/-- Each distance that a constraint writes is a walk to its one end, along it, and on from its other
end, or it was cut off from below. -/
theorem Walked.enforce (h : net.value.Walked cs) (sq : net.value.Square) {c : Constraint}
    (hc : c ∈ cs) : (net.enforce c).value.Walked cs := by
  -- first the edge of the upper bound, if there is one, then that of the lower bound
  have hbound : (net.bound c).value.Walked cs := by
    unfold TrackedNetwork.bound
    split
    · next hi hhi => exact h.addEdge sq (.upper hc hhi)
    · exact h
  exact hbound.addEdge (sq.bound c) (.lower hc)

/-- Each distance that a pivot writes is a walk to it and a walk on from it, or it was cut off from
below. -/
theorem Walked.relaxThrough (h : net.value.Walked cs) (sq : net.value.Square)
    (pivot first : Timepoint) : (TrackedNetwork.relaxThrough pivot net first).value.Walked cs := by
  intro a b x hx
  rcases TrackedNetwork.distance_relaxThrough_or sq pivot first a b with heq | ⟨rfl, -, heq⟩
  · exact h a b x (heq ▸ hx)
  · -- two walks meet in the pivot
    obtain ⟨y, z, hy, hz, hle⟩ := Distance.exists_of_atMost_add (heq ▸ hx)
    obtain ⟨y', hyy, toPivot⟩ := h _ _ _ hy
    obtain ⟨z', hzz, fromPivot⟩ := h _ _ _ hz
    exact ⟨y' + z', by omega, toPivot.trans fromPivot⟩

/-- Sums through a pivot are cut off to the range like all others. -/
theorem Ranged.relaxThrough (h : net.value.Ranged) (sq : net.value.Square)
    (pivot first : Timepoint) : (TrackedNetwork.relaxThrough pivot net first).value.Ranged := by
  intro a b x hx
  rcases TrackedNetwork.distance_relaxThrough_or sq pivot first a b with heq | ⟨-, -, heq⟩
  · exact h a b x (heq ▸ hx)
  · exact Distance.range_of_add_eq (heq ▸ hx)

/-- What holds of a network whatever was cut off and computed anew: its distances are in the range
of the clocks, and none is less than the walks along the constraints `taken` and the windows. -/
structure Loose (horizon : Option Int) (net : Network) (taken : List Constraint) : Prop where
  square : net.Square
  ranged : net.Ranged
  horizon_eq : net.horizon = horizon
  walked : net.Walked (net.windows ++ taken)

/-- Whatever is posted later, the first network is no lower than its walks. -/
theorem Loose.origin (hh : ∀ k, horizon = some k → 0 ≤ k) :
    (Network.origin horizon).Loose horizon [] where
  square := (Represents.origin horizon).closed.square
  ranged := (Faithful.origin hh).ranged
  horizon_eq := rfl
  walked := .origin

/-- A constraint keeps the distances no lower than the walks, whatever its bounds are and whether or
not it is admitted. -/
theorem Loose.enforce (h : net.value.Loose horizon taken) (c : Constraint) :
    (net.enforce c).value.Loose horizon (c :: taken) where
  square := h.square.enforce c
  ranged := h.ranged.enforce h.square c
  horizon_eq := (TrackedNetwork.horizon_enforce _ _).trans h.horizon_eq
  walked := by
    rw [windows_congr (TrackedNetwork.size_enforce net c) (TrackedNetwork.horizon_enforce net c)]
    refine Walked.enforce (h.walked.mono fun c' hc' => ?_) h.square (by simp)
    exact mem_windows_append_cons.mpr (List.mem_cons_of_mem c hc')

/-- A new timepoint keeps the distances no lower than the walks, among which those along its window
are counted. -/
theorem Loose.addTimepoint (h : net.value.Loose horizon taken)
    (hh : ∀ k, horizon = some k → 0 ≤ k) : net.addTimepoint.1.value.Loose horizon taken := by
  have sqw : net.widen.value.Square := h.square.extend
  have hhorizon : (net.widen.enforce
      (TrackedNetwork.window net.widen.value net.value.next)).value.horizon = net.value.horizon :=
    TrackedNetwork.horizon_enforce _ _
  rw [h.square.addTimepoint_eq fun k hk => hh k (h.horizon_eq.symm.trans hk)]
  refine ⟨sqw.enforce _, Ranged.enforce (h.ranged.extend h.square) sqw _,
    hhorizon.trans h.horizon_eq, ?_⟩
  rw [windows_of_size_eq_succ (size_enforce_widen _) hhorizon]
  -- before its window is posted, the new timepoint is reached by no walk but the one that stays
  have hextend : net.widen.value.Walked
      ((net.value.windows ++ [TrackedNetwork.window net.value net.value.next]) ++ taken) := by
    refine (h.walked.extend h.square).mono fun c hc => ?_
    rw [List.append_assoc, List.mem_append]
    exact (List.mem_append.mp hc).imp_right (List.mem_append_right _)
  -- and posting the window is covered by its own two steps
  exact hextend.enforce sqw
    (List.mem_append_left _ (List.mem_append_right _ (List.mem_singleton.mpr rfl)))

/-- Relaxing through a pivot keeps the distances no lower than the walks. -/
theorem Loose.relaxThrough (h : net.value.Loose horizon taken) (pivot first : Timepoint) :
    (TrackedNetwork.relaxThrough pivot net first).value.Loose horizon taken where
  square := TrackedNetwork.square_relaxThrough h.square pivot first
  ranged := h.ranged.relaxThrough h.square pivot first
  horizon_eq := (TrackedNetwork.horizon_relaxThrough _ _ _).trans h.horizon_eq
  walked := by
    rw [windows_congr (TrackedNetwork.size_relaxThrough _ _ _)
      (TrackedNetwork.horizon_relaxThrough _ _ _)]
    exact h.walked.relaxThrough h.square pivot first

/-- **Computing all distances anew does not make them less than walks.** -/
theorem Loose.propagate (h : net.value.Loose horizon taken) :
    net.propagate.1.value.Loose horizon taken :=
  TrackedNetwork.relaxAll_induction (P := fun net => net.value.Loose horizon taken) h
    fun _ pivot first _ h => h.relaxThrough pivot first

/-- Propagating changes neither the timepoints nor the horizon, and so no window. -/
theorem windows_propagate : net.propagate.1.value.windows = net.value.windows :=
  TrackedNetwork.relaxAll_induction (P := fun net' => net'.value.windows = net.value.windows) rfl
    fun _ _ _ _ h => (windows_congr (TrackedNetwork.size_relaxThrough _ _ _)
      (TrackedNetwork.horizon_relaxThrough _ _ _)).trans h

/-- A network is not found inconsistent if some dates obey the constraints and the windows. -/
theorem Loose.propagate_eq_none (h : net.value.Loose horizon taken) {date : Timepoint → Int}
    (hdate : ∀ c ∈ net.value.windows ++ taken, c.Holds date) : net.propagate.2 = none := by
  have hfits : net.propagate.1.value.Fits date :=
    h.propagate.walked.fits (by rwa [windows_propagate])
  refine Option.map_eq_none_iff.mpr (List.find?_eq_none.mpr fun t _ htighter => ?_)
  -- a timepoint that comes before itself would have to have two dates
  cases hd : net.propagate.1.value.distance t t with
  | unbounded =>
    rw [show net.relaxAll.value.distance t t = .unbounded from hd] at htighter
    exact absurd htighter (by simp [Distance.tighter])
  | finite x =>
    rw [show net.relaxAll.value.distance t t = .finite x from hd] at htighter
    have := hfits t t x (by simp [hd])
    have : x < 0 := of_decide_eq_true htighter
    omega

end Network

/-! ### Sessions that compute distances anew -/

namespace Session

variable {horizon : Option Int} {σ : Session}

/-- The sessions with any bounds in which all distances may be computed anew at any time, whether
this finds the network consistent or not. -/
inductive History (horizon : Option Int) : Session → Prop where
  | start : History horizon (start horizon)
  | step {σ σ' : Session} {r : Request} (h : History horizon σ) (hσ : σ.step r = .ok σ') :
    History horizon σ'
  | propagate {σ : Session} {plan : PartialPlan} (h : History horizon σ)
    (hplan : Edit.propagate.LeadsTo σ.plan plan) : History horizon { σ with plan }

end Session

namespace Edit

variable {s s' : PartialPlan} {why : DeadEnd}

/-- Propagating is done if no diagonal entry got negative. A negative entry would be a cycle of
constraints that no dates satisfy, and the refusal is reported for the first timepoint that shows
one. -/
theorem propagate_eq_done {u : Unit} : Edit.propagate s = .done u s' ↔
    s.net.propagate.2 = none ∧ { s with net := s.net.propagate.1 } = s' := by
  unfold Edit.propagate
  refine bind_eq_done.trans ?_
  constructor
  · rintro ⟨bad?, s₁, hnet, h⟩
    obtain ⟨rfl, rfl⟩ := onNetwork_eq_done.mp hnet
    -- the edit goes on only if no contradiction has been found
    cases hbad : s.net.propagate.2 with
    | none => rw [hbad] at h; exact ⟨rfl, (pure_eq_done.mp h).2⟩
    | some c => rw [hbad] at h; exact absurd h stop_ne_done
  · rintro ⟨hbad, rfl⟩
    exact ⟨none, _, onNetwork_eq_done.mpr ⟨hbad, rfl⟩, rfl⟩

/-- Propagating gets stuck if some diagonal entry got negative, and keeps the distances that were
computed up to there. -/
theorem propagate_eq_stuck : Edit.propagate s = .stuck why s' ↔
    (∃ c, s.net.propagate.2 = some c ∧ .inconsistent c = why) ∧
      { s with net := s.net.propagate.1 } = s' := by
  unfold Edit.propagate
  refine bind_eq_stuck.trans ((or_iff_right onNetwork_ne_stuck).trans ?_)
  constructor
  · rintro ⟨bad?, s₁, hnet, h⟩
    obtain ⟨rfl, rfl⟩ := onNetwork_eq_done.mp hnet
    cases hbad : s.net.propagate.2 with
    | none => rw [hbad] at h; exact absurd h pure_ne_stuck
    | some c => rw [hbad] at h; obtain ⟨hwhy, hs⟩ := stop_eq_stuck.mp h; exact ⟨⟨c, rfl, hwhy⟩, hs⟩
  · rintro ⟨⟨c, hbad, rfl⟩, rfl⟩
    exact ⟨some c, _, onNetwork_eq_done.mpr ⟨hbad, rfl⟩, rfl⟩

/-- The network is left with all distances computed anew, whatever these show. -/
theorem eq_of_propagate (h : Edit.propagate.LeadsTo s s') :
    s' = { s with net := s.net.propagate.1 } := by
  rcases h with ⟨_, h⟩ | ⟨_, h⟩
  · exact (propagate_eq_done.mp h).2.symm
  · exact (propagate_eq_stuck.mp h).2.symm

end Edit

namespace Session

variable {horizon : Option Int} {σ : Session}

/-- **Whatever happens in a session, its distances are not less than walks**, nor were they at any
mark. -/
theorem History.loose (h : History horizon σ) (hh : ∀ k, horizon = some k → 0 ≤ k) :
    σ.Throughout (Network.Loose horizon) := by
  -- a refused constraint and a mark change nothing, and what was computed anew is on the trail
  induction h with
  | start => exact ⟨Network.Loose.origin hh, by simp [Session.start]⟩
  | step _ hσ ih =>
    exact ih.step hσ (fun _ => ih.now.addTimepoint hh) fun c _ _ _ _ => ih.now.enforce c
  | propagate _ hplan ih =>
    obtain rfl := Edit.eq_of_propagate hplan
    exact ⟨ih.now.propagate, ih.marks_of_extends (TrackedNetwork.extends_propagate _)⟩

/-- **Cutting sums off only relaxes.** Whatever a session posts, computes anew and takes back, each
distance is a clock whose negation is a clock, and it is not less than the shortest walk along the
constraints taken and the windows, cut off at the least clock. A constraint is refused only if no
solution of these obeys it, and the network is found inconsistent only if they have no solution. -/
theorem History.saturation_relaxes (h : History horizon σ) (hh : ∀ k, horizon = some k → 0 ≤ k) :
    (∀ t u, (-Distance.ceiling ≤ (σ.plan.network.distance t u).toInt ∧
        (σ.plan.network.distance t u).toInt ≤ Distance.ceiling) ∧
      (-Int64.ofInt (σ.plan.network.distance t u).toInt).toInt =
        -(σ.plan.network.distance t u).toInt) ∧
    (∀ t u, max (((-Distance.ceiling : Int) : WithTop Int) : WithBot (WithTop Int))
        (shortest (σ.plan.network.windows ++ σ.taken) t u) ≤
      (σ.plan.network.distance t u).toWithTop) ∧
    (∀ c why plan, Edit.post c σ.plan = .stuck why plan →
      ¬ ∃ date, σ.Solves date ∧ c.Holds date) ∧
    (∀ why plan, Edit.propagate σ.plan = .stuck why plan → ¬ ∃ date, σ.Solves date) := by
  have hloose := (h.loose hh).now
  refine ⟨fun t u => ?_, fun t u => ?_, fun c why plan hpost => ?_, fun why plan hpropagate => ?_⟩
  · -- the range of the clocks is symmetric, so that negation stays inside
    have hrange := hloose.ranged.toInt t u
    exact ⟨hrange, Distance.toInt_neg_ofInt hrange⟩
  · cases hd : σ.plan.network.distance t u with
    | unbounded => exact le_top
    | finite x =>
      have hlower := (hloose.ranged t u x hd).1
      refine max_le ?_ (shortest_le_iff.mpr (hloose.walked t u x (by simp [hd])))
      exact WithBot.coe_le_coe.mpr (WithTop.coe_le_coe.mpr hlower)
  · -- dates that solve what was taken fit all distances, and these admit what the dates obey
    rintro ⟨date, hdate, hc⟩
    have hfits := hloose.walked.fits (Network.forall_windows_append.mpr hdate)
    exact (Edit.post_eq_stuck.mp hpost).2.1 (hfits.admits hc)
  · rintro ⟨date, hdate⟩
    obtain ⟨⟨c, hbad, -⟩, -⟩ := Edit.propagate_eq_stuck.mp hpropagate
    have hnone := hloose.propagate_eq_none (Network.forall_windows_append.mpr hdate)
    exact absurd (hbad.symm.trans hnone) (by simp)

/-- Constraints with the least and the greatest clock among their bounds make a cycle of negative
length, of which one path was cut off when the last of them was taken. Computing all distances anew
finds it. -/
theorem saturation_relaxes_cycle : ∃ σ why plan, History none σ ∧
    σ.taken = [⟨⟨2⟩, ⟨3⟩, half, none⟩, ⟨.origin, ⟨2⟩, half + 1, some Distance.ceiling⟩,
      ⟨⟨1⟩, ⟨3⟩, 0, some half⟩, ⟨.origin, ⟨1⟩, -2 ^ 63, some half⟩] ∧
    max (((-Distance.ceiling : Int) : WithTop Int) : WithBot (WithTop Int))
      (shortest (σ.plan.network.windows ++ σ.taken) ⟨1⟩ ⟨1⟩) ≤
        (((-1 : Int) : WithTop Int) : WithBot (WithTop Int)) ∧
    Edit.propagate σ.plan = .stuck why plan ∧ ¬ ∃ date, σ.Solves date := by
  have empty : History none (start none) := .start
  have first := empty.step (r := .addTimepoint) rfl
  have second := first.step (r := .addTimepoint) rfl
  have third := second.step (r := .addTimepoint) rfl
  have up₁ := third.step (r := .post ⟨.origin, ⟨1⟩, -2 ^ 63, some half⟩) rfl
  have up₃ := up₁.step (r := .post ⟨⟨1⟩, ⟨3⟩, 0, some half⟩) rfl
  have above₂ := up₃.step
    (r := .post ⟨.origin, ⟨2⟩, half + 1, some Distance.ceiling⟩) rfl
  have final := above₂.step (r := .post ⟨⟨2⟩, ⟨3⟩, half, none⟩) rfl
  -- the walk around the cycle has the length -1, and propagating writes it into the diagonal
  obtain ⟨-, hshortest, -, hpropagate⟩ := final.saturation_relaxes (by simp)
  exact ⟨_, .inconsistent (.exactly .origin .origin 0), _, final, rfl, hshortest ⟨1⟩ ⟨1⟩, rfl,
    hpropagate _ _ rfl⟩

end Session

end TemporalPlanning
