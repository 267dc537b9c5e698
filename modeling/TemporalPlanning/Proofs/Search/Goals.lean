import TemporalPlanning.Proofs.Chronicle.Unfolding
import TemporalPlanning.Proofs.Search.Permanence

/-!
# Goals and the order of tokens

Whatever is decided, the timelines unfold (`Task.Onward.unfolds`). Only a repair of an open goal
lets a token serve a goal and seals a timeline (`Task.serves_or_sparesGoals`). The token stands
above the floor of the goal, and if goals have to come last it is the last one of a timeline that is
sealed from then on (`Task.Serves`).
-/

namespace TemporalPlanning

/-! ### Unfolding -/

/-- What a step changes lets the timelines unfold. The sequences only grow, and a sealed one does
not grow at its end. -/
theorem Chronicle.Changes.unfolds {c c' : Chronicle} (h : c.Changes c') : c.Unfolds c' := by
  cases h with
  | same => exact .refl _
  | enter _ _ hhost htakes => exact Chronicle.unfolds_enter hhost htakes
  | linkTo => exact Chronicle.unfolds_of_timelines_eq Chronicle.timelines_linkTo
  | reserve | serve => exact Chronicle.unfolds_of_timelines_eq rfl
  | serveLast id timeline =>
    -- the seal comes on top of the support
    refine Chronicle.Unfolds.trans ?_ (Chronicle.unfolds_setSealed timeline)
    exact Chronicle.unfolds_of_timelines_eq rfl
  | addTimeline => exact Chronicle.unfolds_addTimeline rfl

namespace PartialPlan

variable {task : Task} {facts : Nat → Nat} {s s' : PartialPlan} {made : List ReservationId}

theorem Tidy.unfolds_steps (h : s.Tidy task.model facts) (hs : task.Steps s made s') :
    s.chronicle.Unfolds s'.chronicle := by
  induction hs with
  | refl => exact .refl _
  | tail hs hstep ih => exact ih.trans ((h.steps hs).changes_step hstep).1.unfolds

/-- **A decision lets the timelines unfold.** -/
theorem Tidy.unfolds_apply (h : s.Tidy task.model facts) {d : Decision} (hd : d.Suits task s)
    {u : Unit} (hs : task.apply d s = .done u s') : s.chronicle.Unfolds s'.chronicle := by
  obtain ⟨made, s₁, hsteps, -, -, hcommit⟩ := h.apply_steps hd hs
  rw [PartialPlan.chronicle_congr (commitAll_eq_done hcommit).2]
  exact h.unfolds_steps hsteps

end PartialPlan

namespace Task

variable {task : Task} {facts : Nat → Nat} {s s₁ s' : PartialPlan}

/-- Whatever is decided later, the timelines unfold. -/
theorem Onward.unfolds (h : task.Onward s s') (hs : task.Reachable s)
    (hm : task.model.WellFormed) : s.chronicle.Unfolds s'.chronicle := by
  induction h with
  | refl => exact .refl _
  | apply h hds hd _ happly ih =>
    have htidy := (h.reachable hs).tidy hm
    exact ih.trans (htidy.unfolds_apply (suits_of_mem_repairs htidy.chronicle hds _ hd) happly)

/-! ### Repairs of other flaws -/

theorem sparesGoals_place (hsize : s.network.size = 2 * s.chronicle.tokens.size + 1)
    {id : TimelineId} {state : String} {position : Nat} {token : TokenId}
    (hs : Edit.place id state position s = .done token s') :
    s.chronicle.SparesGoals s'.chronicle := by
  obtain ⟨_, _, placed, -⟩ := Edit.place_footprint hsize hs
  rw [placed.chronicle_eq]
  exact Chronicle.sparesGoals_enter

theorem sparesGoals_linkTo {consumer supplier : TokenId} {i : Nat} {relation : Relation} {u : Unit}
    (hs : linkTo consumer i supplier relation s = .done u s') :
    s.chronicle.SparesGoals s'.chronicle := by
  obtain ⟨_, _, linked, -⟩ := linkTo_footprint hs
  rw [linked.chronicle_eq]
  exact Chronicle.sparesGoals_of_eq Chronicle.alike_linkTo.goalSupports.symm
    Chronicle.timelines_linkTo

theorem sparesGoals_reserveFor {id : TokenId} {i amount : Nat} {resource : ResourceId}
    {reservation : ReservationId} (hs : reserveFor id i resource amount s = .done reservation s') :
    s.chronicle.SparesGoals s'.chronicle := by
  obtain ⟨_, reserved⟩ := reserveFor_eq_done hs
  rw [reserved.chronicle_eq]
  exact Chronicle.sparesGoals_of_eq rfl rfl

/-- **A repair of another flaw spares the goals.** Nothing but the two repairs of a goal writes to
the table of goals or seals a timeline. -/
theorem sparesGoals_of_apply (h : s.Tidy task.model facts) {d : Decision} {flaw : Flaw}
    (hd : d.Repairs flaw) (hflaw : ∀ goal, flaw ≠ .openGoal goal) {u : Unit}
    (hs : task.apply d s = .done u s') : s.chronicle.SparesGoals s'.chronicle := by
  obtain ⟨made, s₁, hs, -, hchron, -⟩ := exists_carryOut_of_apply hs
  rw [PartialPlan.chronicle_congr hchron]
  -- one case for each kind of decision; those that serve a goal repair nothing else
  cases d with
  | supportGoal | insertGoal =>
    cases flaw with
    | openGoal goal => exact absurd rfl (hflaw goal)
    | openCondition | conflict => exact hd.elim
  | reserve token i resource amount =>
    obtain ⟨_, hreserve, -⟩ := carryOut_reserve.mp hs
    exact sparesGoals_reserveFor hreserve
  | createResource token i className amount =>
    obtain ⟨_, s₂, hadd, _, hreserve, -⟩ := carryOut_createResource.mp hs
    obtain ⟨-, -, hchron, -⟩ := Edit.addResource_footprint hadd
    rw [← PartialPlan.chronicle_congr hchron]
    exact sparesGoals_reserveFor hreserve
  | link token i supplier relation =>
    exact sparesGoals_linkTo (carryOut_link.mp hs).1
  | insertSupplier token i timeline state position relation =>
    obtain ⟨_, s₂, hplace, hlink, -⟩ := carryOut_insertSupplier.mp hs
    exact (sparesGoals_place h.size_eq hplace).trans (sparesGoals_linkTo hlink)
  | createTimeline token i className state relation =>
    obtain ⟨_, s₂, hadd, _, s₃, hplace, hlink, -⟩ := carryOut_createTimeline.mp hs
    obtain ⟨-, hnet, -, hchron⟩ := Edit.addTimeline_footprint hadd
    -- a new timeline, a token on it and a link, none of which is about goals
    have hadded : s.chronicle.SparesGoals s₂.chronicle := by
      rw [hchron]
      exact Chronicle.sparesGoals_addTimeline rfl
    have hsize : s₂.network.size = 2 * s₂.chronicle.tokens.size + 1 := by
      rw [PartialPlan.network_congr hnet, hchron]
      exact h.size_eq
    exact hadded.trans ((sparesGoals_place hsize hplace).trans (sparesGoals_linkTo hlink))
  -- a constraint does not touch the chronicle
  | order before after =>
    obtain ⟨_, _, -, -, hpost, -⟩ := carryOut_order.mp hs
    obtain ⟨-, -, hchron⟩ := Edit.post_footprint hpost
    rw [PartialPlan.chronicle_congr hchron]
    exact .refl _

/-! ### Repairs of an open goal -/

/-- A token serves a goal from now on. It stands above the floor of the goal, with the tokens before
it as they were. If goals have to come last, it is the last one and its timeline is sealed; all
other sealed timelines were sealed before. -/
structure Serves (task : Task) (s s' : PartialPlan) (goal : Nat) (g : GroundRef) (token : TokenId) :
    Prop where
  declared : task.model.goals[goal]? = some g
  free : s.chronicle.goalSupports[goal]? = some none
  goalSupports : s'.chronicle.goalSupports =
    s.chronicle.goalSupports.setIfInBounds goal (some token)
  place : ∃ floor position host host', task.goalFloor s goal g.timeline = .ok floor ∧
    isAbove floor position ∧ s.chronicle.timeline ⟨g.timeline⟩ = .ok host ∧
    s'.chronicle.timeline ⟨g.timeline⟩ = .ok host' ∧
    host'.sequence.take position = host.sequence.take position ∧
    host'.sequence[position]? = some token ∧
    (task.config.finalGoals → host'.sealed ∧ host'.tail? = some token)
  unsealed : ∀ id host', s'.chronicle.timeline id = .ok host' → host'.sealed →
    id = ⟨g.timeline⟩ ∨ ∃ host, s.chronicle.timeline id = .ok host ∧ host.sealed

/-- Only the chronicle matters. -/
theorem Serves.congr {goal : Nat} {g : GroundRef} {token : TokenId}
    (h : task.Serves s s₁ goal g token) (hchron : s'.chronicle = s₁.chronicle) :
    task.Serves s s' goal g token := by
  obtain ⟨hdeclared, hfree, hgoals, hplace, hunsealed⟩ := h
  rw [← hchron] at hgoals hplace hunsealed
  exact ⟨hdeclared, hfree, hgoals, hplace, hunsealed⟩

/-- A goal that is served has the token as its support. -/
theorem Serves.goalSupport?_self {goal : Nat} {g : GroundRef} {token : TokenId}
    (h : task.Serves s s' goal g token) : s'.chronicle.goalSupport? goal = .ok (some token) := by
  rw [Chronicle.goalSupport?_eq_ok, h.goalSupports, Array.getElem?_setIfInBounds_self_of_lt
    (Array.getElem?_eq_some_iff.mp h.free).1]

theorem Serves.goalSupport?_of_ne {goal k : Nat} {g : GroundRef} {token : TokenId}
    (h : task.Serves s s' goal g token) (hk : k ≠ goal) :
    s'.chronicle.goalSupport? k = s.chronicle.goalSupport? k := by
  rw [Chronicle.goalSupport?, h.goalSupports, Array.getElem?_setIfInBounds_ne hk.symm,
    Chronicle.goalSupport?]

/-- Serving a goal leaves the sequences alone, and seals the timeline of the goal at most. The goal
was open before, and whatever is sealed afterwards was sealed already or is the timeline of this
goal. -/
theorem sealed_of_serveGoal {goal : Nat} {g : GroundRef} (hg : task.model.goals[goal]? = some g)
    {host : Timeline} (hhost : s.chronicle.timeline ⟨g.timeline⟩ = .ok host) {token : TokenId}
    {u : Unit} (hs : task.serveGoal goal token s = .done u s') :
    s.chronicle.goalSupports[goal]? = some none ∧
      s'.chronicle.goalSupports = s.chronicle.goalSupports.setIfInBounds goal (some token) ∧
      (∃ host', s'.chronicle.timeline ⟨g.timeline⟩ = .ok host' ∧ host'.sequence = host.sequence ∧
        (task.config.finalGoals → host'.sealed)) ∧
      ∀ id host', s'.chronicle.timeline id = .ok host' → host'.sealed →
        id = ⟨g.timeline⟩ ∨ ∃ host, s.chronicle.timeline id = .ok host ∧ host.sealed := by
  obtain ⟨_, s₁, h₁, h₂⟩ := Edit.bind_eq_done.mp hs
  obtain ⟨hfree, -, -, hvalue⟩ := Edit.supportGoal_eq_done h₁
  obtain ⟨-, -, hseal⟩ := sealGoal_eq_done h₂
  have hhost₁ : s₁.chronicle.timeline ⟨g.timeline⟩ = .ok host := by
    rw [hvalue]
    exact hhost
  -- the timeline stays open, or it was sealed before, or it is sealed now
  rcases hseal with ⟨hopen, hchron⟩ | ⟨-, g', host₁, hg', hhost', hchron⟩
  · rw [hchron, hvalue]
    refine ⟨hfree, rfl, ⟨host, hhost, rfl, fun hfinal => ?_⟩,
      fun id h hh hsealed => .inr ⟨h, hh, hsealed⟩⟩
    exact absurd (hopen.symm.trans hfinal) Bool.false_ne_true
  · obtain rfl := Option.some.inj (hg.symm.trans hg')
    obtain rfl := Chronicle.timeline_inj hhost₁ hhost'
    split at hchron
    · next hsealed =>
      rw [hchron, hvalue]
      exact ⟨hfree, rfl, ⟨host, hhost, rfl, fun _ => hsealed⟩,
        fun id h hh hsealed => .inr ⟨h, hh, hsealed⟩⟩
    · rw [hchron, hvalue]
      refine ⟨hfree, rfl, ⟨{ host with sealed := true }, ?_, rfl, fun _ => rfl⟩,
        fun id h hh hsealed => ?_⟩
      · exact Chronicle.timeline_updateTimeline.mpr ⟨host, hhost, if_pos rfl⟩
      · -- a timeline that is sealed now is the one of the goal, or it was sealed before
        obtain ⟨h₀, hh₀, rfl⟩ := Chronicle.timeline_updateTimeline.mp hh
        by_cases hid : id = ⟨g.timeline⟩
        · exact .inl hid
        · rw [if_neg hid] at hsealed
          exact .inr ⟨h₀, hh₀, hsealed⟩

/-- A token serves a goal once it stands where the goal wants it, whether it stood there before or
was put there by a step that spares the goals. -/
theorem serves_of_serveGoal {goal : Nat} {g : GroundRef} (hg : task.model.goals[goal]? = some g)
    (hspares : s.chronicle.SparesGoals s₁.chronicle) {floor : Option Nat} {position : Nat}
    (hfloor : task.goalFloor s goal g.timeline = .ok floor) (habove : isAbove floor position)
    {host host₁ : Timeline} (hhost : s.chronicle.timeline ⟨g.timeline⟩ = .ok host)
    (hhost₁ : s₁.chronicle.timeline ⟨g.timeline⟩ = .ok host₁)
    (htake : host₁.sequence.take position = host.sequence.take position) {token : TokenId}
    (hplace : host₁.sequence[position]? = some token)
    (htail : task.config.finalGoals → host₁.tail? = some token) {u : Unit}
    (hs : task.serveGoal goal token s₁ = .done u s') : task.Serves s s' goal g token := by
  obtain ⟨hfree, hgoals, ⟨host', hhost', hsequence, hsealed⟩, hunsealed⟩ :=
    sealed_of_serveGoal hg hhost₁ hs
  -- what came before the goal was served did not touch the goals
  rw [hspares.goalSupports] at hfree hgoals
  refine ⟨hg, hfree, hgoals, ⟨floor, position, host, host', hfloor, habove, hhost, hhost', ?_, ?_,
    fun hfinal => ⟨hsealed hfinal, ?_⟩⟩, fun id h hh hclosed => ?_⟩
  · rw [hsequence]
    exact htake
  · rw [hsequence]
    exact hplace
  · rw [Timeline.tail?, hsequence]
    exact htail hfinal
  · refine (hunsealed id h hh hclosed).imp_right ?_
    rintro ⟨h₁, hh₁, hclosed₁⟩
    exact hspares.unsealed id h₁ hh₁ hclosed₁

/-- **A repair of an open goal lets a token serve it**: one that is there, or a new one. -/
theorem exists_serves_of_apply (h : s.Tidy task.model facts) {goal : Nat} {ds : List Decision}
    {d : Decision} (hds : task.repairs s (.openGoal goal) = .ok ds) (hd : d ∈ ds) {u : Unit}
    (hs : task.apply d s = .done u s') : ∃ g token, task.Serves s s' goal g token := by
  obtain ⟨g, host, floor, hg, hhost, hfloor, hmem⟩ := goalRepairs_eq_ok h.chronicle hds
  obtain ⟨made, s₁, hs, -, hchron, -⟩ := exists_carryOut_of_apply hs
  have hchron : s'.chronicle = s₁.chronicle := PartialPlan.chronicle_congr hchron
  refine ⟨g, ?_⟩
  rcases (hmem d).mp hd with ⟨token, t, position, -, -, -, hplace, habove, htail, rfl⟩ |
    ⟨position, hadmits, habove, hend, rfl⟩
  · -- a token that is there serves where it stands
    obtain ⟨hserve, -⟩ := carryOut_supportGoal.mp hs
    have hserves :=
      serves_of_serveGoal hg (.refl _) hfloor habove hhost hhost rfl hplace htail hserve
    exact ⟨token, hserves.congr hchron⟩
  · -- a new token is put where it serves
    obtain ⟨g', hg', token, s₂, h₂, h₃, -⟩ := carryOut_insertGoal.mp hs
    obtain rfl := Option.some.inj (hg.symm.trans hg')
    obtain ⟨_, _, placed, -⟩ := Edit.place_footprint h.size_eq h₂
    obtain rfl := placed.token_eq
    obtain rfl := Chronicle.timeline_inj hhost placed.timeline_eq
    have hhost₂ : s₂.chronicle.timeline ⟨g.timeline⟩ =
        .ok (host.withToken .planned position ⟨s.chronicle.tokens.size⟩) := by
      rw [placed.chronicle_eq]
      exact Chronicle.timeline_enter_self hhost
    have hserves := serves_of_serveGoal hg (sparesGoals_place h.size_eq h₂) hfloor habove hhost
      hhost₂ (List.take_insertIdx_eq_take_of_le _ _ _ _ le_rfl)
      (List.getElem?_insertIdx_self.trans (if_pos placed.takes.le_length)) ?_ h₃
    · exact ⟨_, hserves.congr hchron⟩
    · -- what comes in at the end is the last one
      intro hfinal
      obtain rfl := hend hfinal
      show (host.sequence.insertIdx host.sequence.length _).getLast? = _
      rw [List.insertIdx_length_self, List.getLast?_concat]

/-- **A repair lets a token serve a goal, or it spares the goals**, depending on the flaw. -/
theorem serves_or_sparesGoals (h : s.Tidy task.model facts) {flaw : Flaw} {ds : List Decision}
    {d : Decision} (hds : task.repairs s flaw = .ok ds) (hd : d ∈ ds) {u : Unit}
    (hs : task.apply d s = .done u s') :
    (∃ goal g token, flaw = .openGoal goal ∧ task.Serves s s' goal g token) ∨
      (∀ goal, flaw ≠ .openGoal goal) ∧ s.chronicle.SparesGoals s'.chronicle := by
  by_cases hgoal : ∃ goal, flaw = .openGoal goal
  · obtain ⟨goal, rfl⟩ := hgoal
    obtain ⟨g, token, hserves⟩ := exists_serves_of_apply h hds hd hs
    exact .inl ⟨goal, g, token, rfl, hserves⟩
  · have hother : ∀ goal, flaw ≠ .openGoal goal := fun goal hflaw => hgoal ⟨goal, hflaw⟩
    have hrepairs := repairs_of_mem_repairs h.chronicle hds d hd
    exact .inr ⟨hother, sparesGoals_of_apply h hrepairs hother hs⟩

/-! ### At the start -/

/-- At first no goal is served, and there are the declared timelines only, none of them sealed.
Setting up declares objects and places facts; goals are left for the search to serve. -/
theorem unserved_of_start (hm : task.model.WellFormed) {u : Unit} (hs : task.start = .done u s) :
    (∀ goal token, s.chronicle.goalSupport? goal ≠ .ok (some token)) ∧
      ∀ id host, s.chronicle.timeline id = .ok host → id.index < task.model.timelines.length ∧
        host.sealed = false ∧ host.synthesized = false := by
  refine (start_induct (P := fun given s => s.Tidy task.model (Model.countOn given) ∧
      (∀ goal token, s.chronicle.goalSupport? goal ≠ .ok (some token)) ∧
      ∀ id host, s.chronicle.timeline id = .ok host → id.index < task.model.timelines.length ∧
        host.sealed = false ∧ host.synthesized = false) ?_ ?_ hs).2
  · intro s hs
    refine ⟨hs.tidy hm, fun goal token => ?_, fun id host hhost => ?_⟩
    · -- there are places for the tokens of the goals, but all of them are empty
      rw [ne_eq, Chronicle.goalSupport?_eq_ok, hs.goalSupports, Array.getElem?_replicate]
      split <;> simp
    · obtain ⟨d, hd, rfl⟩ := hs.timeline_iff.mp hhost
      exact ⟨(List.getElem?_eq_some_iff.mp hd).1, rfl, rfl⟩
  · rintro given f rest hgiven s fact s' ⟨htidy, hgoals, hopen⟩ hs
    obtain ⟨_, added, -⟩ := Edit.addFact_footprint htidy.size_eq hs
    have hf : f ∈ task.model.facts := hm.perm_factsInTurn.mem_iff.mp (by rw [hgiven]; simp)
    rw [Model.countOn_concat, added.chronicle_eq]
    refine ⟨htidy.addFact hm hf hs, hgoals, fun id host hhost => ?_⟩
    obtain ⟨host₀, hhost₀, rfl⟩ := Chronicle.timeline_enter.mp hhost
    -- a fact lengthens its timeline, but neither seals nor creates one
    split <;> exact hopen id host₀ hhost₀

/-- Every reachable partial plan comes from the first one. -/
theorem Reachable.exists_onward (h : task.Reachable s) :
    ∃ s₀, task.start = .done () s₀ ∧ task.Onward s₀ s := by
  induction h with
  | start hs => exact ⟨_, hs, .refl⟩
  | apply _ hds hd hadmits hs ih =>
    obtain ⟨s₀, hs₀, honward⟩ := ih
    exact ⟨s₀, hs₀, honward.apply hds hd hadmits hs⟩

end Task

end TemporalPlanning
