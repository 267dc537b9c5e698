import TemporalPlanning.Proofs.Network.Schedule
import TemporalPlanning.Proofs.Search.CutShort
import TemporalPlanning.Proofs.Search.Safe

/-!
# Searches without fault

Within the range in which its network is exact a search meets no fault (`Task.run_faultless`): it
ends with an answer, however much time it takes. The facts are placed without fault
(`Task.safeAt_setUp`) and a plan is read off without fault (`Task.exists_extract`). In between, each
frame was made for an open flaw in a sound partial plan, of the repairs that were found for that
flaw, and is gone back to exactly where it was made (`Task.Prepared`); so the next repair of a frame
is one that can be carried out without fault. What a repair leaves behind when it gets stuck is
legible, and that is enough to give up there.

Every partial plan on the way is such that its changes can be taken back one by one, each finding
what it is about, and such that its timepoints can be fixed in the middle of their dates, none of
them refused (`Task.Meets.legible_and_sturdy`).
-/

namespace TemporalPlanning

open Edit PartialPlan

/-! ### The first partial plan -/

/-- A timeline without planned tokens holds its facts only. -/
theorem Chronicle.WellFormed.facts_eq_length {c : Chronicle} {m : Model} {facts : Nat → Nat}
    (hwf : c.WellFormed m facts) (hfacts : ∀ k t, c.token k = .ok t → t.origin = .fact)
    {id : TimelineId} {host : Timeline} (hhost : c.timeline id = .ok host) :
    host.facts = host.sequence.length := by
  refine (hwf.facts_le id host hhost).antisymm (Nat.le_of_not_lt fun hlt => ?_)
  obtain ⟨t, ht⟩ := hwf.exists_of_mem hhost _ (List.getElem_mem hlt)
  have hfirst := hwf.facts_first id host _ _ t hhost (List.getElem?_eq_getElem hlt) ht
  exact lt_irrefl _ (hfirst.mpr (hfacts _ t ht))

namespace Task

variable {task : Task} {facts : Nat → Nat} {clock : Clock} {root : List String}
  {s s₁ s' : PartialPlan}

/-- A fact is added without fault to a timeline that holds nothing but facts. The one fault that the
edit raises of its own is that a fact comes after planned tokens, and the hypothesis on the facts
excludes it. -/
theorem safeAt_addFact (h : s.Sound task facts) (hm : task.model.WellFormed)
    (hsize : s.network.size + 1 < Network.sizeLimit) {id : TimelineId} {host : Timeline}
    (hhost : s.chronicle.timeline id = .ok host) (hfacts : host.facts = host.sequence.length)
    (state : String) : (addFact id state).SafeAt (Legible task) s := by
  obtain ⟨previous, hprevious⟩ := exists_looks (s := s) host.tail? fun k hk =>
    h.ready.chronicle.exists_of_mem hhost k (List.mem_of_getLast? hk)
  refine .congr (addFact_apply hhost hfacts hprevious) ?_
  -- the interval of the fact is added first, and then put behind the fact before it
  refine (safeAt_addInterval h.legible hsize _).bind fun r s₁ h₁ => ?_
  obtain ⟨rfl, hsteady, hsize₁, hbook, hchron, -⟩ := h.ready.steady.addInterval hsize
    (h.ready.chronicle.durationOf_isValid hm hhost state) h₁
  have hle : s.network.size ≤ s₁.network.size := by omega
  have hlegible := h.legible.of_network hsteady hle hbook hchron
  refine (safeAt_post hlegible ⟨?_, ?_⟩).bind fun _ s₂ _ => SafeAt.bind
    (safeAt_onChronicle ⟨_, rfl⟩) fun _ s₃ _ => SafeAt.bind (safeAt_onChronicle ⟨_, rfl⟩)
      fun _ _ _ => safeAt_pure _
  · -- a fact starts where the one before it stops, or at the origin
    cases previous with
    | none => exact hsteady.closed.square.contains_origin
    | some p =>
      exact contains_of_size_le hle (hprevious.forall_iff.mpr
        (fun _ u _ hu => (contains_of_token h.tidy hu).2) p rfl)
  · rw [Network.contains_iff, hsize₁]
    exact Nat.lt_add_of_pos_right two_pos

open Model (countOn countOn_concat)

/-- Facts are placed without fault when nothing else has been placed. The induction runs along the
facts that are left; that every token is a fact is what it carries with it. -/
theorem safeAt_placeEach (hm : task.model.WellFormed)
    (hsize : 2 * task.model.facts.length < Network.sizeLimit) {given rest : List GroundRef}
    (hturn : task.model.factsInTurn = given ++ rest) (h : s.Sound task (countOn given))
    (hcount : s.chronicle.tokens.size = given.length)
    (hfacts : ∀ k t, s.chronicle.token k = .ok t → t.origin = .fact) :
    (placeEach rest).SafeAt (Legible task) s := by
  induction rest generalizing given s with
  | nil => exact safeAt_pure ()
  | cons f rest ih =>
    have hlength := hm.perm_factsInTurn.length_eq
    rw [hturn, List.length_append, List.length_cons] at hlength
    -- there are two timepoints for each fact so far, and one more fact is to come
    have hroom : s.network.size + 1 < Network.sizeLimit := by
      rw [h.ready.size_eq]
      omega
    have hf : f ∈ task.model.facts := hm.perm_factsInTurn.mem_iff.mp (by rw [hturn]; simp)
    obtain ⟨d, hd, -⟩ := hm.facts f hf
    obtain ⟨host, hhost, -⟩ := h.ready.chronicle.declared _ d hd
    refine (safeAt_addFact h hm hroom hhost (h.ready.chronicle.facts_eq_length hfacts hhost)
      f.state).bind fun fact s₁ h₁ => ?_
    obtain ⟨hsound, hcount₁⟩ := h.addFact hm hroom hf h₁
    rw [← countOn_concat] at hsound
    refine ih (hturn.trans (List.append_cons _ _ _)) hsound
      (by rw [hcount₁, hcount, List.length_append, List.length_singleton]) fun k t ht => ?_
    obtain ⟨_, added, -⟩ := addFact_footprint h.ready.size_eq h₁
    rw [added.chronicle_eq] at ht
    -- all tokens are facts still, so that the next fact may be added too
    rcases Chronicle.token_enter.mp ht with hold | ⟨-, rfl⟩
    · exact hfacts k t hold
    · rfl

theorem safeAt_declareResources {P : PartialPlan → Prop} (ds : List ResourceDef) :
    (declareResources ds).SafeAt P s := by
  induction ds generalizing s with
  | nil => exact safeAt_pure ()
  | cons d ds ih => exact SafeAt.bind (safeAt_onBook ⟨_, rfl⟩) fun _ _ _ => ih

theorem safeAt_declareTimelines {P : PartialPlan → Prop} (ds : List TimelineDef) :
    (declareTimelines ds).SafeAt P s := by
  induction ds generalizing s with
  | nil => exact safeAt_pure ()
  | cons d ds ih => exact SafeAt.bind (safeAt_onChronicle ⟨_, rfl⟩) fun _ _ _ => ih

/-- **A search starts without fault.** Objects are declared first, then the facts are placed; both
loops run on partial plans of which everything is known. -/
theorem safeAt_setUp (hm : task.model.WellFormed) (hrange : task.InRange) :
    task.setUp.SafeAt (Legible task)
      (.empty task.config.horizon task.model.goals.length) := by
  refine (safeAt_declareResources _).bind fun _ s₁ h₁ =>
    (safeAt_declareTimelines _).bind fun _ s₂ h₂ => ?_
  have hdeclared := declared_of_done h₁ h₂
  have hlimit := hrange.tokens
  rw [placeAllFacts_eq]
  exact safeAt_placeEach hm (by omega) (List.nil_append _).symm (hdeclared.sound hm hrange.horizon)
    (by simp [hdeclared.tokens]) fun k t ht => absurd ht hdeclared.token_ne

/-! ### Reading off a plan -/

/-- What supports a condition has a name to be bound to. The name is that of the resource reserved
or of the timeline on which the supplier stands. -/
theorem exists_bindingOf (h : s.Tidy task.model facts) {id : TokenId} {i : Nat} {support : Support}
    (hs : s.chronicle.SupportedBy id i support) : ∃ target, bindingOf s support = .ok target := by
  cases support with
  | reservation resource reservation =>
    obtain ⟨_, _, res, _, -, hres, -⟩ := h.exists_reservation hs
    exact Fault.exists_bind ⟨res, Fault.require_eq_ok.mpr hres⟩ fun _ _ => ⟨_, rfl⟩
  | token supplier =>
    obtain ⟨condition, hasks⟩ := h.chronicle.asks_of_supportedBy hs
    obtain ⟨u, hu⟩ := h.served.exists_token hasks hs
    -- the binding is the name of the timeline on which the supplier stands
    obtain ⟨host, hhost, -⟩ := h.chronicle.placed supplier u hu
    exact ⟨_, Fault.bind_eq_ok.mpr ⟨u, hu, Fault.bind_eq_ok.mpr ⟨host, hhost, rfl⟩⟩⟩

/-- A token can be extracted: its timepoints have dates in every schedule. The schedule has a date
for each timepoint of the network, be it the earliest or one in the middle. -/
theorem exists_tokenAt (h : s.Tidy task.model facts) {id : TokenId} {t : Token}
    (ht : s.chronicle.token id = .ok t) : ∃ p, tokenAt s (task.schedule s) id = .ok p := by
  obtain ⟨hstart, hstop⟩ := contains_of_token h ht
  have hlength := length_schedule task s
  -- both dates are in the schedule, and every slot that is filled has a binding
  refine Fault.exists_bind ⟨t, ht⟩ fun u hu => ?_
  obtain rfl := Chronicle.token_inj ht hu
  refine Fault.exists_bind (Reservation.exists_dateOf hlength hstart) fun _ _ =>
    Fault.exists_bind (Reservation.exists_dateOf hlength hstop) fun _ _ =>
    Fault.exists_bind (Fault.exists_mapM fun support hsupport => ?_) fun _ _ => ⟨_, rfl⟩
  obtain ⟨slot, hslot, rfl⟩ := List.mem_filterMap.mp hsupport
  obtain ⟨i, hi⟩ := List.mem_iff_getElem?.mp hslot
  exact exists_bindingOf h ⟨t, ht, hi⟩

/-- **A plan can be read off a tidy partial plan.** -/
theorem exists_extract (h : s.Tidy task.model facts) : ∃ p, task.extract s = .ok p := by
  refine Fault.exists_bind (Fault.exists_mapM fun host hmem => ?_) fun _ _ => ⟨_, rfl⟩
  obtain ⟨id, hhost⟩ := Chronicle.mem_timelines.mp hmem
  refine Fault.exists_bind (Fault.exists_mapM fun k hk => ?_) fun _ _ => ⟨_, rfl⟩
  obtain ⟨t, ht⟩ := h.chronicle.exists_of_mem hhost k hk
  exact exists_tokenAt h ht

/-! ### Frames -/

/-- A frame was made for the next flaw of a viable partial plan, and its repairs are the ones that
were found there. -/
structure Prepared (task : Task) (n : Nat) (s : PartialPlan) (frame : Frame) : Prop where
  viable : task.Viable n s
  sturdy : s.Sturdy
  flaw : task.nextFlaw s = .ok (some frame.flaw)
  remaining : ∃ ds, task.repairs s frame.flaw = .ok ds ∧ ∀ d ∈ frame.candidates.remaining, d ∈ ds

variable {n : Nat} {frame : Frame} {d : Decision} {cs : Candidates}

theorem Viable.legible (h : task.Viable n s) : s.Legible task := h.sound.legible

/-- A frame that is prepared for a further decision is prepared without it. -/
theorem Prepared.of_succ (h : task.Prepared (n + 1) s frame) : task.Prepared n s frame :=
  ⟨h.viable.mono (Nat.le_succ n), h.sturdy, h.flaw, h.remaining⟩

/-- The repairs of the next flaw are found, and a frame is made of them. -/
theorem prepared_of_flaw (h : task.Viable n s) (hsturdy : s.Sturdy) {flaw : Flaw}
    (hflaw : task.nextFlaw s = .ok (some flaw)) (hcs : Candidates.ofFlaw task s flaw = .ok cs) :
    task.Prepared n s ⟨flaw, cs, s.mark⟩ := by
  obtain ⟨ds, hds, rfl⟩ := Fault.map_eq_ok.mp hcs
  exact ⟨h, hsturdy, hflaw, ds, hds, fun _ hd => hd⟩

/-- The flaw of a frame is open where the frame was made. -/
theorem Prepared.isOpen (h : task.Prepared n s frame) :
    ∃ flaws, task.openFlaws s = .ok flaws ∧ frame.flaw ∈ flaws := by
  obtain ⟨flaws, hflaws⟩ := exists_openFlaws h.viable.legible.presentable
  exact ⟨flaws, hflaws, mem_openFlaws_of_nextFlaw h.flaw hflaws⟩

/-- The flaw of a prepared frame can be put into words. -/
theorem Prepared.exists_describe (hm : task.model.WellFormed) (h : task.Prepared n s frame) :
    ∃ words, task.describe s frame.flaw = .ok words := by
  obtain ⟨flaws, hflaws, hflaw⟩ := h.isOpen
  exact Task.exists_describe hm h.viable.legible.presentable hflaws hflaw

/-- The look-ahead finds the next repair of a frame, or finds that none is left. -/
theorem Prepared.exists_next (h : task.Prepared n s frame) :
    ∃ d? cs, frame.candidates.next s = .ok (d?, cs) := by
  obtain ⟨ds, hds, hmem⟩ := h.remaining
  have htidy := h.viable.sound.tidy
  obtain ⟨feasible, hfeasible⟩ := Fault.exists_filter fun d hd =>
    exists_admits htidy (suits_of_mem_repairs htidy.chronicle hds d (hmem d hd))
  obtain ⟨rest, hnext, -⟩ := Candidates.next_of_filter hfeasible
  exact ⟨_, _, hnext⟩

/-- **The next repair of a frame suits and is applicable.** That it was admitted just now is what
makes it applicable: candidates are computed once, but tested only when they are handed out. -/
theorem Prepared.next (h : task.Prepared n s frame) {d? : Option Decision}
    (hnext : frame.candidates.next s = .ok (d?, cs)) :
    task.Prepared n s { frame with candidates := cs } ∧
      ∀ d, d? = some d → d.Suits task s ∧ d.Applicable task s := by
  obtain ⟨ds, hds, hmem⟩ := h.remaining
  -- the candidate that is taken, and those that are left, are repairs of the flaw
  obtain ⟨hleft, htaken⟩ := Candidates.next_mem hnext
  refine ⟨⟨h.viable, h.sturdy, h.flaw, ds, hds, fun d hd => hmem d (hleft d hd)⟩, fun d hd => ?_⟩
  obtain ⟨hd, hadmits⟩ := htaken d hd
  have htidy := h.viable.sound.tidy
  obtain ⟨flaws, hflaws, hflaw⟩ := h.isOpen
  exact ⟨suits_of_mem_repairs htidy.chronicle hds d (hmem d hd),
    applicable_of_mem_repairs htidy hflaws hflaw hds (hmem d hd) hadmits⟩

/-- The next repair of a frame is carried out without fault. -/
theorem Prepared.safeAt (hm : task.model.WellFormed) (hrange : task.InRange)
    (h : task.Prepared (n + 1) s frame) (hnext : frame.candidates.next s = .ok (some d, cs)) :
    (task.apply d).SafeAt (Legible task) s := by
  obtain ⟨hsuits, happlicable⟩ := (h.next hnext).2 d rfl
  exact safeAt_apply h.viable.sound hm (h.viable.size_lt hrange) hsuits happlicable

/-- What the next repair of a frame leads to, even halfway, is legible and can be taken back. -/
theorem Prepared.leads (hm : task.model.WellFormed) (hrange : task.InRange)
    (h : task.Prepared (n + 1) s frame) (hnext : frame.candidates.next s = .ok (some d, cs))
    (hs : (task.apply d).LeadsTo s s') : s'.Legible task ∧ s'.Sturdy := by
  refine ⟨?_, (task.recorded_apply d s s' hs).sturdy h.sturdy⟩
  rcases hs with ⟨u, hdone⟩ | ⟨why, hstuck⟩
  · exact (h.viable.apply hm hrange ((h.next hnext).2 d rfl).1 hdone).legible
  · exact (h.safeAt hm hrange hnext).stuck hstuck

/-! ### The partial plans of a search -/

/-- The partial plan with which a search starts, also halfway, is legible and can be taken back. -/
theorem leads_setUp (hm : task.model.WellFormed) (hrange : task.InRange)
    (hs : task.setUp.LeadsTo (.empty task.config.horizon task.model.goals.length) s) :
    s.Legible task ∧ s.Sturdy := by
  refine ⟨?_, (task.recorded_setUp _ _ hs).sturdy ⟨.origin fun k hk => (hrange.horizon k hk).1,
    Trailed.unwinds_fresh _, Trailed.unwinds_fresh _⟩⟩
  rcases hs with ⟨u, hdone⟩ | ⟨why, hstuck⟩
  · exact (viable_of_start hm hrange hdone).legible
  · exact (safeAt_setUp hm hrange).stuck hstuck

/-- **On its way a search goes back to frames that are prepared**, from partial plans that are
legible. -/
theorem Visits.prepared (hm : task.model.WellFormed) (hrange : task.InRange) {stack : List Attempt}
    (h : task.Visits root n s stack) : s.Legible task ∧
      Traced (task.Prepared n) s (stack.map Attempt.frame) := by
  induction h with
  | start hs _ hflaw hcs =>
    have hviable := viable_of_start hm hrange hs
    exact ⟨hviable.legible, Traced.cons trivial rfl
      (prepared_of_flaw hviable (leads_setUp hm hrange (.inl ⟨_, hs⟩)).2 hflaw hcs) (.refl _)⟩
  -- the frame is given up in the plan that it was made in
  | giveUp _ hundo _ ih =>
    obtain ⟨hprepared, houter⟩ := ih.2.undo hundo
    exact ⟨hprepared.viable.legible, houter⟩
  -- what the decision left behind can be taken back, so that the frame is found as it was
  | stuck _ hundo hnext happly ih =>
    obtain ⟨hprepared, houter⟩ := ih.2.undo hundo
    have hs : (task.apply _).LeadsTo _ _ := .inr ⟨_, happly⟩
    exact ⟨(hprepared.leads hm hrange hnext hs).1,
      (houter.mono fun _ _ => Prepared.of_succ).cons (mark_of_undoTo hundo)
        (hprepared.next hnext).1.of_succ (task.reversible_apply _ _ _ hs)⟩
  | done _ hundo hnext happly hflaw hcs ih =>
    obtain ⟨hprepared, houter⟩ := ih.2.undo hundo
    obtain ⟨hrest, hnext'⟩ := hprepared.next hnext
    have hs : (task.apply _).LeadsTo _ _ := .inl ⟨_, happly⟩
    have hviable := hprepared.viable.apply hm hrange (hnext' _ rfl).1 happly
    -- the frame gone back to stays prepared for what it has left, below the new one
    refine ⟨hviable.legible, Traced.cons ?_ rfl
      (prepared_of_flaw hviable (hprepared.leads hm hrange hnext hs).2 hflaw hcs) (.refl _)⟩
    exact (houter.mono fun _ _ => Prepared.of_succ).cons (mark_of_undoTo hundo) hrest.of_succ
      (task.reversible_apply _ _ _ hs)

/-- `task.Meets s`: a search that is on its way may stand at `s`, at the start or when it has tried
the next repair of a frame, whether that succeeds or gets stuck. -/
inductive Meets (task : Task) : PartialPlan → Prop
  | start {s : PartialPlan}
      (hs : task.setUp.LeadsTo (.empty task.config.horizon task.model.goals.length) s) :
      Meets task s
  | apply {root : List String} {n : Nat} {s s₁ s₂ : PartialPlan} {a : Attempt}
      {outer : List Attempt} {d : Decision} {cs : Candidates}
      (h : task.Visits root (n + 1) s (a :: outer)) (hundo : s.undoTo a.frame.mark = .ok s₁)
      (hnext : a.frame.candidates.next s₁ = .ok (some d, cs))
      (hs : (task.apply d).LeadsTo s₁ s₂) : Meets task s₂

/-- **A search meets only partial plans that are legible and can be taken back.** -/
theorem Meets.legible_and_sturdy (hm : task.model.WellFormed) (hrange : task.InRange)
    (h : task.Meets s) : s.Legible task ∧ s.Sturdy := by
  cases h with
  | start hs => exact leads_setUp hm hrange hs
  | apply h hundo hnext hs =>
    exact ((h.prepared hm hrange).2.undo hundo).1.leads hm hrange hnext hs

/-! ### Whole searches -/

/-- Where a partial plan is legible, a search can be cut short: its open flaws can be described. -/
theorem exists_cutShort (hm : task.model.WellFormed) (h : s.Legible task)
    (decisions : Nat) : ∃ answer, task.cutShort s decisions = .ok answer :=
  Fault.exists_bind (exists_describeOpenFlaws hm h.presentable) fun _ _ => ⟨_, rfl⟩

/-- A search turns to the next flaw without fault, if it goes on without fault from there. -/
theorem exists_select (hm : task.model.WellFormed) (h : task.Viable n s) {decisions : Nat}
    {go : Continuation} {stack : List Frame}
    (hgo : ∀ flaw cs, task.nextFlaw s = .ok (some flaw) → Candidates.ofFlaw task s flaw = .ok cs →
      ∃ answer, go clock.later s (⟨flaw, cs, s.mark⟩ :: stack) = .ok answer) :
    ∃ answer, task.select decisions go clock s stack = .ok answer := by
  refine Fault.exists_ite (fun _ => exists_cutShort hm h.legible decisions) fun _ =>
    Fault.exists_bind (exists_nextFlaw h.legible.presentable) fun flaw? hflaw => ?_
  cases flaw? with
  -- without a flaw the plan can be extracted, and with one its repairs can be computed
  | none => exact Fault.exists_bind (exists_extract h.sound.tidy) fun _ _ => ⟨_, rfl⟩
  | some flaw =>
    obtain ⟨flaws, hflaws⟩ := exists_openFlaws h.legible.presentable
    have hrepairs :=
      exists_repairs hm h.sound.tidy hflaws (mem_openFlaws_of_nextFlaw hflaw hflaws)
    exact Fault.exists_bind (Fault.exists_map _ hrepairs) fun cs hcs => hgo flaw cs hflaw hcs

/-- From each partial plan on its way a search goes on without fault, whatever the clock says from
there on. If the time is over at one of the readings to come, be it between two frames that are
given up, then the flaws there can be described.

The induction is on the decisions left, and within one decision on the frames that are given up
before it. -/
theorem Visits.exists_explore (hm : task.model.WellFormed) (hrange : task.InRange)
    {stack : List Attempt} (h : task.Visits root n s stack) :
    ∃ answer, task.explore root n clock s (stack.map Attempt.frame) = .ok answer := by
  induction n generalizing clock s stack with
  | zero =>
    exact Fault.exists_ite (fun _ => ⟨_, rfl⟩)
      fun _ => exists_cutShort hm (h.prepared hm hrange).1 _
  | succ n ih =>
    rw [explore]
    -- the frames without repairs left are given up one after the other, each after one reading
    induction stack generalizing clock s with
    | nil => exact ⟨_, rfl⟩
    | cons a outer ihs =>
      obtain ⟨hlegible, s₁, hundo, hprepared, -⟩ := h.prepared hm hrange
      obtain ⟨d?, cs, hnext⟩ := hprepared.exists_next
      refine Fault.exists_ite (fun _ => exists_cutShort hm hlegible _) fun _ =>
        Fault.exists_bind ⟨s₁, hundo⟩ fun s₁' hundo' => ?_
      obtain rfl := Except.ok.inj (hundo.symm.trans hundo')
      refine Fault.exists_bind ⟨_, hnext⟩ fun next hnext' => ?_
      obtain rfl := Except.ok.inj (hnext.symm.trans hnext')
      cases d? with
      -- the frame is given up, which does not count as a decision
      | none => exact ihs (h.giveUp hundo hnext)
      | some d =>
        dsimp only
        -- the repair suits and is applicable, so that it cannot be forbidden
        cases happly : task.apply d s₁ with
        | done u s₂ =>
          have hsuits := ((hprepared.next hnext).2 d rfl).1
          exact exists_select hm (hprepared.viable.apply hm hrange hsuits happly)
            fun flaw cs' hflaw hcs => ih (.done h hundo hnext happly hflaw hcs)
        -- a decision that gets stuck has been tried as well
        | stuck why s₂ => exact ih (.stuck h hundo hnext happly)
        | forbidden why =>
          exact absurd happly ((hprepared.safeAt hm hrange hnext).allowed why)

/-- A search ends with an answer. Whatever the readings of the clock are, the answer is a plan or a
failure and never a fault. -/
theorem exists_run (hm : task.model.WellFormed) (hrange : task.InRange) (clock : Clock) :
    ∃ answer, task.run clock = .ok answer := by
  unfold run
  cases hstart : task.start with
  | forbidden why => exact absurd hstart ((safeAt_setUp hm hrange).allowed why)
  -- facts that contradict each other are answered without a search
  | stuck why s => exact ⟨_, rfl⟩
  | done u s =>
    have hviable := viable_of_start hm hrange hstart
    exact Fault.exists_bind (exists_describeOpenFlaws hm hviable.legible.presentable)
      fun root hroot => exists_select hm hviable fun flaw cs hflaw hcs =>
        Visits.exists_explore hm hrange (.start hstart hroot hflaw hcs)

/-- **A search meets no fault.** It ends with an answer, and each partial plan on its way can be
taken back change by change and has room for the dates in the middle. Each frame can be gone back
to, its flaw can be described and its next repair be told there; that repair finds what it relies
on, and with a decision left it is not forbidden. -/
theorem run_faultless {problem : Problem} (hload : Model.load problem = .ok task.model)
    (hhorizon : ∀ h, task.config.horizon = some h → 0 ≤ h ∧ h ≤ 2 ^ 60)
    (hsize : problem.facts.length + task.config.maxDecisions < 2 ^ 19) :
    (∀ clock, ∃ answer, task.run clock = .ok answer) ∧
      (∀ s, task.Meets s →
        s.Sturdy ∧ Network.FixesEach (.fresh s.network) s.network.timepoints) ∧
      ∀ root n s a outer, task.Visits root n s (a :: outer) → ∃ s₁ words d? cs,
        s.undoTo a.frame.mark = .ok s₁ ∧ task.describe s₁ a.frame.flaw = .ok words ∧
        a.frame.candidates.next s₁ = .ok (d?, cs) ∧
        ∀ d, d? = some d → d.Applicable task s₁ ∧ (0 < n → (task.apply d).Allowed s₁) := by
  obtain ⟨hm, hrange, -⟩ :=
    @Problem.run_of_solve problem task.config .stopped task.model hload hhorizon hsize
  refine ⟨exists_run hm hrange, fun s h => ?_, fun root n s a outer h => ?_⟩
  · obtain ⟨hlegible, hsturdy⟩ := h.legible_and_sturdy hm hrange
    exact ⟨hsturdy, hlegible.steady.fixesEach⟩
  · -- the search goes back to where the frame was made, and there all that it looks up is found
    obtain ⟨-, s₁, hundo, hprepared, -⟩ := h.prepared hm hrange
    obtain ⟨words, hwords⟩ := hprepared.exists_describe hm
    obtain ⟨d?, cs, hnext⟩ := hprepared.exists_next
    refine ⟨s₁, words, d?, cs, hundo, hwords, hnext, ?_⟩
    rintro d rfl
    refine ⟨((hprepared.next hnext).2 d rfl).2, fun hpos => ?_⟩
    -- with a decision left the frame is prepared for one more
    obtain ⟨n, rfl⟩ := Nat.exists_eq_succ_of_ne_zero hpos.ne'
    exact (hprepared.safeAt hm hrange hnext).allowed

end Task

/-- If there is no time for the beacon to be on, its only repair is not forbidden, but gets stuck,
and what it leaves behind can be taken back. -/
theorem run_faultless_beacon : ∃ (task : Task) (s s' : PartialPlan) (d : Decision) (why : DeadEnd)
    (answer : Answer), Model.load beacon = .ok task.model ∧ task.start = .done () s ∧
      d.Applicable task s ∧ (task.apply d).Allowed s ∧ task.apply d s = .stuck why s' ∧
      s'.Sturdy ∧ Network.FixesEach (.fresh s'.network) s'.network.timepoints ∧
      task.run .stopped = .ok answer := by
  -- the task is computed up to its only candidate, which gets stuck
  obtain ⟨task, s, s', root, cs, cs', d, why, hload, hhorizon, hmax, hstart, hroot, hflaw, hcs,
      hnext, hstuck⟩ : ∃ (task : Task) (s s' : PartialPlan) (root : List String)
        (cs cs' : Candidates) (d : Decision) (why : DeadEnd), Model.load beacon = .ok task.model ∧
          task.config.horizon = some 7 ∧ task.config.maxDecisions = 1 ∧ task.start = .done () s ∧
          task.describeOpenFlaws s = .ok root ∧ task.nextFlaw s = .ok (some (.openGoal 0)) ∧
          Candidates.ofFlaw task s (.openGoal 0) = .ok cs ∧ cs.next s = .ok (some d, cs') ∧
          task.apply d s = .stuck why s' :=
    ⟨⟨_, { maxDecisions := 1, horizon := some 7 }⟩, _, _, _, _, _, _, _, rfl, rfl, rfl, rfl, rfl,
      rfl, rfl, rfl, rfl⟩
  obtain ⟨hrun, hmet, hframes⟩ := Task.run_faultless hload
    (fun h hh => by obtain rfl := Option.some.inj (hhorizon.symm.trans hh); decide)
    (by rw [hmax]; decide)
  -- the search is at its first frame, whose only candidate gets stuck
  have hvisits := Task.Visits.start hstart hroot hflaw hcs
  have hundo := (Extends.refl s).undoTo_mark
  rw [hmax] at hvisits
  obtain ⟨s₁, -, d?, cs₁, hundo₁, -, hnext₁, happlicable⟩ := hframes _ _ _ _ _ hvisits
  obtain rfl := Except.ok.inj (hundo.symm.trans hundo₁)
  obtain ⟨rfl, -⟩ := Prod.mk.inj (Except.ok.inj (hnext.symm.trans hnext₁))
  obtain ⟨hsturdy, hfixes⟩ := hmet s' (.apply hvisits hundo hnext (.inr ⟨why, hstuck⟩))
  obtain ⟨answer, hanswer⟩ := hrun .stopped
  exact ⟨task, s, s', d, why, answer, hload, hstart, (happlicable d rfl).1,
    (happlicable d rfl).2 Nat.one_pos, hstuck, hsturdy, hfixes, hanswer⟩

end TemporalPlanning
