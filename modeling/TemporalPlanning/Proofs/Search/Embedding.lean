import TemporalPlanning.Proofs.Chronicle.Reachability
import TemporalPlanning.Proofs.Plan.Solution
import TemporalPlanning.Proofs.Reservation.Overload
import TemporalPlanning.Proofs.Search.Solved

/-!
# Partial plans within a solution

A partial plan that only has declared objects is part of a solution if each of its tokens has a
place among the tokens of the solution, with the same state and with dates that the network allows,
and if what supports the tokens agrees with the bindings of the solution
(`PartialPlan.EmbedsIn`). The tokens of a timeline keep their order, but there may be others between
them: a place of the solution that no token has is a `Gap`, and there the timeline takes one more
token (`PartialPlan.EmbedsIn.takes`, `canFollow_of_gap`). No resource is overloaded in a partial
plan that is part of a solution (`PartialPlan.EmbedsIn.fitting`).
-/

namespace TemporalPlanning

/-! ### Places -/

/-- The tokens of a sequence have places one behind the other. -/
def Increasing (place : TokenId → Nat) (sequence : List TokenId) : Prop :=
  ∀ (i j : Nat) p q, i < j → sequence[i]? = some p → sequence[j]? = some q → place p < place q

/-- The place `k` falls between the tokens of a sequence, in front of the one at `position`. -/
structure Gap (place : TokenId → Nat) (sequence : List TokenId) (position k : Nat) : Prop where
  le_length : position ≤ sequence.length
  before : ∀ (i : Nat) id, sequence[i]? = some id → i < position → place id < k
  behind : ∀ (i : Nat) id, sequence[i]? = some id → position ≤ i → k < place id

section Places

variable {place : TokenId → Nat} {sequence : List TokenId} {position k : Nat}

/-- There are as many places as tokens before a token. Places only grow along a sequence, so that
none of them can be below its index. -/
theorem Increasing.le_place (h : Increasing place sequence) {i : Nat} {id : TokenId}
    (hi : sequence[i]? = some id) : i ≤ place id := by
  induction i generalizing id with
  | zero => exact Nat.zero_le _
  | succ i ih =>
    have hlt := (List.getElem?_eq_some_iff.mp hi).1
    have hprevious : sequence[i]? = some sequence[i] := List.getElem?_eq_getElem (by omega)
    have := ih hprevious
    -- each place is above the one before it
    have := h i (i + 1) _ _ (Nat.lt_succ_self i) hprevious hi
    omega

/-- No two tokens have one place. Two tokens of one sequence would otherwise stand for one token of
the solution. -/
theorem Increasing.inj (h : Increasing place sequence) {p q : TokenId} (hp : p ∈ sequence)
    (hq : q ∈ sequence) (heq : place p = place q) : p = q := by
  obtain ⟨i, hi⟩ := List.mem_iff_getElem?.mp hp
  obtain ⟨j, hj⟩ := List.mem_iff_getElem?.mp hq
  rcases Nat.lt_trichotomy i j with hij | rfl | hij
  · have := h i j p q hij hi hj
    omega
  · exact Option.some.inj (hi.symm.trans hj)
  · have := h j i q p hij hj hi
    omega

/-- A place of the solution that no token has yet lies in a gap between those that tokens have. -/
theorem Increasing.exists_gap (h : Increasing place sequence)
    (hk : ∀ id ∈ sequence, place id ≠ k) : ∃ position, Gap place sequence position k := by
  -- the gap is in front of the first token whose place is greater
  induction sequence with
  | nil => exact ⟨0, Nat.le_refl _, by simp, by simp⟩
  | cons id rest ih =>
    obtain ⟨hid, hrest⟩ := List.forall_mem_cons.mp hk
    -- the first token stands before the place or behind it
    rcases Nat.lt_or_gt_of_ne hid with hlt | hgt
    · obtain ⟨position, hgap⟩ := ih (fun i j p q hij hp hq =>
        h (i + 1) (j + 1) p q (by omega) (by simpa using hp) (by simpa using hq)) hrest
      refine ⟨position + 1, Nat.succ_le_succ hgap.le_length, fun i id' hi hlt' => ?_,
        fun i id' hi hle => ?_⟩
      · cases i with
        | zero =>
          obtain rfl := Option.some.inj hi
          exact hlt
        | succ i => exact hgap.before i id' (by simpa using hi) (by omega)
      · obtain ⟨i, rfl⟩ := Nat.exists_eq_succ_of_ne_zero (by omega : i ≠ 0)
        exact hgap.behind i id' (by simpa using hi) (by omega)
    · -- the gap is in front of everything
      refine ⟨0, Nat.zero_le _, fun i id' _ hi => absurd hi (Nat.not_lt_zero i),
        fun i id' hi _ => ?_⟩
      cases i with
      | zero =>
        obtain rfl := Option.some.inj hi
        exact hgt
      | succ i =>
        have := h 0 (i + 1) id id' (Nat.succ_pos i) rfl hi
        omega

/-- Tokens with places one behind the other are neighbours. There is no place between the two that a
third token could have. -/
theorem Increasing.eq_succ (h : Increasing place sequence) {i j : Nat} {p q : TokenId}
    (hp : sequence[i]? = some p) (hq : sequence[j]? = some q) (hplace : place q = place p + 1) :
    j = i + 1 := by
  rcases Nat.lt_trichotomy j (i + 1) with hlt | heq | hgt
  · rcases Nat.lt_or_eq_of_le (Nat.le_of_lt_succ hlt) with hlt | rfl
    · have := h j i q p hlt hq hp
      omega
    · obtain rfl := Option.some.inj (hp.symm.trans hq)
      omega
  · exact heq
  · -- a token in between would have a place in between
    have hlength := (List.getElem?_eq_some_iff.mp hq).1
    have hnext : sequence[i + 1]? = some sequence[i + 1] := List.getElem?_eq_getElem (by omega)
    have := h i (i + 1) p _ (Nat.lt_succ_self i) hp hnext
    have := h (i + 1) j _ q hgt hnext hq
    omega

/-- The place before that of a token, if no token has it, falls into the gap in front of it. -/
theorem Increasing.gap_before (h : Increasing place sequence) {j : Nat} {q : TokenId}
    (hq : sequence[j]? = some q) (hplace : place q = k + 1) (hk : ∀ p ∈ sequence, place p ≠ k) :
    Gap place sequence j k where
  le_length := (List.getElem?_eq_some_iff.mp hq).1.le
  -- places increase along the sequence, and `k` is none of them
  before := fun i p hp hlt => by
    have := h i j p q hlt hp hq
    have := hk p (List.mem_of_getElem? hp)
    omega
  behind := fun i p hp hle => by
    rcases Nat.lt_or_eq_of_le hle with hlt | rfl
    · have := h j i q p hlt hq hp
      omega
    · obtain rfl := Option.some.inj (hq.symm.trans hp)
      omega

/-- A gap does not come before its place. The tokens in front of it have different places below it.
-/
theorem Gap.le (hgap : Gap place sequence position k) (h : Increasing place sequence) :
    position ≤ k := by
  cases position with
  | zero => exact Nat.zero_le k
  | succ j =>
    have hlt := Nat.lt_of_succ_le hgap.le_length
    have hj : sequence[j]? = some sequence[j] := List.getElem?_eq_getElem hlt
    have := h.le_place hj
    -- the token before the gap is placed at least at its index, and below the gap
    have := hgap.before j _ hj (Nat.lt_succ_self j)
    omega

/-- A token before a gap has one of the places before that of the gap. -/
theorem Gap.place_before (hgap : Gap place sequence position k) (h : Increasing place sequence)
    {j : Nat} (hj : (Chronicle.before? sequence position).map place = some j) :
    position ≤ j + 1 ∧ j < k := by
  obtain ⟨q, hq, rfl⟩ := Option.map_eq_some_iff.mp hj
  cases position with
  | zero => exact absurd hq (by simp [Chronicle.before?])
  | succ n => exact ⟨Nat.succ_le_succ (h.le_place hq), hgap.before n q hq (Nat.lt_succ_self n)⟩

/-- A token that fills a gap keeps the places in order; the places of the old tokens are not
touched. -/
theorem Increasing.insertIdx (h : Increasing place sequence) {new : TokenId}
    {place' : TokenId → Nat} (hgap : Gap place sequence position (place' new))
    (hold : ∀ id ∈ sequence, place' id = place id) :
    Increasing place' (sequence.insertIdx position new) := by
  intro i j p q hij hp hq
  rw [List.getElem?_insertIdx] at hp hq
  -- each of the two stands before the gap, in it or behind it
  rcases Nat.lt_trichotomy i position with hi | rfl | hi
  · rw [if_pos hi] at hp
    rw [hold p (List.mem_of_getElem? hp)]
    rcases Nat.lt_trichotomy j position with hj | rfl | hj
    · rw [if_pos hj] at hq
      rw [hold q (List.mem_of_getElem? hq)]
      exact h i j p q hij hp hq
    · rw [if_neg (lt_irrefl _), if_pos rfl, if_pos hgap.le_length] at hq
      obtain rfl := Option.some.inj hq
      exact hgap.before i p hp hij
    · rw [if_neg (by omega), if_neg (by omega)] at hq
      rw [hold q (List.mem_of_getElem? hq)]
      exact h i (j - 1) p q (by omega) hp hq
  · -- the new token itself, and one behind it
    rw [if_neg (lt_irrefl _), if_pos rfl, if_pos hgap.le_length] at hp
    obtain rfl := Option.some.inj hp
    rw [if_neg (by omega), if_neg (by omega)] at hq
    rw [hold q (List.mem_of_getElem? hq)]
    exact hgap.behind (j - 1) q hq (by omega)
  · -- both stood behind the gap, one place further to the front
    rw [if_neg (by omega), if_neg (by omega)] at hp hq
    rw [hold p (List.mem_of_getElem? hp), hold q (List.mem_of_getElem? hq)]
    exact h (i - 1) (j - 1) p q (by omega) hp hq

end Places

/-! ### Embedding -/

/-- A token of a plan has the state and the dates of a token. -/
structure PlanToken.Mirrors (date : Timepoint → Int) (t : Token) (pt : PlanToken) : Prop where
  state : pt.state = t.state
  start : pt.start = date t.start
  stop : pt.stop = date t.stop

/-- A partial plan without objects of its own is part of a plan: its tokens have the places and the
dates given. -/
structure PartialPlan.EmbedsIn (m : Model) (p : Plan) (s : PartialPlan) (place : TokenId → Nat)
    (date : Timepoint → Int) : Prop where
  fits : s.network.Fits date
  origin : date .origin = 0
  timelines : s.chronicle.timelines.size = m.timelines.length
  resources : s.reservations.resources.size = m.resources.length
  unsealed : ∀ id host, s.chronicle.timeline id = .ok host → host.sealed = false
  token : ∀ id t host, s.chronicle.token id = .ok t → s.chronicle.timeline t.timeline = .ok host →
    ∃ pt, p.At host.name (place id) pt ∧ pt.Mirrors date t
  increasing : ∀ id host, s.chronicle.timeline id = .ok host → Increasing place host.sequence
  facts : ∀ id host (j : Nat) k, s.chronicle.timeline id = .ok host → j < host.facts →
    host.sequence[j]? = some k → place k = j
  adjacent : ∀ id i state q, s.chronicle.Asks id i (.follows state) →
    s.chronicle.SupportedBy id i (.token q) → place id = place q + 1
  bound : ∀ id i resource reservation t host,
    s.chronicle.SupportedBy id i (.reservation resource reservation) →
      s.chronicle.token id = .ok t → s.chronicle.timeline t.timeline = .ok host →
        ∃ pt r, p.At host.name (place id) pt ∧ s.reservations.resource? resource = some r ∧
          pt.bindings[i]? = some (.named r.name)

namespace PartialPlan

variable {task : Task} {s : PartialPlan} {p : Plan} {place : TokenId → Nat}
  {date : Timepoint → Int} {horizon : Option Int} {id : TimelineId} {host : Timeline}
  {position k : Nat} {pt : PlanToken}

/-- All timelines of the partial plan are declared. The search creates none on the way to this
solution, as solutions have declared objects only. -/
theorem EmbedsIn.exists_declared {m : Model} {facts : Nat → Nat} (h : s.EmbedsIn m p place date)
    (hwf : s.chronicle.WellFormed m facts) (hhost : s.chronicle.timeline id = .ok host) :
    ∃ d, m.timelines[id.index]? = some d ∧ host.name = d.name ∧ host.className = d.className ∧
      host.states = d.states ∧ host.facts = facts id.index := by
  have hlt := Chronicle.index_lt_of_timeline hhost
  rw [h.timelines] at hlt
  have hd : m.timelines[id.index]? = some m.timelines[id.index] := List.getElem?_eq_getElem hlt
  obtain ⟨host', hhost', hdeclared⟩ := hwf.declared _ _ hd
  obtain rfl := Chronicle.timeline_inj hhost hhost'
  exact ⟨_, hd, hdeclared⟩

/-- Tokens of one timeline with one place are one token. -/
theorem EmbedsIn.place_inj {m : Model} {facts : Nat → Nat} (h : s.EmbedsIn m p place date)
    (hwf : s.chronicle.WellFormed m facts) {q r : TokenId} {t u : Token}
    (ht : s.chronicle.token q = .ok t) (hu : s.chronicle.token r = .ok u)
    (htl : t.timeline = u.timeline) (heq : place q = place r) : q = r := by
  obtain ⟨host, hhost, hq⟩ := hwf.placed q t ht
  obtain ⟨host', hhost', hr⟩ := hwf.placed r u hu
  rw [← htl] at hhost'
  obtain rfl := Chronicle.timeline_inj hhost hhost'
  exact (h.increasing _ _ hhost).inj hq hr heq

/-! ### Gaps -/

/-- The facts come before every gap. Their places are all taken, from the first on. -/
theorem EmbedsIn.facts_le_of_gap {m : Model} {facts : Nat → Nat} (h : s.EmbedsIn m p place date)
    (hwf : s.chronicle.WellFormed m facts) (hhost : s.chronicle.timeline id = .ok host)
    (hgap : Gap place host.sequence position k) : host.facts ≤ position := by
  by_contra hlt
  push Not at hlt
  have hlength := hwf.facts_le id host hhost
  have hq : host.sequence[position]? = some host.sequence[position] :=
    List.getElem?_eq_getElem (by omega)
  -- a gap among the facts is impossible: they fill the first places of the plan
  have hfact := h.facts id host position _ hhost hlt hq
  have := hgap.behind position _ hq (Nat.le_refl _)
  have := hgap.le (h.increasing id host hhost)
  omega

/-- A timeline takes a token in every gap. A locked token has the place right behind that of its
predecessor, and leaves no gap; facts fill the first places without a gap; and no timeline is
sealed. -/
theorem EmbedsIn.takes (h : s.EmbedsIn task.model p place date) (hs : s.Sound task task.factCount)
    (hhost : s.chronicle.timeline id = .ok host)
    (hgap : Gap place host.sequence position k) : s.chronicle.Takes host position where
  facts_le := h.facts_le_of_gap hs.ready.chronicle hhost hgap
  le_length := hgap.le_length
  unsealed := fun _ => h.unsealed id host hhost
  unlocked := by
    intro q u hq hu
    have hwf := hs.ready.chronicle
    by_contra hlocked
    rw [Bool.not_eq_false] at hlocked
    -- a token behind the facts is planned, so that a link has locked it
    have horigin : u.origin = .planned := by
      have hle := h.facts_le_of_gap hwf hhost hgap
      have hfirst := hwf.facts_first id host position q u hhost hq hu
      cases hu' : u.origin with
      | planned => rfl
      | fact =>
        have := hfirst.mpr hu'
        omega
    obtain ⟨i, state, r, hasks, hsupport⟩ := hs.locked q u hu horigin hlocked
    obtain ⟨⟨id', host', j, hhost', hr, hq'⟩, -, -⟩ := hs.served q i _ _ hasks hsupport
    -- the supporter stands on the same timeline, right before the gap
    have hid : id' = id := by
      obtain ⟨v, hv, rfl⟩ := (hwf.sequence id' host' hhost').2 q (List.mem_of_getElem? hq')
      obtain ⟨v', hv', rfl⟩ := (hwf.sequence id host hhost).2 q (List.mem_of_getElem? hq)
      rw [Chronicle.token_inj hv hv']
    subst hid
    obtain rfl := Chronicle.timeline_inj hhost hhost'
    -- its place would be right behind that of the supporter, with the gap between the two
    have hposition := Chronicle.place_unique (hwf.sequence _ _ hhost).1 hq hq'
    have := h.adjacent q i state r hasks hsupport
    have := hgap.before j r hr (by omega)
    have := hgap.behind position q hq (Nat.le_refl _)
    omega

/-- A token of a solution behind the facts of its timeline is planned, if its state is declared. -/
theorem planned_of_facts_le (hs : s.Sound task task.factCount) (hm : task.model.WellFormed)
    (hhost : s.chronicle.timeline id = .ok host) (hk : host.facts ≤ k)
    (hpt : p.At host.name k pt) {template : StateTemplate}
    (htemplate : host.template? pt.state = some template) :
    p.Planned task.model host.name k pt template := by
  obtain ⟨d, hd, -, hstates⟩ := hs.ready.chronicle.timelineTemplate? hm hhost
  refine ⟨hpt, by rw [factPrefix_eq hm hs hhost]; exact hk, d, hd, ?_⟩
  rw [TimelineDef.template?, hstates]
  exact htemplate

/-- Behind the facts of a timeline with a class, a solution has tokens of declared states only. -/
theorem EmbedsIn.exists_template (h : s.EmbedsIn task.model p place date)
    (hs : s.Sound task task.factCount) (hm : task.model.WellFormed)
    (hp : p.Solves task.model horizon) (hhost : s.chronicle.timeline id = .ok host)
    (hclass : host.className.isSome) (hpt : p.At host.name k pt) :
    ∃ template, host.template? pt.state = some template := by
  obtain ⟨d, hd, hname, hclass', hstates, -⟩ := h.exists_declared hs.ready.chronicle hhost
  rw [hname] at hpt
  rw [hclass'] at hclass
  have := (hp.obeys hm hd hpt).known hclass
  rw [TimelineDef.template?, ← hstates] at this
  exact Option.isSome_iff_exists.mp this

/-- A timeline with states has a class, as one that facts alone have made has no states. -/
theorem EmbedsIn.isSome_className (h : s.EmbedsIn task.model p place date)
    (hs : s.Sound task task.factCount) (hm : task.model.WellFormed)
    (hhost : s.chronicle.timeline id = .ok host) {state : String} {template : StateTemplate}
    (htemplate : host.template? state = some template) : host.className.isSome := by
  obtain ⟨d, hd, -, hclass, hstates, -⟩ := h.exists_declared hs.ready.chronicle hhost
  cases hnone : host.className with
  | some className => rfl
  | none =>
    have hempty := hm.stateless d (List.mem_of_getElem? hd) (hclass.symm.trans hnone)
    rw [Timeline.template?, hstates, hempty] at htemplate
    exact absurd htemplate (by simp)

/-! ### States in a row -/

/-- The state at a place of an entry of a plan. -/
def stateAt (e : PlanTimeline) (i : Nat) : String := (e.tokens[i]?.map (·.state)).getD ""

/-- The state of an entry in a place where there is a token. -/
theorem stateAt_eq {e : PlanTimeline} {i : Nat} {u : PlanToken} (hu : e.tokens[i]? = some u) :
    stateAt e i = u.state := by
  rw [stateAt, hu, Option.map_some, Option.getD_some]

/-- The state before a gap is the one that the solution has in that place. -/
theorem EmbedsIn.stateBefore_eq (h : s.EmbedsIn task.model p place date)
    (hs : s.Sound task task.factCount) (hm : task.model.WellFormed)
    (hp : p.Solves task.model horizon) (hhost : s.chronicle.timeline id = .ok host)
    {e : PlanTimeline} (he : e ∈ p.timelines) (hname : e.name = host.name)
    {previous : Option String}
    (hprevious : s.chronicle.stateBefore? host position = .ok previous) :
    previous = ((Chronicle.before? host.sequence position).map place).map (stateAt e) := by
  cases hq : Chronicle.before? host.sequence position with
  | none =>
    rw [Chronicle.stateBefore?, hq] at hprevious
    exact (Except.ok.inj hprevious).symm
  | some q =>
    rw [Chronicle.stateBefore?, hq] at hprevious
    obtain ⟨u, hu, hprevious⟩ := Fault.bind_eq_ok.mp hprevious
    obtain rfl := Except.ok.inj hprevious
    obtain ⟨u', hu', htl⟩ :=
      (hs.ready.chronicle.sequence id host hhost).2 q (Chronicle.mem_of_before? hq)
    obtain rfl := Chronicle.token_inj hu hu'
    -- the token before stands on the same timeline, so it mirrors a token of the same entry
    obtain ⟨qt, ⟨e', he', hname', hqt⟩, hmirrors⟩ :=
      h.token q u host hu (by rw [htl]; exact hhost)
    obtain rfl := hp.entry_inj hm he he' (hname.trans hname'.symm)
    rw [Option.map_some, Option.map_some, stateAt_eq hqt, hmirrors.state]

/-- Behind the facts each token of a solution comes right after the sources of its state. -/
theorem EmbedsIn.exists_source (h : s.EmbedsIn task.model p place date)
    (hs : s.Sound task task.factCount) (hm : task.model.WellFormed)
    (hp : p.Solves task.model horizon) (hhost : s.chronicle.timeline id = .ok host)
    (hclass : host.className.isSome) {e : PlanTimeline} (he : e ∈ p.timelines)
    (hname : e.name = host.name) {i : Nat} {u : PlanToken} (hu : e.tokens[i]? = some u)
    (hle : host.facts ≤ i) : ∃ template, host.template? u.state = some template ∧
      ∀ v ∈ template.sources, ∃ j, i = j + 1 ∧ stateAt e j = v := by
  have hat : p.At host.name i u := ⟨e, he, hname, hu⟩
  obtain ⟨template, htemplate⟩ := h.exists_template hs hm hp hhost hclass hat
  refine ⟨template, htemplate, fun v hv => ?_⟩
  -- sources come from conditions on the predecessor, and the solution supports those
  obtain ⟨condition, hmem, hsource⟩ := List.mem_filterMap.mp hv
  obtain ⟨n, hn⟩ := List.mem_iff_getElem?.mp hmem
  obtain ⟨e', he', hname', -, bound, -, hsupports⟩ :=
    hp.exists_binding (planned_of_facts_le hs hm hhost hle hat htemplate) hn
  obtain rfl := hp.entry_inj hm he he' (hname.trans hname'.symm)
  -- only a condition on the predecessor is a source of a state
  cases condition with
  | follows state =>
    obtain rfl := Option.some.inj hsource
    obtain ⟨-, j, w, rfl, hj, hstate, -⟩ := hsupports
    exact ⟨j, rfl, (stateAt_eq hj).trans hstate⟩
  | uses target amount => exact absurd hsource (by simp [Condition.source?])
  | metBy target state => exact absurd hsource (by simp [Condition.source?])
  | during target state => exact absurd hsource (by simp [Condition.source?])

/-- In a gap the search lets a token follow. Between the token before the gap and the place, each
token of the solution is planned and follows one of the sources of its state, so that the states of
the solution make up the chain that the search looks for. -/
theorem EmbedsIn.canFollow_of_gap (h : s.EmbedsIn task.model p place date)
    (hs : s.Sound task task.factCount) (hm : task.model.WellFormed)
    (hp : p.Solves task.model horizon) (hhost : s.chronicle.timeline id = .ok host)
    (hclass : host.className.isSome) (hgap : Gap place host.sequence position k)
    (hpt : p.At host.name k pt) {previous : Option String}
    (hprevious : s.chronicle.stateBefore? host position = .ok previous) :
    canFollow host.states pt.state previous := by
  have hwf := hs.ready.chronicle
  have hincreasing := h.increasing id host hhost
  obtain ⟨e, he, hname, hk⟩ := hpt
  obtain ⟨d, hd, -, -, hstates, -⟩ := h.exists_declared hwf hhost
  rw [h.stateBefore_eq hs hm hp hhost he hname hprevious, ← stateAt_eq hk]
  refine canFollow_of_row (hstates ▸ (hm.allValid d (List.mem_of_getElem? hd)).1) ?_
    fun j hj => (hgap.place_before hincreasing hj).2
  -- the row of states is the one that the entry has from the token before on
  intro i hi hbehind
  have hlength := (List.getElem?_eq_some_iff.mp hk).1
  have hu : e.tokens[i]? = some e.tokens[i] := List.getElem?_eq_getElem (by omega)
  -- what comes behind the token before the gap comes behind the facts
  have hle : host.facts ≤ i := by
    refine (h.facts_le_of_gap hwf hhost hgap).trans ?_
    cases position with
    | zero => exact Nat.zero_le i
    | succ n =>
      have hlast := Nat.lt_of_succ_le hgap.le_length
      have hbefore : (Chronicle.before? host.sequence (n + 1)).map place =
          some (place host.sequence[n]) := by
        rw [Chronicle.before?, List.getElem?_eq_getElem hlast, Option.map_some]
      have := hbehind _ hbefore
      have := (hgap.place_before hincreasing hbefore).1
      omega
  rw [stateAt_eq hu]
  exact h.exists_source hs hm hp hhost hclass he hname hu hle

/-! ### Planned tokens and their resources -/

/-- Only planned tokens have conditions to be supported. -/
theorem origin_of_supports (hs : s.Sound task task.factCount) {q : TokenId} {t : Token}
    (ht : s.chronicle.token q = .ok t) {i : Nat} {slot : Option Support}
    (hslot : t.supports[i]? = some slot) : t.origin = .planned := by
  cases horigin : t.origin with
  | planned => rfl
  | fact =>
    obtain ⟨host, hhost, -⟩ := hs.ready.chronicle.placed q t ht
    rw [(hs.ready.chronicle.fact q t host ht hhost horigin).1] at hslot
    exact absurd hslot (by simp)

/-- A planned token has the place of a planned token of the solution. The facts of a timeline take
its first places in both, so that whatever is behind them here is behind them there. -/
theorem EmbedsIn.exists_planned (h : s.EmbedsIn task.model p place date)
    (hs : s.Sound task task.factCount) (hm : task.model.WellFormed) {q : TokenId} {t : Token}
    (ht : s.chronicle.token q = .ok t) (horigin : t.origin = .planned)
    (hhost : s.chronicle.timeline t.timeline = .ok host) :
    ∃ pt template, host.template? t.state = some template ∧
      p.Planned task.model host.name (place q) pt template ∧ pt.Mirrors date t := by
  have hwf := hs.ready.chronicle
  obtain ⟨pt, hpt, hmirrors⟩ := h.token q t host ht hhost
  obtain ⟨template, htemplate, -⟩ := hwf.planned q t host ht hhost horigin
  obtain ⟨host', j, hhost', hj⟩ := hwf.exists_place ht
  obtain rfl := Chronicle.timeline_inj hhost hhost'
  -- the token is planned, so it stands behind the facts
  have hfacts : host.facts ≤ j := by
    by_contra hlt
    push Not at hlt
    rw [(hwf.facts_first _ host j q t hhost hj ht).mp hlt] at horigin
    exact absurd horigin (by simp)
  -- places only grow, so a token behind the facts has its place behind them
  have hle := (h.increasing _ host hhost).le_place hj
  refine ⟨pt, template, htemplate, ?_, hmirrors⟩
  exact planned_of_facts_le hs hm hhost (hfacts.trans hle) hpt
    (by rw [hmirrors.state]; exact htemplate)

/-- A reservation is held by a token for one of its conditions, and the token of the solution in
its place binds the resource to that condition. -/
structure Matched (task : Task) (p : Plan) (s : PartialPlan) (place : TokenId → Nat)
    (date : Timepoint → Int) (e : ReservationId × Reservation) (resource : ResourceId) (i : Nat)
    (t : Token) (host : Timeline) (pt : PlanToken) (template : StateTemplate) (target : ObjectRef)
    (r : Resource) : Prop where
  token : s.chronicle.token e.2.token = .ok t
  hosted : s.chronicle.timeline t.timeline = .ok host
  template? : host.template? t.state = some template
  start : e.2.start = t.start
  stop : e.2.stop = t.stop
  support : s.chronicle.SupportedBy e.2.token i (.reservation resource e.1)
  resource? : s.reservations.resource? resource = some r
  planned : p.Planned task.model host.name (place e.2.token) pt template
  asks : template.conditions[i]? = some (.uses target e.2.amount)
  binding : pt.bindings[i]? = some (.named r.name)
  mirrors : pt.Mirrors date t

/-- Every reservation of a partial plan that is part of a solution has a usage of the solution to
match it. -/
theorem EmbedsIn.exists_matched (h : s.EmbedsIn task.model p place date)
    (hs : s.Sound task task.factCount) (hm : task.model.WellFormed)
    (hp : p.Solves task.model horizon) {e : ReservationId × Reservation} {resource : ResourceId}
    (he : e ∈ s.reservations.on resource) : ∃ i t host pt template target r,
      Matched task p s place date e resource i t host pt template target r := by
  obtain ⟨hr, rfl⟩ := ReservationBook.mem_on.mp he
  -- the reservation was made for a condition of its token
  obtain ⟨i, target, r, t, ⟨t', host, template, ht', hhost, htemplate, hi⟩, hsupport, hres, -, ht,
    hstart, hstop⟩ := hs.tidy.exists_asks hr
  obtain rfl := Chronicle.token_inj ht ht'
  have ⟨t', ht', hslot⟩ := hsupport
  obtain rfl := Chronicle.token_inj ht ht'
  obtain ⟨pt, template', htemplate', hplanned, hmirrors⟩ :=
    h.exists_planned hs hm ht (origin_of_supports hs ht hslot) hhost
  obtain rfl := Option.some.inj (htemplate.symm.trans htemplate')
  -- what the token has reserved is what the solution binds in its place
  obtain ⟨pt', r', hpt', hres', hbound⟩ := h.bound _ i _ _ t host hsupport ht hhost
  obtain rfl := hp.at_inj hm hplanned.1 hpt'
  obtain rfl := Option.some.inj (hres.symm.trans hres')
  exact ⟨i, t, host, pt, template, target, r, ht, hhost, htemplate, hstart, hstop, hsupport, hres,
    hplanned, hi, hbound, hmirrors⟩

section Matched

variable {e : ReservationId × Reservation} {resource : ResourceId} {i : Nat} {t : Token}
  {template : StateTemplate} {target : ObjectRef} {r : Resource}

/-- With the dates of the solution, a reservation is the usage that matches it. -/
theorem Matched.usage_eq
    (h : Matched task p s place date e resource i t host pt template target r) :
    e.2.usage date = ⟨pt.start, pt.stop, e.2.amount⟩ := by
  rw [Reservation.usage, h.start, h.stop, h.mirrors.start, h.mirrors.stop]

/-- A reservation has its place among the usages of the solution, behind the facts. -/
theorem Matched.mem_placedUses
    (h : Matched task p s place date e resource i t host pt template target r) :
    ((host.name, place e.2.token, i), (r.name, e.2.usage date)) ∈
      (p.placedUses task.model).filter fun (at_, use) =>
        task.model.factPrefix at_.1 ≤ at_.2.1 && use.1 == r.name := by
  obtain ⟨hpt, hprefix, d, hd, htemplate⟩ := h.planned
  refine List.mem_filter.mpr ⟨?_, by simpa using hprefix⟩
  rw [h.usage_eq]
  exact Plan.mem_placedUses hd hpt htemplate h.asks h.binding

/-- The place of a usage tells which reservation it matches. No two slots share a reservation, and
by this no two reservations share a use of the plan. -/
theorem Matched.inj (h : Matched task p s place date e resource i t host pt template target r)
    (hembeds : s.EmbedsIn task.model p place date) (hs : s.Sound task task.factCount)
    {f : ReservationId × Reservation} {i' : Nat} {u : Token} {host' : Timeline} {qt : PlanToken}
    {template' : StateTemplate} {target' : ObjectRef}
    (h' : Matched task p s place date f resource i' u host' qt template' target' r)
    (hname : host.name = host'.name) (hplace : place e.2.token = place f.2.token) (hi : i = i') :
    e.1 = f.1 := by
  have hwf := hs.ready.chronicle
  have htl := hwf.name_inj _ _ _ _ h.hosted h'.hosted hname
  have htoken := hembeds.place_inj hwf h.token h'.token htl hplace
  have hsupport := h.support
  rw [htoken, hi] at hsupport
  exact (Support.reservation.inj (hsupport.unique h'.support)).2

/-- If a token may last under some dates that the network allows, then so it may by its state. -/
theorem Matched.max_ne_zero
    (h : Matched task p s place date e resource i t host pt template target r)
    (hs : s.Sound task task.factCount) {date' : Timepoint → Int} (hdate' : s.network.Fits date')
    (hlasts : date' e.2.start < date' e.2.stop) : template.duration.max ≠ some 0 := by
  have hlength := (hs.respects date' hdate').duration _ _ _ h.token h.hosted
  rw [Timeline.durationOf_eq h.template?] at hlength
  rw [h.start, h.stop] at hlasts
  intro hmax
  have hle : date' t.stop - date' t.start ≤ 0 := by
    simpa [hmax] using (Bool.and_eq_true_iff.mp hlength).2
  omega

end Matched

/-- The reservations of a resource are planned usages of the solution, each of another one: a
reservation belongs to a condition of a token, and the place of the token and the index of the
condition tell its usage from all others. -/
theorem EmbedsIn.usages_subperm (h : s.EmbedsIn task.model p place date)
    (hs : s.Sound task task.factCount) (hm : task.model.WellFormed)
    (hp : p.Solves task.model horizon) {resource : ResourceId} {r : Resource}
    (hr : s.reservations.resource? resource = some r) :
    (s.reservations.usages date resource).Subperm (p.plannedUsages task.model r.name) := by
  -- what a reservation is for has a place in the solution
  have hkey : ∀ e ∈ s.reservations.on resource, ∃ key : String × Nat × Nat,
      ∃ t host pt template target, Matched task p s place date e resource key.2.2 t host pt template
        target r ∧ key.1 = host.name ∧ key.2.1 = place e.2.token := by
    intro e he
    obtain ⟨i, t, host, pt, template, target, r', hmatched⟩ := h.exists_matched hs hm hp he
    obtain rfl := Option.some.inj (hr.symm.trans hmatched.resource?)
    exact ⟨(host.name, place e.2.token, i), t, host, pt, template, target, hmatched, rfl, rfl⟩
  choose! key hkey using hkey
  -- the place of a reservation tells it from all others
  have hinj : ∀ e ∈ s.reservations.on resource, ∀ f ∈ s.reservations.on resource,
      (key e, (r.name, e.2.usage date)) = (key f, (r.name, f.2.usage date)) → e = f := by
    intro e he f hf heq
    obtain ⟨t, host, pt, template, target, hmatched, hname, hplace⟩ := hkey e he
    obtain ⟨u, host', qt, template', target', hmatched', hname', hplace'⟩ := hkey f hf
    have heq := (Prod.mk.inj heq).1
    have hid := hmatched.inj h hs hmatched' (by rw [← hname, ← hname', heq])
      (by rw [← hplace, ← hplace', heq]) (by rw [heq])
    have hre := (ReservationBook.mem_on.mp he).1
    rw [hid, (ReservationBook.mem_on.mp hf).1] at hre
    exact Prod.ext hid (Option.some.inj hre).symm
  -- distinct reservations have distinct keys, and each key with its usage is listed in the solution
  have hsub := List.subperm_of_subset
    (List.Nodup.map_on hinj (ReservationBook.nodup_on resource))
    (List.forall_mem_map.mpr fun e he => by
      obtain ⟨t, host, pt, template, target, hmatched, hname, hplace⟩ := hkey e he
      have hkey_eq : key e = (host.name, place e.2.token, (key e).2.2) := by
        rw [← hname, ← hplace]
      rw [hkey_eq]
      exact hmatched.mem_placedUses)
  have husages := subperm_map (·.2.2) hsub
  rwa [List.map_map] at husages

/-- An instant within another reservation finds its units left by that one. The two are matched with
uses of the solution, where `PairsFit` says that they go together. -/
theorem EmbedsIn.pair_le (h : s.EmbedsIn task.model p place date)
    (hs : s.Sound task task.factCount) (hm : task.model.WellFormed)
    (hp : p.Solves task.model horizon) (hpairs : p.PairsFit task.model) {resource : ResourceId}
    {r : Resource} {capacity : Nat} (hr : s.reservations.resource? resource = some r)
    (hcapacity : r.capacity = some capacity) {e f : ReservationId × Reservation}
    (he : e ∈ s.reservations.on resource) (hf : f ∈ s.reservations.on resource)
    (hstop : date e.2.stop ≤ date e.2.start) (hbefore : date f.2.start < date e.2.start)
    (hbehind : date e.2.start < date f.2.stop) : e.2.amount + f.2.amount ≤ capacity := by
  obtain ⟨d, hd, -, hcap⟩ := hs.book.resourceTemplate? hm hr
  have hplanned : ∀ g ∈ s.reservations.on resource,
      g.2.usage date ∈ p.plannedUsages task.model r.name := fun g hg =>
    (h.usages_subperm hs hm hp hr).subset (List.mem_map_of_mem hg)
  exact hpairs r.name d capacity hd (hcap.trans hcapacity) _ (hplanned e he) _ (hplanned f hf)
    hstop hbefore hbehind

/-- An instant that might have lasted is spared by what is in use across it. The instant is one in
the solution only: its token may last in other schedules of the same network, and then the search
sees a conflict where the solution has none. -/
theorem EmbedsIn.spared (h : s.EmbedsIn task.model p place date)
    (hs : s.Sound task task.factCount) (hm : task.model.WellFormed)
    (hp : p.Solves task.model horizon) (hplain : p.Plain task.model)
    {e : ReservationId × Reservation} {resource : ResourceId} {r : Resource} {capacity : Nat}
    (hr : s.reservations.resource? resource = some r) (hcapacity : r.capacity = some capacity)
    (he : e ∈ s.reservations.on resource) (hstop : date e.2.stop ≤ date e.2.start)
    {date' : Timepoint → Int} (hdate' : s.network.Fits date')
    (hlasts : date' e.2.start < date' e.2.stop) :
    e.2.amount + Usage.across (s.reservations.usages date resource) (date e.2.start)
      ≤ capacity := by
  obtain ⟨i, t, host, pt, template, target, r', hmatched⟩ := h.exists_matched hs hm hp he
  obtain rfl := Option.some.inj (hr.symm.trans hmatched.resource?)
  obtain ⟨d, hd, -, hcap⟩ := hs.book.resourceTemplate? hm hr
  have husage := hmatched.usage_eq
  rw [Reservation.usage, Usage.mk.injEq] at husage
  rw [husage.1, husage.2.1] at hstop
  rw [husage.1]
  have hspare := hplain.spared _ _ _ _ hmatched.planned hstop
    (hmatched.max_ne_zero hs hdate' hlasts) i _ _ _ hmatched.asks hmatched.binding d capacity hd
    (hcap.trans hcapacity)
  -- what is reserved across the instant is in use across it in the solution
  exact (Nat.add_le_add_left (Usage.across_le_of_subperm (h.usages_subperm hs hm hp hr)) _).trans
    hspare

/-- **Nothing is overloaded in a partial plan that is part of a solution.** The verifier has found
no resource overloaded, and the partial plan uses no more than the solution does. -/
theorem EmbedsIn.fitting (h : s.EmbedsIn task.model p place date)
    (hs : s.Sound task task.factCount) (hm : task.model.WellFormed)
    (hp : p.Solves task.model horizon) : s.reservations.Fitting date := by
  intro resource r capacity hr hcapacity
  constructor
  · intro e he
    obtain ⟨hres, rfl⟩ := ReservationBook.mem_on.mp he
    have hheld := hs.held e.1 e.2 r hres hr
    simpa [Resource.canHold, hcapacity] using hheld
  · intro t
    obtain ⟨d, hd, -, hcap⟩ := hs.book.resourceTemplate? hm hr
    -- the reservations are some of the plan's uses, so they use no more than the plan does
    have hsub := (h.usages_subperm hs hm hp hr).trans (Plan.plannedUsages_sublist r.name).subperm
    exact (Usage.total_le_of_subperm hsub).trans
      ((Plan.violations_eq_nil_iff.mp hp.verified).total_le hd (hcap.trans hcapacity) t)

end PartialPlan

end TemporalPlanning
