import TemporalPlanning.Proofs.Sound
import TemporalPlanning.Search.Apply

/-!
# The first partial plan

The partial plan with which a search starts holds the declared objects (`Task.Declared`) and then
the facts, which are placed one after the other, timeline by timeline (`Model.factsInTurn`). What
holds of the declared objects and is kept by every fact holds of the first partial plan
(`Task.start_induct`). So it is tidy, and sound if the numbers of the task are within the range in
which the network is exact (`Task.tidy_of_start`, `Task.sound_of_start`).
-/

namespace TemporalPlanning

/-- A declared resource. -/
def Resource.declared (d : ResourceDef) : Resource := ⟨d.name, d.className, d.capacity, false⟩

/-- A declared timeline, without tokens. -/
def Timeline.declared (d : TimelineDef) : Timeline :=
  { name := d.name, className := d.className, states := d.states, synthesized := false }

namespace Task

variable {task : Task} {s s' : PartialPlan}

/-! ### Declaring objects -/

/-- Declaring resources adds them to the book, in their order, and does nothing else. The book
starts out empty, so that the numbers of the resources are those of the model. -/
theorem declareResources_eq_done {ds : List ResourceDef} {u : Unit}
    (hs : declareResources ds s = .done u s') :
    s'.net = s.net ∧ s'.chron = s.chron ∧
      s'.reservations.resources = s.reservations.resources ++ (ds.map Resource.declared).toArray ∧
      s'.reservations.reservations = s.reservations.reservations := by
  induction ds generalizing s with
  | nil =>
    obtain ⟨-, rfl⟩ := Edit.pure_eq_done.mp hs
    simp
  | cons d ds ih =>
    obtain ⟨_, s₁, h₁, h₂⟩ := Edit.bind_eq_done.mp hs
    obtain ⟨hnet, hchron, hresources, hreservations⟩ := ih h₂
    obtain ⟨book, hbook, rfl⟩ := Edit.onBook_eq_done.mp h₁
    obtain ⟨rfl, rfl⟩ := Prod.mk.inj (Except.ok.inj hbook)
    -- the new resource is pushed in front of those that the rest of the list adds
    refine ⟨hnet, hchron, ?_, hreservations⟩
    rw [hresources]
    show s.reservations.resources.push _ ++ _ = _
    simp [Resource.declared]

/-- Declaring timelines adds them to the chronicle, in their order, and does nothing else. The
chronicle starts out empty, so that the numbers of the timelines are those of the model. -/
theorem declareTimelines_eq_done {ds : List TimelineDef} {u : Unit}
    (hs : declareTimelines ds s = .done u s') :
    s'.net = s.net ∧ s'.book = s.book ∧
      s'.chronicle.timelines = s.chronicle.timelines ++ (ds.map Timeline.declared).toArray ∧
      s'.chronicle.tokens = s.chronicle.tokens ∧ s'.chronicle.links = s.chronicle.links ∧
      s'.chronicle.goalSupports = s.chronicle.goalSupports := by
  induction ds generalizing s with
  | nil =>
    obtain ⟨-, rfl⟩ := Edit.pure_eq_done.mp hs
    simp
  | cons d ds ih =>
    obtain ⟨_, s₁, h₁, h₂⟩ := Edit.bind_eq_done.mp hs
    obtain ⟨hnet, hbook, htimelines, htokens, hlinks, hgoals⟩ := ih h₂
    obtain ⟨chron, hchron, rfl⟩ := Edit.onChronicle_eq_done.mp h₁
    obtain ⟨rfl, rfl⟩ := Prod.mk.inj (Except.ok.inj hchron)
    -- in the same way the timelines come in the order of the list
    refine ⟨hnet, hbook, ?_, htokens, hlinks, hgoals⟩
    rw [htimelines]
    show s.chronicle.timelines.push _ ++ _ = _
    simp [Timeline.declared]

/-- The partial plan of the declared objects alone. -/
structure Declared (task : Task) (s : PartialPlan) : Prop where
  network : s.network = .origin task.config.horizon
  resources : s.reservations.resources = (task.model.resources.map Resource.declared).toArray
  reservations : s.reservations.reservations = #[]
  timelines : s.chronicle.timelines = (task.model.timelines.map Timeline.declared).toArray
  tokens : s.chronicle.tokens = #[]
  links : s.chronicle.links = #[]
  goalSupports : s.chronicle.goalSupports = Array.replicate task.model.goals.length none

/-- After both loops the declared objects are there, and nothing else is. The network has the origin
alone, and there are slots for the goals but no tokens for them. -/
theorem declared_of_done {u u' : Unit} {s₁ s₂ : PartialPlan}
    (h₁ : declareResources task.model.resources
      (.empty task.config.horizon task.model.goals.length) = .done u s₁)
    (h₂ : declareTimelines task.model.timelines s₁ = .done u' s₂) : task.Declared s₂ := by
  obtain ⟨hnet₁, hchron₁, hresources, hreservations⟩ := declareResources_eq_done h₁
  obtain ⟨hnet₂, hbook₂, htimelines, htokens, hlinks, hgoals⟩ := declareTimelines_eq_done h₂
  have hres : s₂.reservations = s₁.reservations := PartialPlan.reservations_congr hbook₂
  have hchron : s₁.chronicle = .empty task.model.goals.length := congrArg Trailed.value hchron₁
  -- neither loop touches what the other one fills
  refine ⟨congrArg Trailed.value (hnet₂.trans hnet₁), ?_, ?_, ?_, ?_, ?_, ?_⟩
  · rw [hres, hresources]
    exact Array.empty_append
  · rw [hres, hreservations]
    rfl
  · rw [htimelines, hchron]
    exact Array.empty_append
  · rw [htokens, hchron]
    rfl
  · rw [hlinks, hchron]
    rfl
  · rw [hgoals, hchron]
    rfl

theorem Declared.timeline_iff (h : task.Declared s) {id : TimelineId} {t : Timeline} :
    s.chronicle.timeline id = .ok t ↔
      ∃ d, task.model.timelines[id.index]? = some d ∧ Timeline.declared d = t := by
  rw [Chronicle.timeline_eq_ok, h.timelines, List.getElem?_toArray, List.getElem?_map,
    Option.map_eq_some_iff]

theorem Declared.token_ne (h : task.Declared s) {id : TokenId} {t : Token} :
    s.chronicle.token id ≠ .ok t := by
  rw [Ne, Chronicle.token_eq_ok, h.tokens]
  simp

theorem Declared.resource_iff (h : task.Declared s) {id : ResourceId} {r : Resource} :
    s.reservations.resource? id = some r ↔
      ∃ d, task.model.resources[id.index]? = some d ∧ Resource.declared d = r := by
  rw [ReservationBook.resource?, h.resources, List.getElem?_toArray, List.getElem?_map,
    Option.map_eq_some_iff]

theorem Declared.reservation_ne (h : task.Declared s) {id : ReservationId} {r : Reservation} :
    s.reservations.reservation? id ≠ some r := by
  rw [ReservationBook.reservation?, h.reservations]
  simp

/-- The chronicle of the declared objects alone is well formed. Without tokens, most of what is
asked of it holds of nothing. -/
theorem Declared.chronicle (h : task.Declared s) (hm : task.model.WellFormed) :
    s.chronicle.WellFormed task.model fun _ => 0 where
  declared := fun i d hd => ⟨_, h.timeline_iff.mpr ⟨d, hd, rfl⟩, rfl, rfl, rfl, rfl⟩
  created := fun id t ht hle => by
    obtain ⟨d, hd, -⟩ := h.timeline_iff.mp ht
    exact absurd (List.getElem?_eq_some_iff.mp hd).1 (Nat.not_lt.mpr hle)
  -- names are distinct in the model
  name_inj := fun id id' t t' ht ht' hname => by
    obtain ⟨d, hd, rfl⟩ := h.timeline_iff.mp ht
    obtain ⟨d', hd', rfl⟩ := h.timeline_iff.mp ht'
    obtain ⟨i⟩ := id
    obtain ⟨j⟩ := id'
    exact congrArg TimelineId.mk (hm.timeline_inj hd hd' hname)
  placed := fun id t ht => absurd ht h.token_ne
  timepoints := fun id t ht => absurd ht h.token_ne
  sequence := fun id host hhost => by
    obtain ⟨d, -, rfl⟩ := h.timeline_iff.mp hhost
    exact ⟨List.nodup_nil, by simp [Timeline.declared]⟩
  facts_le := fun id host hhost => by
    obtain ⟨d, -, rfl⟩ := h.timeline_iff.mp hhost
    exact Nat.zero_le _
  facts_first := fun id host j k t _ _ ht => absurd ht h.token_ne
  fact := fun id t host ht => absurd ht h.token_ne
  planned := fun id t host ht => absurd ht h.token_ne
  goals_size := by rw [h.goalSupports, Array.size_replicate]
  -- no goal is served yet
  goals := fun g goal id _ hg => by
    rw [h.goalSupports, Array.getElem?_replicate] at hg
    split at hg <;> simp at hg

/-- The declared objects alone are a tidy partial plan. Most clauses are about tokens, and there are
none yet. -/
theorem Declared.tidy (h : task.Declared s) (hm : task.model.WellFormed) :
    s.Tidy task.model fun _ => 0 where
  size_eq := by
    rw [h.network, h.tokens]
    rfl
  chronicle := h.chronicle hm
  served := fun id i condition support ⟨t, _, _, ht, _⟩ => absurd ht h.token_ne
  accounted := ⟨fun id r hr => absurd hr h.reservation_ne,
    fun id id' i i' r r' reservation ⟨t, ht, _⟩ => absurd ht h.token_ne⟩
  locked := fun id t ht => absurd ht h.token_ne

/-- The book of the declared objects alone is well formed. Each declared resource has its own number
and name. -/
theorem Declared.book (h : task.Declared s) (hm : task.model.WellFormed) :
    s.reservations.WellFormed task.model where
  declared := fun i d hd => h.resource_iff.mpr ⟨d, hd, rfl⟩
  -- no resource has been created, so that there is none behind the declared ones
  created := fun id r hr hle => by
    obtain ⟨d, hd, -⟩ := h.resource_iff.mp hr
    exact absurd (List.getElem?_eq_some_iff.mp hd).1 (Nat.not_lt.mpr hle)
  name_inj := fun id id' r r' hr hr' hname => by
    obtain ⟨d, hd, rfl⟩ := h.resource_iff.mp hr
    obtain ⟨d', hd', rfl⟩ := h.resource_iff.mp hr'
    obtain ⟨i⟩ := id
    obtain ⟨j⟩ := id'
    exact congrArg ResourceId.mk (hm.resource_inj hd hd' hname)

/-- Where there is no token, any dates will do. -/
theorem Declared.respects (h : task.Declared s) (date : Timepoint → Int) :
    s.chronicle.Respects date where
  duration := fun id t _ ht => absurd ht h.token_ne
  ordered := fun id host i j p q t u hhost _ hp => by
    obtain ⟨d, -, rfl⟩ := h.timeline_iff.mp hhost
    simp [Timeline.declared] at hp
  linked := fun id i condition relation p t u _ _ _ ht => absurd ht h.token_ne

/-- The declared objects alone are a sound partial plan. -/
theorem Declared.sound (h : task.Declared s) (hm : task.model.WellFormed)
    (hhorizon : ∀ k, task.config.horizon = some k → 0 ≤ k ∧ k ≤ Network.horizonLimit) :
    s.Sound task fun _ => 0 := by
  refine (h.tidy hm).sound ?_ (h.book hm) (fun date _ => h.respects date)
    fun id r res hr => absurd hr h.reservation_ne
  rw [h.network]
  exact .origin hhorizon

end Task

/-! ### Facts -/

/-- All facts, timeline by timeline. -/
def Model.factsInTurn (m : Model) : List GroundRef :=
  (List.range m.timelines.length).flatMap m.factsOn

namespace Model

variable {m : Model}

theorem WellFormed.factsOn_eq_nil (hm : m.WellFormed) {i : Nat} (hi : m.timelines.length ≤ i) :
    m.factsOn i = [] := by
  rw [factsOn, List.filter_eq_nil_iff]
  intro f hf heq
  obtain ⟨d, hd, -⟩ := hm.facts f hf
  have := (List.getElem?_eq_some_iff.mp hd).1
  rw [eq_of_beq heq] at this
  omega

/-- The facts in turn, cut down to one timeline. The facts are placed timeline by timeline, each
timeline's own in the order of the problem, so that nothing is reordered within one. -/
theorem WellFormed.filter_factsInTurn (hm : m.WellFormed) (i : Nat) :
    (m.factsInTurn.filter fun f => f.timeline == i) = m.factsOn i := by
  -- of the facts of a timeline all are kept or none
  have one : ∀ j, ((m.factsOn j).filter fun f => f.timeline == i) =
      if j = i then m.factsOn i else [] := by
    intro j
    rw [factsOn, List.filter_filter]
    split
    · next h =>
      subst h
      simp [factsOn]
    · next h =>
      rw [List.filter_eq_nil_iff]
      intro f _ hf
      simp only [Bool.and_eq_true, beq_iff_eq] at hf
      exact h (hf.2.symm.trans hf.1)
  -- of the timelines up to `n`, the one in question gives all its facts, if it is among them
  have range : ∀ n, (List.range n).flatMap (fun j => if j = i then m.factsOn i else []) =
      if i < n then m.factsOn i else [] := by
    intro n
    induction n with
    | zero => rfl
    | succ n ih =>
      rw [List.range_succ, List.flatMap_append, ih, List.flatMap_singleton]
      rcases Nat.lt_trichotomy i n with h | rfl | h
      · simp [h, Nat.lt_succ_of_lt h, h.ne']
      · simp
      · simp [h.ne, show ¬ i < n by omega, show ¬ i < n + 1 by omega]
  rw [factsInTurn, List.filter_flatMap]
  simp only [one]
  rw [range]
  split
  · rfl
  · next h => exact (hm.factsOn_eq_nil (Nat.le_of_not_lt h)).symm

/-- Every fact has its turn. Sorting them by timeline loses none, because each fact is on a timeline
of the model. -/
theorem WellFormed.perm_factsInTurn (hm : m.WellFormed) : m.factsInTurn.Perm m.facts := by
  rw [List.perm_iff_count]
  intro f
  calc m.factsInTurn.count f
      = (m.factsInTurn.filter fun g => g.timeline == f.timeline).count f :=
        (List.count_filter (p := fun g : GroundRef => g.timeline == f.timeline)
          (beq_self_eq_true _)).symm
    _ = (m.factsOn f.timeline).count f := by rw [hm.filter_factsInTurn]
    _ = m.facts.count f :=
        List.count_filter (p := fun g : GroundRef => g.timeline == f.timeline) (beq_self_eq_true _)

/-- The number of facts on a timeline. -/
def countOn (given : List GroundRef) (i : Nat) : Nat :=
  (given.filter fun f => f.timeline == i).length

theorem countOn_concat (given : List GroundRef) (f : GroundRef) :
    countOn (given ++ [f]) =
      fun i => if i = f.timeline then countOn given i + 1 else countOn given i := by
  funext i
  by_cases h : i = f.timeline
  · simp [countOn, h]
  · simp [countOn, h, Ne.symm h]

/-- The next fact in turn is the next one of its timeline. -/
theorem WellFormed.getElem?_factsOn (hm : m.WellFormed) {given rest : List GroundRef}
    {f : GroundRef} (h : m.factsInTurn = given ++ f :: rest) :
    (m.factsOn f.timeline)[countOn given f.timeline]? = some f := by
  rw [← hm.filter_factsInTurn, h, List.filter_append, countOn, List.getElem?_append_right le_rfl]
  simp

end Model

namespace Task

variable {task : Task} {s s' : PartialPlan}

/-- Places facts, each on its timeline. -/
def placeEach : List GroundRef → Edit Unit
  | [] => pure ()
  | f :: rest => do
    let _ ← Edit.addFact ⟨f.timeline⟩ f.state
    placeEach rest

theorem placeEach_append (fs gs : List GroundRef) :
    placeEach (fs ++ gs) = (do placeEach fs; placeEach gs) := by
  induction fs with
  | nil => rfl
  | cons f fs ih =>
    funext s
    rw [List.cons_append, placeEach, placeEach, ih]
    exact Edit.bind_assoc_apply.symm

/-- Placing the facts of a timeline is placing each of them on its own. -/
theorem placeFacts_eq {i : Nat} {fs : List GroundRef} (h : ∀ f ∈ fs, f.timeline = i) :
    placeFacts ⟨i⟩ fs = placeEach fs := by
  induction fs with
  | nil => rfl
  | cons f fs ih =>
    obtain ⟨rfl, h⟩ := List.forall_mem_cons.mp h
    rw [placeFacts, placeEach, ih h]

/-- Placing the facts of several timelines is placing them one by one, in turn. -/
theorem placeAllFacts_eq (is : List Nat) :
    task.placeAllFacts is = placeEach (is.flatMap task.model.factsOn) := by
  induction is with
  | nil => rfl
  | cons i is ih =>
    rw [placeAllFacts, List.flatMap_cons, placeEach_append, ih, placeFacts_eq fun f hf => ?_]
    exact eq_of_beq (List.mem_filter.mp hf).2

/-- A search starts from the declared objects, with each fact placed in turn. -/
theorem start_eq_done {u : Unit} (hs : task.start = .done u s') :
    ∃ s, task.Declared s ∧ placeEach task.model.factsInTurn s = .done u s' := by
  obtain ⟨_, s₁, h₁, hs⟩ := Edit.bind_eq_done.mp hs
  obtain ⟨_, s₂, h₂, h₃⟩ := Edit.bind_eq_done.mp hs
  rw [placeAllFacts_eq] at h₃
  exact ⟨s₂, declared_of_done h₁ h₂, h₃⟩

/-- **What holds of the declared objects and is kept by every fact holds of the first partial
plan.** `P given s` is about a partial plan in which the facts `given` have been placed. -/
theorem start_induct {P : List GroundRef → PartialPlan → Prop}
    (hdeclared : ∀ s, task.Declared s → P [] s)
    (hfact : ∀ given f rest, task.model.factsInTurn = given ++ f :: rest → ∀ s fact s', P given s →
      Edit.addFact ⟨f.timeline⟩ f.state s = .done fact s' → P (given ++ [f]) s')
    {u : Unit} (hs : task.start = .done u s') : P task.model.factsInTurn s' := by
  -- by induction on the facts that still have to be placed
  have each : ∀ rest given s, task.model.factsInTurn = given ++ rest → P given s →
      placeEach rest s = .done u s' → P task.model.factsInTurn s' := by
    intro rest
    induction rest with
    | nil =>
      intro given s hgiven h hs
      obtain ⟨-, rfl⟩ := Edit.pure_eq_done.mp hs
      rw [hgiven, List.append_nil]
      exact h
    | cons f rest ih =>
      intro given s hgiven h hs
      obtain ⟨fact, s₁, h₁, h₂⟩ := Edit.bind_eq_done.mp hs
      exact ih (given ++ [f]) s₁ (by rw [hgiven, List.append_assoc]; rfl)
        (hfact given f rest hgiven s fact s₁ h h₁) h₂
  obtain ⟨s, hs₀, hs⟩ := start_eq_done hs
  exact each _ [] s rfl (hdeclared s hs₀) hs

end Task

namespace PartialPlan

variable {task : Task} {facts : Nat → Nat} {s s' : PartialPlan}

/-- The last one of a list comes before its end. -/
theorem before?_length (l : List TokenId) : Chronicle.before? l l.length = l.getLast? := by
  cases l with
  | nil => rfl
  | cons a l => simp [Chronicle.before?, List.getLast?_eq_getElem?]

/-- Adding a fact of a declared timeline keeps a partial plan sound. The count of facts grows by one
on the timeline of the fact, which is what the invariant of the set-up counts. -/
theorem Sound.addFact (h : s.Sound task facts) (hm : task.model.WellFormed)
    (hsize : s.network.size + 1 < Network.sizeLimit) {f : GroundRef} (hf : f ∈ task.model.facts)
    {fact : TokenId} (hs : Edit.addFact ⟨f.timeline⟩ f.state s = .done fact s') :
    s'.Sound task (fun i => if i = f.timeline then facts i + 1 else facts i) ∧
      s'.chronicle.tokens.size = s.chronicle.tokens.size + 1 := by
  obtain ⟨host, added, hsteady, hfits⟩ := Edit.addFact_eq_done h.ready hm hsize hs
  have hhost := added.timeline_eq
  have hres : s'.reservations = s.reservations := PartialPlan.reservations_congr added.book_eq
  refine ⟨(h.tidy.addFact hm hf hs).sound hsteady (by rw [hres]; exact h.book)
    (fun date hdate => ?_) (by rw [hres]; exact h.held), ?_⟩
  · obtain ⟨hdate, hfit⟩ := (hfits date).mp hdate
    rw [added.chronicle_eq]
    refine (h.respects date hdate).enter h.ready.chronicle hm h.served hhost (Nat.le_refl _)
      (Chronicle.grows_enter hhost fun k u hk _ => by simp at hk) (Token.isBlank_given _ _ _ _)
      hfit.duration (fun p u hp hu => ?_) fun n u hn _ => by simp at hn
    -- a fact comes last, so there is a token before it but none behind
    rw [before?_length] at hp
    exact (hfit.previous p u hp hu).le
  · rw [added.chronicle_eq]
    exact Array.size_push _

end PartialPlan

namespace Task

variable {task : Task} {s : PartialPlan}

open Model (countOn countOn_concat)

/-- All facts in turn count, for each timeline, the facts on it. -/
theorem countOn_factsInTurn (hm : task.model.WellFormed) :
    countOn task.model.factsInTurn = fun i => (task.model.factsOn i).length := by
  funext i
  rw [countOn, hm.filter_factsInTurn]

/-- **A search starts with a tidy partial plan.** -/
theorem tidy_of_start (hm : task.model.WellFormed) {u : Unit} (hs : task.start = .done u s) :
    s.Tidy task.model fun i => (task.model.factsOn i).length := by
  rw [← countOn_factsInTurn hm]
  refine start_induct (P := fun given s => s.Tidy task.model (countOn given))
    (fun s hs => hs.tidy hm) (fun given f rest hgiven s fact s' h hs => ?_) hs
  rw [countOn_concat]
  refine h.addFact hm (hm.perm_factsInTurn.mem_iff.mp ?_) hs
  rw [hgiven]
  simp

/-- The first partial plan has one token for each fact. It bounds the timepoints at the start, to
which each decision adds two at most. -/
theorem tokens_of_start (hm : task.model.WellFormed) {u : Unit} (hs : task.start = .done u s) :
    s.chronicle.tokens.size = task.model.facts.length := by
  rw [← hm.perm_factsInTurn.length_eq]
  refine (start_induct (P := fun given s => s.Tidy task.model (countOn given) ∧
      s.chronicle.tokens.size = given.length)
    (fun s hs => ⟨hs.tidy hm, by simp [hs.tokens]⟩) ?_ hs).2
  rintro given f rest hgiven s fact s' ⟨h, hcount⟩ hs
  -- each fact pushes one token
  obtain ⟨_, added, -⟩ := Edit.addFact_footprint h.size_eq hs
  rw [countOn_concat]
  refine ⟨h.addFact hm (hm.perm_factsInTurn.mem_iff.mp (by rw [hgiven]; simp)) hs, ?_⟩
  rw [added.chronicle_eq, List.length_append, List.length_singleton, ← hcount]
  exact Array.size_push _

/-- **What holds of the declared objects and is kept by every fact of a sound partial plan holds of
the first partial plan.** -/
theorem start_induct_of_sound (hm : task.model.WellFormed)
    (hhorizon : ∀ k, task.config.horizon = some k → 0 ≤ k ∧ k ≤ Network.horizonLimit)
    (hsize : 2 * task.model.facts.length < Network.sizeLimit)
    {P : List GroundRef → PartialPlan → Prop} (hdeclared : ∀ s, task.Declared s → P [] s)
    (hfact : ∀ given f rest, task.model.factsInTurn = given ++ f :: rest → ∀ s fact s',
      s.Sound task (countOn given) → s.network.size + 1 < Network.sizeLimit → P given s →
        Edit.addFact ⟨f.timeline⟩ f.state s = .done fact s' → P (given ++ [f]) s')
    {u : Unit} (hs : task.start = .done u s) :
    s.Sound task (fun i => (task.model.factsOn i).length) ∧ P task.model.factsInTurn s := by
  have hlength := hm.perm_factsInTurn.length_eq
  rw [← countOn_factsInTurn hm]
  -- soundness is carried along, and with it the number of tokens, which bounds the network
  have hall := start_induct (P := fun given s => s.Sound task (countOn given) ∧
      s.chronicle.tokens.size = given.length ∧ P given s)
    (fun s hs => ⟨hs.sound hm hhorizon, by simp [hs.tokens], hdeclared s hs⟩) ?_ hs
  · exact ⟨hall.1, hall.2.2⟩
  rintro given f rest hgiven s fact s' ⟨h, hcount, hP⟩ hs
  have hturn : given.length + 1 + rest.length = task.model.facts.length := by
    rw [← hlength, hgiven, List.length_append, List.length_cons]
    omega
  have hroom : s.network.size + 1 < Network.sizeLimit := by
    rw [h.ready.size_eq]
    omega
  have hf : f ∈ task.model.facts := hm.perm_factsInTurn.mem_iff.mp (by rw [hgiven]; simp)
  obtain ⟨hsound, hcount'⟩ := h.addFact hm hroom hf hs
  rw [countOn_concat, List.length_append, List.length_singleton]
  exact ⟨hsound, by omega,
    hfact given f rest hgiven s fact s' h hroom hP hs⟩

/-- **A search starts with a sound partial plan**, which has no more tokens than there are facts. -/
theorem sound_of_start (hm : task.model.WellFormed)
    (hhorizon : ∀ k, task.config.horizon = some k → 0 ≤ k ∧ k ≤ Network.horizonLimit)
    (hsize : 2 * task.model.facts.length < Network.sizeLimit) {u : Unit}
    (hs : task.start = .done u s) :
    s.Sound task (fun i => (task.model.factsOn i).length) ∧
      s.chronicle.tokens.size ≤ task.model.facts.length :=
  ⟨(start_induct_of_sound (P := fun _ _ => True) hm hhorizon hsize (fun _ _ => trivial)
    (fun _ _ _ _ _ _ _ _ _ _ _ => trivial) hs).1, (tokens_of_start hm hs).le⟩

end Task

end TemporalPlanning
