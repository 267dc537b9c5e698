import Mathlib.Tactic.Linarith
import TemporalPlanning.Model.Load

/-!
# What a loaded problem guarantees

A model that was loaded without error is well formed (`Model.wellFormed_of_load`): every name stands
for exactly one object, the states of a timeline are declared once and with valid durations, facts
and goals are on timelines that there are, and the facts of a declared timeline are states of it.

Names are entered one by one; as long as no name is taken, the table of names tells the index of
each object (`Load.Entered`).
-/

namespace TemporalPlanning

/-- A length is allowed if it is within the bounds. -/
theorem Duration.contains_iff {d : Duration} {length : Int} :
    d.contains length ↔ d.min ≤ length ∧ ∀ longest, d.max = some longest → length ≤ longest := by
  unfold contains
  cases d.max <;> simp

/-- Valid bounds allow no negative length. -/
theorem Duration.nonneg_of_contains {d : Duration} {length : Int} (hd : d.isValid)
    (h : d.contains length) : 0 ≤ length := by
  have hlength := (contains_iff.mp h).1
  simp only [isValid, Bool.and_eq_true, decide_eq_true_eq] at hd
  omega

/-- The states of a timeline are declared once and with valid durations. -/
def StateTemplate.AllValid (states : List StateTemplate) : Prop :=
  (states.map (·.name)).Nodup ∧ ∀ st ∈ states, st.duration.isValid

namespace Load

/-- The table of names tells the index of every resource and of every timeline, and no more. -/
def Entered (resources : List ResourceDef) (timelines : List TimelineDef)
    (names : List (String × ObjectKey)) : Prop :=
  ∀ name,
    (∀ i, names.lookup name = some (.resource i) ↔ ∃ d, resources[i]? = some d ∧ d.name = name) ∧
    ∀ i, names.lookup name = some (.timeline i) ↔ ∃ d, timelines[i]? = some d ∧ d.name = name

/-- What stands in a list with one more element. Both tables of the loader grow at the end, so that
this is the look-up in all of its steps. -/
theorem getElem?_concat_iff {α : Type} {as : List α} {a d : α} {i : Nat} :
    (as ++ [a])[i]? = some d ↔ as[i]? = some d ∨ (i = as.length ∧ a = d) := by
  rw [List.getElem?_append]
  split
  · next h => exact ⟨.inl, fun h' => h'.resolve_right fun ⟨hi, _⟩ => by omega⟩
  · next h =>
    have hnone : as[i]? = none := List.getElem?_eq_none (by omega)
    rw [hnone]
    -- behind the old elements there is one place
    by_cases hi : i = as.length
    · subst hi
      simp
    · simp only [hi, false_and, or_false, reduceCtorEq, iff_false]
      rw [List.getElem?_eq_none (by simp only [List.length_singleton]; omega)]
      simp

/-- A new name hides an old entry of the same name only. -/
theorem lookup_cons_eq {names : List (String × ObjectKey)} {name name' : String} {k : ObjectKey} :
    ((name', k) :: names).lookup name = if name = name' then some k else names.lookup name := by
  rw [List.lookup_cons]
  by_cases h : name = name'
  · simp [h]
  · rw [if_neg h, beq_eq_false_iff_ne.mpr h]

variable {resources : List ResourceDef} {timelines : List TimelineDef}
  {names : List (String × ObjectKey)}

/-- One more resource with a new name. The table of names keeps telling resources and timelines
apart. That the name is new has to be asked: entering it twice would hide the object that had it
first. -/
theorem Entered.resource (h : Entered resources timelines names) {r : ResourceDef}
    (hr : names.lookup r.name = none) :
    Entered (resources ++ [r]) timelines ((r.name, .resource resources.length) :: names) := by
  have fresh := h r.name
  rw [hr] at fresh
  intro name
  obtain ⟨hres, htl⟩ := h name
  -- the new name means the new resource alone, all others what they meant
  by_cases hname : name = r.name
  · subst hname
    simp only [lookup_cons_eq, if_true, Option.some.injEq, ObjectKey.resource.injEq,
      getElem?_concat_iff, reduceCtorEq, false_iff]
    -- an older object of this name would have made the look-up succeed
    refine ⟨fun i => ⟨fun hi => ⟨r, .inr ⟨hi.symm, rfl⟩, rfl⟩, ?_⟩, fun i hd => ?_⟩
    · rintro ⟨d, hd | ⟨rfl, -⟩, hdname⟩
      · exact absurd ((fresh.1 i).mpr ⟨d, hd, hdname⟩) (by simp)
      · rfl
    · exact absurd ((fresh.2 i).mpr hd) (by simp)
  · simp only [lookup_cons_eq, if_neg hname, getElem?_concat_iff]
    refine ⟨fun i => (hres i).trans ⟨fun ⟨d, hd, hdn⟩ => ⟨d, .inl hd, hdn⟩, ?_⟩, htl⟩
    rintro ⟨d, hd | ⟨-, rfl⟩, hdn⟩
    · exact ⟨d, hd, hdn⟩
    · exact absurd hdn.symm hname

/-- One more timeline with a new name; its index is the number of timelines before it. It is the
counterpart for timelines of what holds of a resource that is entered. -/
theorem Entered.timeline (h : Entered resources timelines names) {t : TimelineDef}
    (ht : names.lookup t.name = none) :
    Entered resources (timelines ++ [t]) ((t.name, .timeline timelines.length) :: names) := by
  have fresh := h t.name
  rw [ht] at fresh
  intro name
  obtain ⟨hres, htl⟩ := h name
  -- the new name means the new timeline alone, all others what they meant
  by_cases hname : name = t.name
  · subst hname
    simp only [lookup_cons_eq, if_true, Option.some.injEq, ObjectKey.timeline.injEq,
      getElem?_concat_iff, reduceCtorEq, false_iff]
    -- an older object of this name would have made the look-up succeed
    refine ⟨fun i hd => ?_, fun i => ⟨fun hi => ⟨t, .inr ⟨hi.symm, rfl⟩, rfl⟩, ?_⟩⟩
    · exact absurd ((fresh.1 i).mpr hd) (by simp)
    · rintro ⟨d, hd | ⟨rfl, -⟩, hdname⟩
      · exact absurd ((fresh.2 i).mpr ⟨d, hd, hdname⟩) (by simp)
      · rfl
  · simp only [lookup_cons_eq, if_neg hname, getElem?_concat_iff]
    refine ⟨hres, fun i => (htl i).trans ⟨fun ⟨d, hd, hdn⟩ => ⟨d, .inl hd, hdn⟩, ?_⟩⟩
    rintro ⟨d, hd | ⟨-, rfl⟩, hdn⟩
    · exact ⟨d, hd, hdn⟩
    · exact absurd hdn.symm hname

/-- If no duplicate was reported, the name was free, and nothing else was reported either. -/
theorem lookup_eq_none_of_free {name : String} {errors : List LoadError}
    (h : (if (names.lookup name).isSome then [LoadError.duplicateName name] else []) ++ errors =
      []) :
    names.lookup name = none ∧ errors = [] := by
  obtain ⟨hfree, herrors⟩ := List.append_eq_nil_iff.mp h
  refine ⟨?_, herrors⟩
  split at hfree
  · exact absurd hfree (by simp)
  · next hnone => exact Option.not_isSome_iff_eq_none.mp hnone

/-- Resources are entered one after the other as long as no error is reported. Errors are only
collected, never taken back, and so their absence at the end is their absence on the way. -/
theorem entered_enterResources (h : Entered resources timelines names) (rest : List ResourceDef)
    (herrors : (enterResources names resources.length rest).2 = []) :
    Entered (resources ++ rest) timelines (enterResources names resources.length rest).1 := by
  induction rest generalizing resources names with
  | nil => simpa [enterResources] using h
  | cons r rest ih =>
    obtain ⟨hfree, herrors⟩ := lookup_eq_none_of_free herrors
    have hnext := h.resource hfree
    have := ih hnext (by simpa using herrors)
    simpa [enterResources] using this

/-- The states of a timeline have no errors just in case they are valid and not seen before. -/
theorem stateErrors_eq_nil_iff {timeline : String} {states : List StateTemplate}
    {seen : List String} :
    stateErrors timeline seen states = [] ↔
      StateTemplate.AllValid states ∧ ∀ st ∈ states, st.name ∉ seen := by
  induction states generalizing seen with
  | nil => simp [stateErrors, StateTemplate.AllValid]
  | cons st states ih =>
    -- a state was not seen before a later one just in case the later one has another name
    have hfresh : (∀ s ∈ states, s.name ∉ st.name :: seen) ↔
        st.name ∉ states.map (·.name) ∧ ∀ s ∈ states, s.name ∉ seen := by
      simp only [List.mem_cons, not_or, List.mem_map, not_exists, not_and]
      exact ⟨fun h => ⟨fun s hs => (h s hs).1, fun s hs => (h s hs).2⟩,
        fun h s hs => ⟨h.1 s hs, h.2 s hs⟩⟩
    simp only [stateErrors, List.append_eq_nil_iff, ih, hfresh, StateTemplate.AllValid,
      List.map_cons, List.nodup_cons, List.forall_mem_cons, ite_eq_right_iff, ite_eq_left_iff,
      List.contains_iff_mem, List.cons_ne_nil, imp_false, Bool.not_eq_true, Bool.not_eq_false]
    tauto

/-- Timelines are entered in the same way, and their states are checked on the way. The errors are a
concatenation over the timelines, so that none at the end means none at any of them. -/
theorem entered_enterTimelines (h : Entered resources timelines names) (rest : List TimelineDef)
    (herrors : (enterTimelines names timelines.length rest).2 = []) :
    Entered resources (timelines ++ rest) (enterTimelines names timelines.length rest).1 ∧
      ∀ t ∈ rest, StateTemplate.AllValid t.states := by
  induction rest generalizing timelines names with
  | nil => simpa [enterTimelines] using h
  | cons t rest ih =>
    -- the errors of the first timeline come first: its name, then its states
    have herrors' : (if (names.lookup t.name).isSome then [LoadError.duplicateName t.name] else [])
        ++ (stateErrors t.name [] t.states ++ (enterTimelines
          ((t.name, .timeline timelines.length) :: names) (timelines.length + 1) rest).2) = [] := by
      rw [← List.append_assoc]
      exact herrors
    obtain ⟨hfree, herrors'⟩ := lookup_eq_none_of_free herrors'
    obtain ⟨hstates, herrors'⟩ := List.append_eq_nil_iff.mp herrors'
    obtain ⟨hentered, hall⟩ := ih (h.timeline hfree) (by simpa using herrors')
    refine ⟨by simpa [enterTimelines] using hentered, List.forall_mem_cons.mpr ⟨?_, hall⟩⟩
    exact (stateErrors_eq_nil_iff.mp hstates).1

/-! ### Facts -/

/-- What holds of the names, the timelines and the facts while the facts are gone through. -/
structure Ground.Sound (resources : List ResourceDef) (g : Ground) : Prop where
  entered : Entered resources g.timelines g.names
  allValid : ∀ d ∈ g.timelines, StateTemplate.AllValid d.states
  stateless : ∀ d ∈ g.timelines, d.className = none → d.states = []
  facts : ∀ f ∈ g.facts, ∃ d, g.timelines[f.timeline]? = some d ∧
    (d.className.isSome → (d.template? f.state).isSome)

theorem errors_prefix_addFact (g : Ground) (fact : Statement) :
    g.errors <+: (addFact g fact).errors := by
  unfold addFact
  split
  · exact List.prefix_append _ _
  · exact List.prefix_append _ _
  · exact List.prefix_refl _

/-- Errors are only added. -/
theorem errors_prefix_foldl_addFact (g : Ground) (facts : List Statement) :
    g.errors <+: (facts.foldl addFact g).errors := by
  induction facts generalizing g with
  | nil => exact List.prefix_refl _
  | cons fact facts ih => exact (errors_prefix_addFact g fact).trans (ih _)

/-- No errors at the end means none on the way. -/
theorem errors_addFact_of_foldl {g : Ground} {fact : Statement} {facts : List Statement}
    (herrors : ((fact :: facts).foldl addFact g).errors = []) : (addFact g fact).errors = [] := by
  have := errors_prefix_foldl_addFact (addFact g fact) facts
  rw [← List.foldl_cons, herrors] at this
  exact List.prefix_nil.mp this

theorem length_facts_addFact (g : Ground) (fact : Statement) :
    (addFact g fact).facts.length ≤ g.facts.length + 1 := by
  unfold addFact
  split <;> simp

/-- A fact without error keeps what is known sound. The fact is on a declared timeline, whose states
it has to know, on one that an earlier fact has brought in, or on a new one. -/
theorem Ground.Sound.addFact {g : Ground} (h : g.Sound resources) {fact : Statement}
    (herrors : (addFact g fact).errors = []) : (Load.addFact g fact).Sound resources := by
  unfold Load.addFact at herrors ⊢
  split
  · next hlookup =>
    rw [hlookup] at herrors
    exact absurd herrors (by simp)
  · -- a declared timeline has to know the state of the fact, if it has a class
    next i hlookup =>
    obtain ⟨d, hd, hname⟩ := ((h.entered _).2 i).mp hlookup
    refine ⟨h.entered, h.allValid, h.stateless, ?_⟩
    refine List.forall_mem_append.mpr ⟨h.facts, List.forall_mem_singleton.mpr ⟨d, hd, ?_⟩⟩
    simp only [hlookup, hd, List.append_eq_nil_iff] at herrors
    -- otherwise an error would have been reported
    intro hclass
    by_contra hnone
    have herror := herrors.2
    rw [if_pos (by simpa [hclass] using hnone)] at herror
    exact absurd herror (by simp)
  · next hlookup =>
    -- an unknown timeline is entered without class and states
    have hnew : StateTemplate.AllValid [] := ⟨List.nodup_nil, by simp⟩
    refine ⟨h.entered.timeline (t := ⟨fact.timeline, none, []⟩) hlookup,
      List.forall_mem_append.mpr ⟨h.allValid, List.forall_mem_singleton.mpr hnew⟩,
      List.forall_mem_append.mpr ⟨h.stateless, List.forall_mem_singleton.mpr fun _ => rfl⟩, ?_⟩
    refine List.forall_mem_append.mpr ⟨fun f hf => ?_, List.forall_mem_singleton.mpr ?_⟩
    · obtain ⟨d, hd, hstate⟩ := h.facts f hf
      exact ⟨d, getElem?_concat_iff.mpr (.inl hd), hstate⟩
    · exact ⟨_, getElem?_concat_iff.mpr (.inr ⟨rfl, rfl⟩), by simp⟩

/-- Without errors all facts together keep what is known sound, and there are no more of them than
were given. -/
theorem foldl_addFact {g : Ground} (h : g.Sound resources) (facts : List Statement)
    (herrors : (facts.foldl addFact g).errors = []) :
    (facts.foldl addFact g).Sound resources ∧
      (facts.foldl addFact g).facts.length ≤ g.facts.length + facts.length := by
  induction facts generalizing g with
  | nil => exact ⟨h, by simp⟩
  | cons fact facts ih =>
    -- errors only pile up: with none at the end there is none after the first fact
    obtain ⟨hsound, hlength⟩ := ih (h.addFact (errors_addFact_of_foldl herrors)) herrors
    have := length_facts_addFact g fact
    refine ⟨hsound, ?_⟩
    rw [List.foldl_cons, List.length_cons]
    omega

/-- Facts only add timelines without class. A class is given in a declaration, and so the class
tells declared timelines apart from the others. -/
theorem mem_timelines_foldl_addFact {g : Ground} {facts : List Statement} {d : TimelineDef}
    (hd : d ∈ (facts.foldl addFact g).timelines) : d ∈ g.timelines ∨ d.className = none := by
  induction facts generalizing g with
  | nil => exact .inl hd
  | cons fact facts ih =>
    refine (ih hd).elim (fun hd => ?_) .inr
    -- only a fact on an unknown name adds a timeline
    unfold addFact at hd
    split at hd
    · exact .inl hd
    · exact .inl hd
    · rcases List.mem_append.mp hd with hd | hd
      · exact .inl hd
      · obtain rfl := List.mem_singleton.mp hd
        exact .inr rfl

/-- Goals are on declared timelines. A goal about any other timeline is reported, not resolved.
Declared timelines are those with a class, which is how the rewritten goals are told apart from
goals on timelines that only facts have named. -/
theorem resolveGoals_declared (g : Ground) (goals : List Statement) :
    ∀ goal ∈ (resolveGoals g goals).1, ∃ d, g.timelines[goal.timeline]? = some d ∧
      d.className.isSome := by
  induction goals with
  | nil => simp [resolveGoals]
  | cons goal goals ih =>
    simp only [resolveGoals]
    split
    · exact ih
    · next i htarget =>
      -- a goal is taken over only if its timeline has a class, which only declared ones have
      refine List.forall_mem_cons.mpr ⟨?_, ih⟩
      split at htarget
      · split at htarget
        · next hclass =>
          obtain rfl := Option.some.inj htarget
          obtain ⟨className, hclassName⟩ := Option.isSome_iff_exists.mp hclass
          obtain ⟨d, hd, hdclass⟩ := Option.bind_eq_some_iff.mp hclassName
          exact ⟨d, hd, by simp [hdclass]⟩
        · exact absurd htarget (by simp)
      · exact absurd htarget (by simp)

/-! ### Before the facts -/

theorem entered_nil : Entered [] [] [] := by
  intro name
  simp

/-- The names are entered, and no fact was gone through yet. -/
def start (p : Problem) : Ground where
  timelines := timelineDefs p
  names := (enterTimelines (enterResources [] 0 (resourceDefs p)).1 0 (timelineDefs p)).1

theorem isSome_className_of_mem {p : Problem} {t : TimelineDef} (ht : t ∈ timelineDefs p) :
    t.className.isSome := by
  obtain ⟨i, hi, rfl⟩ := List.mem_mapIdx.mp ht
  rfl

/-- What is known after all names are entered is sound. -/
theorem sound_start {p : Problem} (hresources : (enterResources [] 0 (resourceDefs p)).2 = [])
    (htimelines : (enterTimelines (enterResources [] 0 (resourceDefs p)).1 0
      (timelineDefs p)).2 = []) : (start p).Sound (resourceDefs p) := by
  have hres := entered_enterResources entered_nil (resourceDefs p) hresources
  obtain ⟨htl, hvalid⟩ := entered_enterTimelines hres (timelineDefs p) htimelines
  refine ⟨htl, hvalid, fun t ht hnone => ?_, by simp [start]⟩
  exact absurd (isSome_className_of_mem ht) (by simp [hnone])

end Load

/-! ### Whole models -/

/-- What holds of a model that was loaded without error. -/
structure Model.WellFormed (m : Model) : Prop where
  /-- Every name stands for one object. -/
  entered : Load.Entered m.resources m.timelines m.names
  allValid : ∀ d ∈ m.timelines, StateTemplate.AllValid d.states
  /-- Timelines that only facts mention have no states. -/
  stateless : ∀ d ∈ m.timelines, d.className = none → d.states = []
  facts : ∀ f ∈ m.facts, ∃ d, m.timelines[f.timeline]? = some d ∧
    (d.className.isSome → (d.template? f.state).isSome)
  goals : ∀ g ∈ m.goals, ∃ d, m.timelines[g.timeline]? = some d ∧ d.className.isSome

/-- **A problem that can be loaded becomes a well-formed model**, with no more facts than the
problem has. -/
theorem Model.wellFormed_of_load {p : Problem} {m : Model} (h : Model.load p = .ok m) :
    m.WellFormed ∧ m.facts.length ≤ p.facts.length := by
  unfold Model.load at h
  dsimp only at h
  split at h
  · next herrors =>
    obtain rfl := Except.ok.inj h
    simp only [List.isEmpty_iff, List.append_eq_nil_iff] at herrors
    -- no error at all is no error in any of the phases
    obtain ⟨⟨⟨⟨⟨hresources, htimelines⟩, hfacts⟩, -⟩, -⟩, -⟩ := herrors
    -- facts are added one by one to the declared timelines
    obtain ⟨hsound, hlength⟩ :=
      Load.foldl_addFact (Load.sound_start hresources htimelines) p.facts hfacts
    exact ⟨⟨hsound.entered, hsound.allValid, hsound.stateless, hsound.facts,
      Load.resolveGoals_declared _ p.goals⟩, by simpa [Load.start] using hlength⟩
  · exact absurd h (by simp)

/-- What can be checked of the model of a problem holds of the model that is loaded. -/
theorem Model.exists_load_of_any (problem : Problem) (check : Model → Bool)
    (h : (Model.load problem).toOption.any check = true) :
    ∃ m, Model.load problem = .ok m ∧ check m = true := by
  cases hload : Model.load problem with
  | error errors => exact absurd h (by simp [hload, Except.toOption])
  | ok m => exact ⟨m, rfl, by simpa [hload, Except.toOption] using h⟩

namespace Model

variable {m : Model} {name : String}

/-! ### Classes -/

/-- The classes of a model are those of its problem. The first object of a class is the template for
all that the search creates, and it is always one that the problem lists. -/
theorem classes_of_load {p : Problem} (h : Model.load p = .ok m) (className : String) :
    (m.isOpen className ↔ className ∈ p.openClasses) ∧
      (∀ d, m.firstResource? className = some d → ∃ r ∈ p.resources, r.className = className) ∧
      ∀ d, m.firstTimeline? className = some d → ∃ t ∈ p.timelines, t.className = className := by
  unfold Model.load at h
  dsimp only at h
  split at h
  · obtain rfl := Except.ok.inj h
    refine ⟨by simp [isOpen], fun d hd => ?_, fun d hd => ?_⟩
    · obtain ⟨i, hi, rfl⟩ := List.mem_mapIdx.mp (List.mem_of_find?_eq_some hd)
      exact ⟨_, List.getElem_mem hi, by simpa using List.find?_some hd⟩
    · have hclass : d.className = some className := by simpa using List.find?_some hd
      -- timelines that facts bring in have no class
      rcases Load.mem_timelines_foldl_addFact (List.mem_of_find?_eq_some hd) with hmem | hnone
      · obtain ⟨i, hi, rfl⟩ := List.mem_mapIdx.mp hmem
        exact ⟨_, List.getElem_mem hi, Option.some.inj hclass⟩
      · exact absurd (hclass.symm.trans hnone) (by simp)
  · exact absurd h (by simp)

/-! ### Look-up of names -/

/-- A name leads to the index of the timeline that bears it. -/
theorem WellFormed.timelineIndex?_eq (h : m.WellFormed) {i : Nat} :
    m.timelineIndex? name = some i ↔ ∃ d, m.timelines[i]? = some d ∧ d.name = name := by
  rw [← (h.entered name).2 i]
  unfold timelineIndex?
  split <;> simp_all

/-- A name leads to the index of the resource that bears it. -/
theorem WellFormed.resourceIndex?_eq (h : m.WellFormed) {i : Nat} :
    m.resourceIndex? name = some i ↔ ∃ d, m.resources[i]? = some d ∧ d.name = name := by
  rw [← (h.entered name).1 i]
  unfold resourceIndex?
  split <;> simp_all

theorem timelineIndex?_of_not_hasObject (h : m.hasObject name = false) :
    m.timelineIndex? name = none := by
  have : m.names.lookup name = none := Option.not_isSome_iff_eq_none.mp (Bool.eq_false_iff.mp h)
  rw [timelineIndex?, this]

theorem resourceIndex?_of_not_hasObject (h : m.hasObject name = false) :
    m.resourceIndex? name = none := by
  have : m.names.lookup name = none := Option.not_isSome_iff_eq_none.mp (Bool.eq_false_iff.mp h)
  rw [resourceIndex?, this]

/-- Timelines of one name are one timeline. -/
theorem WellFormed.timeline_inj (h : m.WellFormed) {i j : Nat} {d e : TimelineDef}
    (hd : m.timelines[i]? = some d) (he : m.timelines[j]? = some e) (hname : d.name = e.name) :
    i = j := by
  have hi := h.timelineIndex?_eq.mpr ⟨d, hd, hname⟩
  have hj := h.timelineIndex?_eq.mpr ⟨e, he, rfl⟩
  exact Option.some.inj (hi.symm.trans hj)

/-- Resources of one name are one resource. -/
theorem WellFormed.resource_inj (h : m.WellFormed) {i j : Nat} {d e : ResourceDef}
    (hd : m.resources[i]? = some d) (he : m.resources[j]? = some e) (hname : d.name = e.name) :
    i = j := by
  have hi := h.resourceIndex?_eq.mpr ⟨d, hd, hname⟩
  have hj := h.resourceIndex?_eq.mpr ⟨e, he, rfl⟩
  exact Option.some.inj (hi.symm.trans hj)

/-- Names are distinct if a name determines its index. -/
theorem nodup_map_of_inj {α : Type} {as : List α} {name : α → String}
    (h : ∀ {i j : Nat} {a b : α}, as[i]? = some a → as[j]? = some b → name a = name b → i = j) :
    (as.map name).Nodup := by
  rw [List.Nodup, List.pairwise_map, List.pairwise_iff_getElem]
  intro i j hi hj hlt heq
  exact absurd (h (List.getElem?_eq_getElem hi) (List.getElem?_eq_getElem hj) heq) hlt.ne

/-- **No two objects of a model share a name.** This covers timelines that facts have brought in, as
these are entered in the same table. -/
theorem WellFormed.nodup_names (h : m.WellFormed) :
    (m.timelines.map (·.name) ++ m.resources.map (·.name)).Nodup := by
  refine List.nodup_append.mpr
    ⟨nodup_map_of_inj h.timeline_inj, nodup_map_of_inj h.resource_inj, ?_⟩
  -- a name stands for a timeline or for a resource
  intro name ht name' hr heq
  subst heq
  obtain ⟨t, ht, hname⟩ := List.mem_map.mp ht
  obtain ⟨r, hr, hname'⟩ := List.mem_map.mp hr
  obtain ⟨i, hi⟩ := List.mem_iff_getElem?.mp ht
  obtain ⟨j, hj⟩ := List.mem_iff_getElem?.mp hr
  have htimeline := ((h.entered name).2 i).mpr ⟨t, hi, hname⟩
  have hresource := ((h.entered name).1 j).mpr ⟨r, hj, hname'⟩
  exact absurd (htimeline.symm.trans hresource) (by simp)

/-- The declaration that a timeline follows is one of the model's. -/
theorem mem_of_timelineTemplate? {m : Model} {name : String} {d : TimelineDef}
    (h : m.timelineTemplate? name = some d) : d ∈ m.timelines := by
  unfold timelineTemplate? at h
  split at h
  · exact List.mem_of_getElem? h
  · obtain ⟨className, -, hfind⟩ := Option.bind_eq_some_iff.mp h
    exact List.mem_of_find?_eq_some hfind

/-- The declaration of a declared timeline is found by its name. -/
theorem WellFormed.timelineTemplate?_eq (h : m.WellFormed) {i : Nat} {d : TimelineDef}
    (hd : m.timelines[i]? = some d) : m.timelineTemplate? d.name = some d := by
  rw [timelineTemplate?, h.timelineIndex?_eq.mpr ⟨d, hd, rfl⟩]
  exact hd

/-- The declaration of a declared resource is found by its name. -/
theorem WellFormed.resourceTemplate?_eq (h : m.WellFormed) {i : Nat} {d : ResourceDef}
    (hd : m.resources[i]? = some d) : m.resourceTemplate? d.name = some d := by
  rw [resourceTemplate?, h.resourceIndex?_eq.mpr ⟨d, hd, rfl⟩]
  exact hd

/-! ### Names of created objects -/

/-- The class of a created object can be read off its name, even if the class ends in an underscore
and a number itself: what counts is the last underscore. -/
theorem classOfName?_created (className : String) (n : Nat) :
    classOfName? s!"{className}_{n}" = some className := by
  have hlist : (s!"{className}_{n}" : String).toList.reverse =
      (Nat.toDigits 10 n).reverse ++ '_' :: className.toList.reverse := by
    show (className ++ "_" ++ Nat.repr n).toList.reverse = _
    simp [Nat.toList_repr]
  -- no digit is an underscore, so that the number ends at the last one of the name
  have hdigits : ∀ c ∈ (Nat.toDigits 10 n).reverse, (decide (c ≠ '_')) = true := by
    intro c hc
    refine decide_eq_true fun h => ?_
    subst h
    exact Nat.underscore_not_in_toDigits (List.mem_reverse.mp hc)
  -- read from the end, the name is the digits, the underscore and the class
  have htake : (s!"{className}_{n}" : String).toList.reverse.takeWhile (· ≠ '_') =
      (Nat.toDigits 10 n).reverse := by
    rw [hlist, List.takeWhile_append_of_pos hdigits]
    simp
  have hdrop : (s!"{className}_{n}" : String).toList.reverse.dropWhile (· ≠ '_') =
      '_' :: className.toList.reverse := by
    rw [hlist, List.dropWhile_append_of_pos hdigits]
    simp
  have hall : (Nat.toDigits 10 n).reverse.all Char.isDigit = true := by
    rw [List.all_eq_true]
    exact fun c hc =>
      Nat.isDigit_of_mem_toDigits (by decide) (by decide) (List.mem_reverse.mp hc)
  -- digits alone stand behind the last underscore, and the class in front of it
  unfold classOfName?
  simp only [htake, hdrop, hall, Bool.and_true]
  rw [if_pos (by simp), List.reverse_reverse, String.ofList_toList]

/-- Created objects of different numbers have different names. The class is the same in both, so
that the names can only differ in the digits behind the underscore. -/
theorem created_name_inj {className : String} {n k : Nat}
    (h : s!"{className}_{n}" = s!"{className}_{k}") : n = k := by
  -- the number is read back from the digits behind the underscore
  have hlist : ∀ n : Nat, (s!"{className}_{n}" : String).toList =
      className.toList ++ '_' :: Nat.toDigits 10 n := by
    intro n
    show (className ++ "_" ++ Nat.repr n).toList = _
    simp [Nat.toList_repr]
  have := congrArg String.toList h
  rw [hlist, hlist, List.append_cancel_left_eq, List.cons.injEq] at this
  rw [← Nat.ofDigitChars_ten_toDigits (n := n), this.2, Nat.ofDigitChars_ten_toDigits]

end Model

end TemporalPlanning
