import Mathlib.Data.List.Forall2
import TemporalPlanning.Proofs.Model.Load

/-!
# The problems that can be loaded

A problem can be loaded just in case it is well formed, and its model then says what the problem
says (`Model.load_exact`). `Problem.WellFormed` is a property of the problem alone: it speaks of
names, while loading looks up indices in a table that grows on the way and reports errors as it
goes.

Loading goes through the problem in phases, and each has its lemma that says when the phase reports
no error. While the table is free of clashes (`Load.Free`), it tells what each name stands for.
Then going through the facts keeps to what they say (`Load.Ground.Reads`), and with all of them read
the goals and the conditions can be judged by names (`Load.Ground.Reads.canHold_iff`).
-/

namespace TemporalPlanning

/-- A duration is valid if its bounds are in order and within the range that dates are kept in. -/
theorem Duration.isValid_iff {d : Duration} :
    d.isValid = true ↔
      0 ≤ d.min ∧ d.min ≤ 2 ^ 40 ∧ ∀ max ∈ d.max, d.min ≤ max ∧ max ≤ 2 ^ 40 := by
  have hlimit : limit = 2 ^ 40 := by decide
  cases hmax : d.max <;> simp [isValid, hmax, hlimit, and_assoc]

/-- The timeline has a state of this name. -/
def TimelineDef.Declares (t : TimelineDef) (state : String) : Prop :=
  state ∈ t.states.map (·.name)

instance (t : TimelineDef) (state : String) : Decidable (t.Declares state) :=
  inferInstanceAs (Decidable (state ∈ t.states.map (·.name)))

/-- A state is declared if there is a template for it. -/
theorem TimelineDef.isSome_template?_iff {t : TimelineDef} {state : String} :
    (t.template? state).isSome ↔ t.Declares state := by
  simp [template?, Declares, List.find?_isSome]

namespace Problem

variable (p : Problem)

/-- The statement is about a declared timeline and a state of it. -/
def Declares (s : Statement) : Prop :=
  ∃ t ∈ Load.timelineDefs p, t.name = s.timeline ∧ t.Declares s.state

instance (s : Statement) : Decidable (p.Declares s) :=
  inferInstanceAs (Decidable (∃ t ∈ Load.timelineDefs p, t.name = s.timeline ∧ t.Declares s.state))

/-- A fact is about no resource, and about a declared timeline only with a state of it. -/
def Fits (fact : Statement) : Prop :=
  (∀ r ∈ Load.resourceDefs p, r.name ≠ fact.timeline) ∧
    ∀ t ∈ Load.timelineDefs p, t.name = fact.timeline → t.Declares fact.state

instance (fact : Statement) : Decidable (p.Fits fact) :=
  inferInstanceAs (Decidable ((∀ r ∈ Load.resourceDefs p, r.name ≠ fact.timeline) ∧
    ∀ t ∈ Load.timelineDefs p, t.name = fact.timeline → t.Declares fact.state))

/-- There is what a condition of a state of `owner` refers to. -/
def Resolves (owner : TimelineDef) : Condition → Prop
  | .uses (.named name) _ => ∃ r ∈ Load.resourceDefs p, r.name = name
  | .uses (.anyOf className) _ => ∃ r ∈ Load.resourceDefs p, r.className = className
  | .follows source => owner.Declares source
  | .metBy (.named name) state | .during (.named name) state =>
    p.Declares ⟨name, state⟩ ∨ ⟨name, state⟩ ∈ p.facts
  | .metBy (.anyOf className) state | .during (.anyOf className) state =>
    ∃ t ∈ Load.timelineDefs p, t.className = some className ∧ t.Declares state

instance (owner : TimelineDef) : (c : Condition) → Decidable (p.Resolves owner c)
  | .uses (.named name) _ => inferInstanceAs (Decidable (∃ r ∈ Load.resourceDefs p, r.name = name))
  | .uses (.anyOf className) _ =>
    inferInstanceAs (Decidable (∃ r ∈ Load.resourceDefs p, r.className = className))
  | .follows source => inferInstanceAs (Decidable (owner.Declares source))
  | .metBy (.named name) state | .during (.named name) state =>
    inferInstanceAs (Decidable (p.Declares ⟨name, state⟩ ∨ ⟨name, state⟩ ∈ p.facts))
  | .metBy (.anyOf className) state | .during (.anyOf className) state => inferInstanceAs
    (Decidable (∃ t ∈ Load.timelineDefs p, t.className = some className ∧ t.Declares state))

/-- What a problem has to satisfy, told by its names. -/
structure WellFormed : Prop where
  /-- No two objects share a name, be it their own or one that was made for them. -/
  names : ((Load.resourceDefs p).map (·.name) ++ (Load.timelineDefs p).map (·.name)).Nodup
  states : ∀ t ∈ p.timelines, (t.states.map (·.name)).Nodup
  durations : ∀ t ∈ p.timelines, ∀ s ∈ t.states, 0 ≤ s.duration.min ∧ s.duration.min ≤ 2 ^ 40 ∧
    ∀ max ∈ s.duration.max, s.duration.min ≤ max ∧ max ≤ 2 ^ 40
  facts : ∀ fact ∈ p.facts, p.Fits fact
  goals : ∀ goal ∈ p.goals, p.Declares goal
  conditions : ∀ t ∈ Load.timelineDefs p, ∀ s ∈ t.states, ∀ c ∈ s.conditions, p.Resolves t c
  openClasses : ∀ className ∈ p.openClasses,
    (∃ r ∈ p.resources, r.className = className) ∨ ∃ t ∈ p.timelines, t.className = className

instance : Decidable p.WellFormed :=
  decidable_of_iff (((Load.resourceDefs p).map (·.name) ++
      (Load.timelineDefs p).map (·.name)).Nodup ∧
    (∀ t ∈ p.timelines, (t.states.map (·.name)).Nodup) ∧
    (∀ t ∈ p.timelines, ∀ s ∈ t.states, 0 ≤ s.duration.min ∧ s.duration.min ≤ 2 ^ 40 ∧
      ∀ max ∈ s.duration.max, s.duration.min ≤ max ∧ max ≤ 2 ^ 40) ∧
    (∀ fact ∈ p.facts, p.Fits fact) ∧
    (∀ goal ∈ p.goals, p.Declares goal) ∧
    (∀ t ∈ Load.timelineDefs p, ∀ s ∈ t.states, ∀ c ∈ s.conditions, p.Resolves t c) ∧
    ∀ className ∈ p.openClasses,
      (∃ r ∈ p.resources, r.className = className) ∨ ∃ t ∈ p.timelines, t.className = className)
    ⟨fun ⟨a, b, c, d, e, f, g⟩ => ⟨a, b, c, d, e, f, g⟩,
      fun ⟨a, b, c, d, e, f, g⟩ => ⟨a, b, c, d, e, f, g⟩⟩

/-- The names that the facts mention and no timeline is declared with, in the order in which they
come up first. -/
def undeclared (facts : List Statement) : List String :=
  ((facts.map (·.timeline)).filter fun name =>
    name ∉ (Load.timelineDefs p).map (·.name)).eraseDups

variable {p}

/-- The undeclared timelines are those that facts are about and that have no declaration. -/
theorem mem_undeclared {facts : List Statement} {name : String} :
    name ∈ p.undeclared facts ↔
      name ∈ facts.map (·.timeline) ∧ name ∉ (Load.timelineDefs p).map (·.name) := by
  rw [undeclared, List.mem_eraseDups, List.mem_filter, decide_eq_true_eq]

/-- One more fact adds its timeline if that is neither declared nor came up before. This is the step
that the loader makes for a fact, stated on the side of the problem, where the names are listed
without duplicates. -/
theorem undeclared_concat (facts : List Statement) (fact : Statement) :
    p.undeclared (facts ++ [fact]) =
      if fact.timeline ∈ (Load.timelineDefs p).map (·.name) ∨ fact.timeline ∈ p.undeclared facts
      then p.undeclared facts else p.undeclared facts ++ [fact.timeline] := by
  have hknown : fact.timeline ∈ p.undeclared facts ↔ fact.timeline ∈
      (facts.map (·.timeline)).filter fun name => name ∉ (Load.timelineDefs p).map (·.name) :=
    List.mem_eraseDups
  rw [undeclared, List.map_append, List.filter_append, List.eraseDups_append, ← undeclared,
    List.map_singleton]
  by_cases hdeclared : fact.timeline ∈ (Load.timelineDefs p).map (·.name)
  · -- a declared name is filtered out
    rw [if_pos (.inl hdeclared), List.filter_singleton]
    simp [hdeclared, List.removeAll]
  · rw [List.filter_singleton, decide_eq_true hdeclared, cond_true, List.removeAll,
      List.filter_singleton]
    -- a name that came up before is a duplicate, and duplicates are dropped
    by_cases hmem : fact.timeline ∈ p.undeclared facts
    · rw [if_pos (.inr hmem), List.elem_eq_true_of_mem (hknown.mp hmem)]
      simp
    · have hfirst := Bool.eq_false_iff.mpr fun h => hmem (hknown.mpr (List.elem_iff.mp h))
      rw [if_neg (not_or.mpr ⟨hdeclared, hmem⟩), hfirst]
      simp [List.eraseDups_cons]

end Problem

namespace Load

variable {p : Problem} {names : List (String × ObjectKey)} {resources : List ResourceDef}
  {timelines : List TimelineDef}

/-! ### Names -/

/-- The keys are different from each other, and none of them is taken. -/
def Free (names : List (String × ObjectKey)) (keys : List String) : Prop :=
  keys.Nodup ∧ ∀ key ∈ keys, names.lookup key = none

/-- Names are free one after the other: each may take its place only if it was free before. -/
theorem free_cons {key : String} {keys : List String} (k : ObjectKey) :
    Free names (key :: keys) ↔ names.lookup key = none ∧ Free ((key, k) :: names) keys := by
  have hnext : (∀ key' ∈ keys, ((key, k) :: names).lookup key' = none) ↔
      key ∉ keys ∧ ∀ key' ∈ keys, names.lookup key' = none := by
    simp only [lookup_cons_eq]
    grind
  rw [Free, Free, hnext, List.nodup_cons, List.forall_mem_cons]
  tauto

/-- No duplicate is reported if the name is free. -/
theorem taken_eq_nil_iff {name : String} :
    (if (names.lookup name).isSome then [LoadError.duplicateName name] else []) = [] ↔
      names.lookup name = none := by
  cases names.lookup name <;> simp

/-- Resources are entered without error if their names are free. -/
theorem errors_enterResources_iff {i : Nat} {rest : List ResourceDef} :
    (enterResources names i rest).2 = [] ↔ Free names (rest.map (·.name)) := by
  induction rest generalizing names i with
  | nil => simp [enterResources, Free]
  | cons r rest ih =>
    -- each name is looked up before it is entered
    rw [List.map_cons, free_cons (.resource i), ← ih (i := i + 1), ← taken_eq_nil_iff,
      ← List.append_eq_nil_iff]
    rfl

/-- Timelines are entered without error if their names are free and their states are in order. -/
theorem errors_enterTimelines_iff {i : Nat} {rest : List TimelineDef} :
    (enterTimelines names i rest).2 = [] ↔
      Free names (rest.map (·.name)) ∧ ∀ t ∈ rest, StateTemplate.AllValid t.states := by
  induction rest generalizing names i with
  | nil => simp [enterTimelines, Free]
  | cons t rest ih =>
    -- the states of one timeline are checked from an empty list of seen names
    have hstates : stateErrors t.name [] t.states = [] ↔ StateTemplate.AllValid t.states := by
      simp [stateErrors_eq_nil_iff]
    simp only [enterTimelines, List.append_eq_nil_iff, taken_eq_nil_iff, hstates, ih,
      List.map_cons, free_cons (.timeline i), List.forall_mem_cons]
    tauto

/-! ### What the names stand for -/

namespace Entered

variable (h : Entered resources timelines names)
include h

theorem timeline_eq {t u : TimelineDef} (ht : t ∈ timelines) (hu : u ∈ timelines)
    (hname : t.name = u.name) : t = u := by
  obtain ⟨i, hi⟩ := List.mem_iff_getElem?.mp ht
  obtain ⟨j, hj⟩ := List.mem_iff_getElem?.mp hu
  have hti := ((h u.name).2 i).mpr ⟨t, hi, hname⟩
  have huj := ((h u.name).2 j).mpr ⟨u, hj, rfl⟩
  obtain rfl : i = j := by simpa using hti.symm.trans huj
  exact Option.some.inj (hi.symm.trans hj)

/-- A name means a resource if some resource bears it. -/
theorem isResource_iff {name : String} :
    (∃ i, names.lookup name = some (.resource i)) ↔ ∃ r ∈ resources, r.name = name := by
  simp only [(h name).1, List.mem_iff_getElem?, ← exists_and_right]
  exact exists_comm

/-- A name means a timeline if some timeline bears it. -/
theorem isTimeline_iff {name : String} :
    (∃ i, names.lookup name = some (.timeline i)) ↔ ∃ t ∈ timelines, t.name = name := by
  simp only [(h name).2, List.mem_iff_getElem?, ← exists_and_right]
  exact exists_comm

theorem lookup_eq_none_iff {name : String} :
    names.lookup name = none ↔
      (∀ r ∈ resources, r.name ≠ name) ∧ ∀ t ∈ timelines, t.name ≠ name := by
  have hres : (∃ i, names.lookup name = some (.resource i)) ↔ _ := h.isResource_iff
  have htl : (∃ i, names.lookup name = some (.timeline i)) ↔ _ := h.isTimeline_iff
  cases hlookup : names.lookup name with
  | none => simp_all
  | some k => cases k <;> simp_all

end Entered

/-- A reference points at the timeline that a statement names, and says the same state. -/
def Denotes (timelines : List TimelineDef) (s : Statement) (r : GroundRef) : Prop :=
  (∃ d, timelines[r.timeline]? = some d ∧ d.name = s.timeline) ∧ r.state = s.state

/-- A reference keeps its meaning when timelines are added behind. -/
theorem Denotes.append {s : Statement} {r : GroundRef} (h : Denotes timelines s r)
    (more : List TimelineDef) : Denotes (timelines ++ more) s r := by
  obtain ⟨⟨d, hd, hname⟩, hstate⟩ := h
  exact ⟨⟨d, by rw [List.getElem?_append_left (List.getElem?_eq_some_iff.mp hd).1, hd], hname⟩,
    hstate⟩

/-- As long as names are unique, statements and references determine each other. With it, membership
among the statements of the problem and membership among the references of the model are the same
question. -/
theorem Entered.biUnique_denotes (h : Entered resources timelines names) :
    Relator.BiUnique (Denotes timelines) := by
  constructor
  · -- the timeline has one name
    rintro ⟨name, state⟩ ⟨name', state'⟩ r ⟨⟨d, hd, rfl⟩, rfl⟩ ⟨⟨d', hd', rfl⟩, rfl⟩
    obtain rfl := Option.some.inj (hd.symm.trans hd')
    rfl
  · -- the name stands for one timeline
    rintro ⟨name, state⟩ ⟨i, state'⟩ ⟨j, state''⟩ ⟨hi, rfl⟩ ⟨hj, rfl⟩
    have := (((h name).2 i).mpr hi).symm.trans (((h name).2 j).mpr hj)
    simpa using this

/-! ### Facts -/

/-- What is known after some facts is what they say: no error was reported, a timeline was added for
each name that only they mention, and each of them is resolved. -/
structure Ground.Reads (p : Problem) (facts : List Statement) (g : Ground) : Prop where
  sound : g.Sound (resourceDefs p)
  errors : g.errors = []
  timelines : g.timelines = timelineDefs p ++ (p.undeclared facts).map fun name => ⟨name, none, []⟩
  denotes : List.Forall₂ (Denotes g.timelines) facts g.facts
  fits : ∀ fact ∈ facts, p.Fits fact

namespace Ground.Reads

variable {g : Ground} {facts : List Statement} (h : g.Reads p facts)
include h

/-- The timelines with a class are the declared ones. -/
theorem mem_timelineDefs_iff {t : TimelineDef} :
    t ∈ timelineDefs p ↔ t ∈ g.timelines ∧ t.className.isSome := by
  rw [h.timelines, List.mem_append]
  refine ⟨fun ht => ⟨.inl ht, isSome_className_of_mem ht⟩, fun ⟨ht, hclass⟩ => ht.resolve_right ?_⟩
  intro ht
  obtain ⟨name, -, rfl⟩ := List.mem_map.mp ht
  simp at hclass

/-- Only declared timelines have a class; those that facts added have none. -/
theorem mem_of_className_iff {t : TimelineDef} {className : String} :
    t ∈ g.timelines ∧ t.className = some className ↔
      t ∈ timelineDefs p ∧ t.className = some className := by
  rw [h.mem_timelineDefs_iff]
  exact and_congr_left fun hclass => by simp [hclass]

/-- The timelines of facts have no states. -/
theorem mem_timelineDefs_of_state {t : TimelineDef} {st : StateTemplate} (ht : t ∈ g.timelines)
    (hst : st ∈ t.states) : t ∈ timelineDefs p := by
  refine h.mem_timelineDefs_iff.mpr ⟨ht, ?_⟩
  by_contra hclass
  rw [h.sound.stateless t ht (by simpa using hclass)] at hst
  exact absurd hst (by simp)

/-- A name stands for a timeline if one is declared with it or a fact mentioned it. -/
theorem isTimeline_iff {name : String} :
    (∃ t ∈ g.timelines, t.name = name) ↔
      name ∈ (timelineDefs p).map (·.name) ∨ name ∈ p.undeclared facts := by
  simp [h.timelines, or_and_right, exists_or]

/-- A fact is taken without error if it fits: it is about no resource, and if its timeline is
declared, then with that state. -/
theorem errors_addFact_iff {fact : Statement} :
    (Load.addFact g fact).errors = [] ↔ p.Fits fact := by
  have hentered := h.sound.entered
  unfold Load.addFact
  split
  · next i hlookup =>
    -- a fact on a resource does not fit
    obtain ⟨r, hr, hname⟩ := hentered.isResource_iff.mp ⟨i, hlookup⟩
    simp only [List.append_eq_nil_iff, List.cons_ne_nil, and_false, false_iff]
    exact fun hfits => hfits.1 r hr hname
  · next i hlookup =>
    -- on a timeline it fits if that is a timeline of facts or declares the state
    obtain ⟨d, hd, hname⟩ := ((hentered _).2 i).mp hlookup
    have hmem := List.mem_of_getElem? hd
    have hres : ∀ r ∈ resourceDefs p, r.name ≠ fact.timeline := by
      intro r hr hrname
      obtain ⟨j, hj⟩ := hentered.isResource_iff.mpr ⟨r, hr, hrname⟩
      simp [hlookup] at hj
    have hfits : p.Fits fact ↔ (d.className.isSome → d.Declares fact.state) := by
      refine ⟨fun hfits hclass => hfits.2 d (h.mem_timelineDefs_iff.mpr ⟨hmem, hclass⟩) hname,
        fun hd => ⟨hres, fun t ht htname => ?_⟩⟩
      obtain ⟨htmem, hclass⟩ := h.mem_timelineDefs_iff.mp ht
      obtain rfl := hentered.timeline_eq htmem hmem (htname.trans hname.symm)
      exact hd hclass
    rw [hfits, ← TimelineDef.isSome_template?_iff]
    cases hclass : d.className.isSome <;> cases hstate : d.template? fact.state <;>
      simp [h.errors, hd, hclass, hstate]
  · next hlookup =>
    -- on a name that stands for nothing it always fits
    obtain ⟨hres, htl⟩ := hentered.lookup_eq_none_iff.mp hlookup
    refine iff_of_true h.errors ⟨hres, fun t ht hname => ?_⟩
    exact absurd hname (htl t (h.mem_timelineDefs_iff.mp ht).1)

/-- A fact that fits adds its timeline if that is not known yet, and is resolved to it. -/
theorem read_addFact {fact : Statement} (hfits : p.Fits fact) :
    (Load.addFact g fact).timelines =
        timelineDefs p ++ (p.undeclared (facts ++ [fact])).map (fun name => ⟨name, none, []⟩) ∧
      List.Forall₂ (Denotes (Load.addFact g fact).timelines) (facts ++ [fact])
        (Load.addFact g fact).facts := by
  have hentered := h.sound.entered
  unfold Load.addFact
  rw [p.undeclared_concat]
  split
  · -- the name cannot mean a resource, as the fact fits
    next i hlookup =>
    obtain ⟨r, hr, hname⟩ := hentered.isResource_iff.mp ⟨i, hlookup⟩
    exact absurd hname (hfits.1 r hr)
  · next i hlookup =>
    have hname := h.isTimeline_iff.mp (hentered.isTimeline_iff.mp ⟨i, hlookup⟩)
    rw [if_pos hname]
    refine ⟨h.timelines, List.rel_append h.denotes ?_⟩
    exact .cons ⟨((hentered _).2 i).mp hlookup, rfl⟩ .nil
  · next hlookup =>
    have hname : ¬ ∃ t ∈ g.timelines, t.name = fact.timeline := by
      rintro ⟨t, ht, hname⟩
      exact (hentered.lookup_eq_none_iff.mp hlookup).2 t ht hname
    rw [h.isTimeline_iff] at hname
    rw [if_neg hname]
    -- the references from before still point at the same timelines
    refine ⟨by simp [h.timelines], List.rel_append (h.denotes.imp fun _ _ hr => hr.append _) ?_⟩
    exact .cons ⟨⟨_, getElem?_concat_iff.mpr (.inr ⟨rfl, rfl⟩), rfl⟩, rfl⟩ .nil

/-- A fact that fits is kept to. -/
theorem addFact {fact : Statement} (hfits : p.Fits fact) :
    (Load.addFact g fact).Reads p (facts ++ [fact]) := by
  have herrors := h.errors_addFact_iff.mpr hfits
  obtain ⟨htimelines, hdenotes⟩ := h.read_addFact hfits
  exact ⟨h.sound.addFact herrors, herrors, htimelines, hdenotes,
    List.forall_mem_append.mpr ⟨h.fits, List.forall_mem_singleton.mpr hfits⟩⟩

/-- All facts are taken without error if each of them fits. Whether a fact fits does not depend on
the facts before it, although the loader goes through them in order. -/
theorem errors_foldl_addFact_iff {rest : List Statement} :
    (rest.foldl Load.addFact g).errors = [] ↔ ∀ fact ∈ rest, p.Fits fact := by
  induction rest generalizing g facts with
  | nil => simpa using h.errors
  | cons fact rest ih =>
    rw [List.forall_mem_cons]
    refine ⟨fun herrors => ?_, fun ⟨hfits, hrest⟩ => (ih (h.addFact hfits)).mpr hrest⟩
    -- an error stays, so that none at the end means that the first fact fits
    have hfits := h.errors_addFact_iff.mp (errors_addFact_of_foldl herrors)
    exact ⟨hfits, (ih (h.addFact hfits)).mp herrors⟩

/-- Facts that fit are all kept to. -/
theorem foldl_addFact {rest : List Statement} (hfits : ∀ fact ∈ rest, p.Fits fact) :
    (rest.foldl Load.addFact g).Reads p (facts ++ rest) := by
  induction rest generalizing g facts with
  | nil => simpa using h
  | cons fact rest ih =>
    obtain ⟨hfact, hrest⟩ := List.forall_mem_cons.mp hfits
    rw [← List.singleton_append, ← List.append_assoc]
    exact ih (h.addFact hfact) hrest

/-! ### Goals and conditions -/

/-- Which states a timeline can be in can be told by its name. A timeline can hold the states that
it declares and those that some fact has given it. -/
theorem canHold_iff {i : Nat} {d : TimelineDef} (hd : g.timelines[i]? = some d) {state : String} :
    canHold g.timelines g.facts i state = true ↔
      p.Declares ⟨d.name, state⟩ ∨ ⟨d.name, state⟩ ∈ facts := by
  have hmem := List.mem_of_getElem? hd
  have hdeclares : p.Declares ⟨d.name, state⟩ ↔ d.Declares state := by
    constructor
    · rintro ⟨t, ht, hname, hstate⟩
      obtain rfl := h.sound.entered.timeline_eq (h.mem_timelineDefs_iff.mp ht).1 hmem hname
      exact hstate
    · intro hstate
      obtain ⟨st, hst, -⟩ := List.mem_map.mp hstate
      exact ⟨d, h.mem_timelineDefs_of_state hmem hst, rfl, hstate⟩
  -- facts are named in the problem and numbered in the ground model
  have hfact : ⟨d.name, state⟩ ∈ facts ↔ ⟨i, state⟩ ∈ g.facts :=
    List.rel_mem h.sound.entered.biUnique_denotes ⟨⟨d, hd, rfl⟩, rfl⟩ h.denotes
  -- declared or given by a fact: the program looks at these two
  rw [hdeclares, hfact, ← TimelineDef.isSome_template?_iff]
  simp [canHold, hd]

/-- A timeline of the name can be in the state if the state is declared or if a fact puts it there.
-/
theorem exists_canHold_iff {name state : String} :
    (∃ i, g.names.lookup name = some (.timeline i) ∧
        canHold g.timelines g.facts i state = true) ↔
      p.Declares ⟨name, state⟩ ∨ ⟨name, state⟩ ∈ facts := by
  constructor
  · rintro ⟨i, hlookup, hhold⟩
    obtain ⟨d, hd, rfl⟩ := ((h.sound.entered _).2 i).mp hlookup
    exact (h.canHold_iff hd).mp hhold
  · intro hstate
    -- a name with a state belongs to a timeline: by declaration, or by the fact itself
    have hname : name ∈ (timelineDefs p).map (·.name) ∨ name ∈ p.undeclared facts := by
      rcases hstate with ⟨t, ht, hname, -⟩ | hfact
      · exact .inl (List.mem_map.mpr ⟨t, ht, hname⟩)
      · rw [Problem.mem_undeclared]
        exact (em _).imp_right fun hnot => ⟨List.mem_map.mpr ⟨_, hfact, rfl⟩, hnot⟩
    -- every timeline has been entered under its name
    obtain ⟨i, hlookup⟩ := h.sound.entered.isTimeline_iff.mpr (h.isTimeline_iff.mpr hname)
    obtain ⟨d, hd, rfl⟩ := ((h.sound.entered _).2 i).mp hlookup
    exact ⟨i, hlookup, (h.canHold_iff hd).mpr hstate⟩

end Ground.Reads

/-- The timeline that a goal on this name is on. -/
def Ground.target? (g : Ground) (name : String) : Option Nat :=
  match g.names.lookup name with
  | some (.timeline i) => if (g.timelines[i]?.bind (·.className)).isSome then some i else none
  | _ => none

/-- What is made of one goal in front of others. -/
theorem resolveGoals_cons (g : Ground) (goal : Statement) (rest : List Statement) :
    resolveGoals g (goal :: rest) = match g.target? goal.timeline with
      | none => ((resolveGoals g rest).1,
          .unknownGoalTimeline goal.timeline :: (resolveGoals g rest).2)
      | some i => (⟨i, goal.state⟩ :: (resolveGoals g rest).1,
          (if canHold g.timelines g.facts i goal.state then []
            else [.unknownGoal goal.timeline goal.state]) ++ (resolveGoals g rest).2) :=
  rfl

namespace Ground.Reads

variable {g : Ground} {facts goals : List Statement} (h : g.Reads p facts)
include h

/-- A goal has a declared timeline as its target. A timeline that only facts have named is no
target, even if the goal's state is one of its states. -/
theorem target?_eq_some_iff {name : String} {i : Nat} :
    g.target? name = some i ↔
      ∃ t ∈ timelineDefs p, g.timelines[i]? = some t ∧ t.name = name := by
  have hlookup := (h.sound.entered name).2 i
  have hdeclared : g.target? name = some i ↔ g.names.lookup name = some (.timeline i) ∧
      (g.timelines[i]?.bind (·.className)).isSome := by
    unfold target?
    split <;> grind
  -- a name stands for the timeline that was entered under it
  rw [hdeclared, hlookup]
  -- of the timelines that there are, the declared ones have a class
  constructor
  · rintro ⟨⟨d, hd, hname⟩, hclass⟩
    refine ⟨d, h.mem_timelineDefs_iff.mpr ⟨List.mem_of_getElem? hd, ?_⟩, hd, hname⟩
    simpa [hd] using hclass
  · rintro ⟨t, ht, hi, hname⟩
    exact ⟨⟨t, hi, hname⟩, by simpa [hi] using isSome_className_of_mem ht⟩

/-- A goal is on a declared timeline and a state of it just in case it is resolved. -/
theorem declares_iff {goal : Statement} :
    p.Declares goal ↔ ∃ i, g.target? goal.timeline = some i ∧
      canHold g.timelines g.facts i goal.state = true := by
  simp only [h.target?_eq_some_iff]
  constructor
  · rintro ⟨t, ht, hname, hstate⟩
    obtain ⟨i, hi⟩ := List.mem_iff_getElem?.mp (h.mem_timelineDefs_iff.mp ht).1
    exact ⟨i, ⟨t, ht, hi, hname⟩, (h.canHold_iff hi).mpr (.inl ⟨t, ht, rfl, hstate⟩)⟩
  · rintro ⟨i, ⟨t, ht, hi, hname⟩, hhold⟩
    refine ⟨t, ht, hname, ?_⟩
    rcases (h.canHold_iff hi).mp hhold with ⟨u, hu, huname, hstate⟩ | hfact
    · -- names mean one timeline each
      obtain rfl := h.sound.entered.timeline_eq (h.mem_timelineDefs_iff.mp hu).1
        (h.mem_timelineDefs_iff.mp ht).1 huname
      exact hstate
    · -- the facts of a declared timeline are states of it
      exact (h.fits _ hfact).2 t ht rfl

/-- Goals are resolved without error if each is about a declared timeline with a declared state. -/
theorem errors_resolveGoals_iff :
    (resolveGoals g goals).2 = [] ↔ ∀ goal ∈ goals, p.Declares goal := by
  induction goals with
  | nil => simp [resolveGoals]
  | cons goal rest ih =>
    rw [resolveGoals_cons, List.forall_mem_cons, h.declares_iff, ← ih]
    cases g.target? goal.timeline <;> simp

/-- Goals that are resolved are kept to. In this way the goals of the model are those of the
problem, in the same order. -/
theorem denotes_resolveGoals (hgoals : ∀ goal ∈ goals, p.Declares goal) :
    List.Forall₂ (Denotes g.timelines) goals (resolveGoals g goals).1 := by
  induction goals with
  | nil => exact .nil
  | cons goal rest ih =>
    obtain ⟨hgoal, hrest⟩ := List.forall_mem_cons.mp hgoals
    obtain ⟨i, htarget, -⟩ := h.declares_iff.mp hgoal
    obtain ⟨t, -, hi, hname⟩ := h.target?_eq_some_iff.mp htarget
    rw [resolveGoals_cons, htarget]
    exact .cons ⟨⟨t, hi, hname⟩, rfl⟩ (ih hrest)

/-- A reference to a timeline by its name is there just in case the timeline can be in the state. -/
theorem errors_named_iff {name state : String} {e e' : LoadError} :
    (match g.names.lookup name with
      | some (.timeline i) => if canHold g.timelines g.facts i state then [] else [e]
      | _ => [e']) = [] ↔
      p.Declares ⟨name, state⟩ ∨ ⟨name, state⟩ ∈ facts := by
  rw [← h.exists_canHold_iff]
  rcases g.names.lookup name with - | - | i <;> simp

/-- A reference to a class of timelines is there just in case one of them declares the state. -/
theorem errors_anyOf_iff {className state : String} {e e' : LoadError} :
    (if (g.timelines.filter fun t => t.className == some className).isEmpty then [e]
      else if (g.timelines.filter fun t => t.className == some className).any fun t =>
        (t.template? state).isSome then []
      else [e']) = [] ↔
      ∃ t ∈ timelineDefs p, t.className = some className ∧ t.Declares state := by
  -- if the class has no member, none of its members declares the state either
  have hany : ∀ members : List TimelineDef, (if members.isEmpty then [e]
      else if members.any fun t => (t.template? state).isSome then [] else [e']) = [] ↔
      (members.any fun t => (t.template? state).isSome) = true := by
    intro members
    cases members with
    | nil => simp
    | cons t members =>
      rw [List.isEmpty_cons, if_neg Bool.false_ne_true]
      split <;> simp_all
  rw [hany, List.any_eq_true]
  simp only [TimelineDef.isSome_template?_iff, List.mem_filter, beq_iff_eq,
    h.mem_of_className_iff, and_assoc]

end Ground.Reads

/-- A condition is in order just in case there is what it refers to. The proof goes by the five
forms that a reference can have; the two that name a timeline or a class of them share their lemmas.
-/
theorem Ground.Reads.conditionErrors_iff {g : Ground} (h : g.Reads p p.facts)
    {owner : TimelineDef} {state : String} {condition : Condition} :
    conditionErrors (resourceDefs p) g owner state condition = [] ↔
      p.Resolves owner condition := by
  cases condition with
  | uses resource amount =>
    cases resource with
    | named name =>
      simp only [conditionErrors, Problem.Resolves, ← h.sound.entered.isResource_iff]
      rcases g.names.lookup name with - | i | - <;> simp
    | anyOf className => simp [conditionErrors, Problem.Resolves]
  -- the predecessor stands on the same timeline, so it is the owner that has to declare it
  | follows source =>
    rw [Problem.Resolves, ← TimelineDef.isSome_template?_iff, conditionErrors]
    split <;> simp_all
  | metBy timeline state | during timeline state =>
    cases timeline with
    | named name => exact h.errors_named_iff
    | anyOf className => exact h.errors_anyOf_iff

/-- No condition is reported if each of them refers to something that there is. -/
theorem Ground.Reads.conditions_iff {g : Ground} (h : g.Reads p p.facts) :
    (g.timelines.flatMap fun t => t.states.flatMap fun s =>
        s.conditions.flatMap (conditionErrors (resourceDefs p) g t s.name)) = [] ↔
      ∀ t ∈ timelineDefs p, ∀ s ∈ t.states, ∀ c ∈ s.conditions, p.Resolves t c := by
  simp only [List.flatMap_eq_nil_iff, h.conditionErrors_iff]
  exact ⟨fun hall t ht => hall t (h.mem_timelineDefs_iff.mp ht).1,
    fun hall t ht s hs => hall t (h.mem_timelineDefs_of_state ht hs) s hs⟩

theorem map_className_resourceDefs :
    (resourceDefs p).map (·.className) = p.resources.map (·.className) :=
  List.ext_getElem (by simp [resourceDefs]) (by simp [resourceDefs])

theorem map_className_timelineDefs :
    (timelineDefs p).map (·.className) = p.timelines.map fun t => some t.className :=
  List.ext_getElem (by simp [timelineDefs]) (by simp [timelineDefs])

theorem map_states_timelineDefs : (timelineDefs p).map (·.states) = p.timelines.map (·.states) :=
  List.ext_getElem (by simp [timelineDefs]) (by simp [timelineDefs])

/-- An open class is in order just in case an object of it is declared. Resources and timelines
count alike; timelines that facts have brought in do not, since they have no class. -/
theorem Ground.Reads.openClassErrors_iff {g : Ground} {facts : List Statement}
    (h : g.Reads p facts) :
    openClassErrors (resourceDefs p) g.timelines p.openClasses = [] ↔
      ∀ className ∈ p.openClasses, (∃ r ∈ p.resources, r.className = className) ∨
        ∃ t ∈ p.timelines, t.className = className := by
  rw [openClassErrors, List.filterMap_eq_nil_iff]
  refine forall₂_congr fun className _ => ?_
  have hres : (∃ r ∈ resourceDefs p, r.className = className) ↔
      ∃ r ∈ p.resources, r.className = className := by
    simp only [← List.mem_map, map_className_resourceDefs]
  have htl : (∃ t ∈ g.timelines, t.className = some className) ↔
      ∃ t ∈ p.timelines, t.className = className := by
    -- facts add timelines without a class, which make no class known
    have hmem : some className ∈ (timelineDefs p).map (·.className) ↔
        ∃ t ∈ p.timelines, t.className = className := by
      simp [map_className_timelineDefs]
    simp only [h.mem_of_className_iff, ← hmem, List.mem_map]
  rw [← hres, ← htl]
  split <;> simp_all

/-! ### All phases -/

/-- All facts were gone through. -/
def ground (p : Problem) : Ground := p.facts.foldl addFact (start p)

/-- What is wrong with a problem, phase by phase. -/
def errors (p : Problem) : List LoadError :=
  (enterResources [] 0 (resourceDefs p)).2
  ++ (enterTimelines (enterResources [] 0 (resourceDefs p)).1 0 (timelineDefs p)).2
  ++ (ground p).errors
  ++ (resolveGoals (ground p) p.goals).2
  ++ ((ground p).timelines.flatMap fun t => t.states.flatMap fun s =>
    s.conditions.flatMap (conditionErrors (resourceDefs p) (ground p) t s.name))
  ++ openClassErrors (resourceDefs p) (ground p).timelines p.openClasses

/-- What becomes of a problem with which nothing is wrong. -/
def resolved (p : Problem) : Model where
  resources := resourceDefs p
  timelines := (ground p).timelines
  facts := (ground p).facts
  goals := (resolveGoals (ground p) p.goals).1
  openClasses := sortedNames p.openClasses
  names := (ground p).names

/-- Loading resolves the problem, unless there is an error; then it reports all of them. -/
theorem load_eq (p : Problem) :
    Model.load p = if (errors p).isEmpty then .ok (resolved p) else .error (errors p) :=
  rfl

/-- A problem is loaded if nothing is wrong with it. -/
theorem load_eq_ok_iff {m : Model} : Model.load p = .ok m ↔ errors p = [] ∧ resolved p = m := by
  rw [load_eq, ← List.isEmpty_iff]
  split <;> simp_all

/-- The names are entered without error just in case there are no two of a kind. Resources and
timelines share one space of names, so that a timeline may not be called like a resource either. -/
theorem errors_names_iff :
    ((enterResources [] 0 (resourceDefs p)).2 = [] ∧
      (enterTimelines (enterResources [] 0 (resourceDefs p)).1 0 (timelineDefs p)).2 = []) ↔
    ((resourceDefs p).map (·.name) ++ (timelineDefs p).map (·.name)).Nodup ∧
      ∀ t ∈ timelineDefs p, StateTemplate.AllValid t.states := by
  rw [List.nodup_append, and_assoc]
  have hres : (enterResources [] 0 (resourceDefs p)).2 = [] ↔
      ((resourceDefs p).map (·.name)).Nodup := by
    simp [errors_enterResources_iff, Free]
  rw [← hres]
  refine and_congr_right fun hnone => ?_
  -- the resources come first, so the timelines are entered behind their names
  have hentered : Entered (resourceDefs p) [] (enterResources [] 0 (resourceDefs p)).1 :=
    entered_enterResources entered_nil (resourceDefs p) hnone
  rw [errors_enterTimelines_iff, Free, and_assoc, and_assoc]
  refine and_congr_right fun _ => and_congr_left fun _ => ?_
  -- the names that are taken are those of the resources
  have hfree : ∀ name, (enterResources [] 0 (resourceDefs p)).1.lookup name = none ↔
      ∀ r ∈ resourceDefs p, r.name ≠ name := by
    intro name
    rw [hentered.lookup_eq_none_iff]
    simp
  simp only [List.forall_mem_map, hfree]
  exact ⟨fun h r hr t ht => h t ht r hr, fun h t ht r hr => h r hr t ht⟩

/-- What is known before the first fact reads the problem without facts. -/
theorem reads_start (hresources : (enterResources [] 0 (resourceDefs p)).2 = [])
    (htimelines : (enterTimelines (enterResources [] 0 (resourceDefs p)).1 0
      (timelineDefs p)).2 = []) : (start p).Reads p [] :=
  ⟨sound_start hresources htimelines, rfl, by simp [start, Problem.undeclared], .nil, by simp⟩

/-- The states of all timelines are in order if their names are distinct and their durations valid.
-/
theorem allValid_timelineDefs_iff :
    (∀ t ∈ timelineDefs p, StateTemplate.AllValid t.states) ↔
      (∀ t ∈ p.timelines, (t.states.map (·.name)).Nodup) ∧
        ∀ t ∈ p.timelines, ∀ s ∈ t.states, 0 ≤ s.duration.min ∧ s.duration.min ≤ 2 ^ 40 ∧
          ∀ max ∈ s.duration.max, s.duration.min ≤ max ∧ max ≤ 2 ^ 40 := by
  have hstates : (∀ t ∈ timelineDefs p, StateTemplate.AllValid t.states) ↔
      ∀ t ∈ p.timelines, StateTemplate.AllValid t.states := by
    rw [← List.forall_mem_map (P := StateTemplate.AllValid), map_states_timelineDefs,
      List.forall_mem_map]
  rw [hstates]
  simp only [StateTemplate.AllValid, Duration.isValid_iff]
  exact forall₂_and

/-- The names of a well-formed problem are entered without error. -/
theorem errors_names_of_wellFormed (h : p.WellFormed) :
    (enterResources [] 0 (resourceDefs p)).2 = [] ∧
      (enterTimelines (enterResources [] 0 (resourceDefs p)).1 0 (timelineDefs p)).2 = [] :=
  errors_names_iff.mpr ⟨h.names, allValid_timelineDefs_iff.mpr ⟨h.states, h.durations⟩⟩

/-- The facts of a well-formed problem are all kept to. -/
theorem reads_ground (h : p.WellFormed) : (ground p).Reads p p.facts := by
  obtain ⟨hresources, htimelines⟩ := errors_names_of_wellFormed h
  exact (reads_start hresources htimelines).foldl_addFact h.facts

/-- Nothing is wrong with a problem just in case it is well formed. Each of the phases has its own
lemma; what is left is that later phases may assume what the earlier ones have found in order. -/
theorem errors_eq_nil_iff : errors p = [] ↔ p.WellFormed := by
  simp only [errors, List.append_eq_nil_iff]
  constructor
  · -- each phase can be judged once the ones before it are known to report nothing
    rintro ⟨⟨⟨⟨⟨hresources, htimelines⟩, hfacts⟩, hgoals⟩, hconditions⟩, hopen⟩
    obtain ⟨hnames, hvalid⟩ := errors_names_iff.mp ⟨hresources, htimelines⟩
    obtain ⟨hstates, hdurations⟩ := allValid_timelineDefs_iff.mp hvalid
    have hstart := reads_start hresources htimelines
    have hfits := hstart.errors_foldl_addFact_iff.mp hfacts
    have hreads : (ground p).Reads p p.facts := hstart.foldl_addFact hfits
    exact ⟨hnames, hstates, hdurations, hfits, hreads.errors_resolveGoals_iff.mp hgoals,
      hreads.conditions_iff.mp hconditions, hreads.openClassErrors_iff.mp hopen⟩
  · -- in a well-formed problem no phase has anything to report
    intro h
    have hreads := reads_ground h
    exact ⟨⟨⟨⟨errors_names_of_wellFormed h, hreads.errors⟩,
      hreads.errors_resolveGoals_iff.mpr h.goals⟩, hreads.conditions_iff.mpr h.conditions⟩,
      hreads.openClassErrors_iff.mpr h.openClasses⟩

end Load

/-! ### Models -/

/-- A model says what a problem says. -/
structure Model.Renders (m : Model) (p : Problem) : Prop where
  /-- Objects without a name of their own are named after their class and their place. -/
  resources : m.resources = p.resources.mapIdx fun i r =>
    ⟨r.name.getD s!"{r.className}_{i}", r.className, r.capacity⟩
  /-- The declared timelines, then one without class and states for each name that only facts
  mention. -/
  timelines : m.timelines =
    (p.timelines.mapIdx fun i t =>
      ⟨t.name.getD s!"{t.className}_{i}", some t.className, t.states⟩) ++
    (p.undeclared p.facts).map fun name => ⟨name, none, []⟩
  facts : List.Forall₂ (Load.Denotes m.timelines) p.facts m.facts
  goals : List.Forall₂ (Load.Denotes m.timelines) p.goals m.goals
  names : Load.Entered m.resources m.timelines m.names

/-- **The problems that can be loaded are the well-formed ones**, and their models say what they
say. -/
theorem Model.load_exact (p : Problem) :
    ((∃ m, Model.load p = .ok m) ↔ p.WellFormed) ∧
      ∀ m, Model.load p = .ok m → m.Renders p := by
  rw [← Load.errors_eq_nil_iff]
  refine ⟨⟨fun ⟨m, hload⟩ => (Load.load_eq_ok_iff.mp hload).1,
    fun hnone => ⟨_, Load.load_eq_ok_iff.mpr ⟨hnone, rfl⟩⟩⟩, fun m hload => ?_⟩
  obtain ⟨hnone, rfl⟩ := Load.load_eq_ok_iff.mp hload
  have hwf := Load.errors_eq_nil_iff.mp hnone
  have hreads := Load.reads_ground hwf
  exact ⟨rfl, hreads.timelines, hreads.denotes, hreads.denotes_resolveGoals hwf.goals,
    hreads.sound.entered⟩

/-- A ship that can dock while the tide is high. -/
def harbour : Problem where
  resources := [{ className := "Crane" }]
  timelines := [{ className := "Ship", states := [
    { name := "Sailing" },
    { name := "Docked", duration := .between 1 5, conditions := [.follows "Sailing",
      .uses (.named "Crane_0") 1, .during (.named "tide") "High"] }] }]
  facts := [⟨"tide", "High"⟩, ⟨"Ship_0", "Sailing"⟩, ⟨"tide", "Low"⟩]
  goals := [⟨"Ship_0", "Docked"⟩]
  openClasses := ["Crane"]

/-- The harbour is loaded: its ship is declared, its tide comes from a fact alone. -/
theorem Model.load_exact_harbour : ∃ m, Model.load harbour = .ok m ∧ m.Renders harbour ∧
    m.timelines.map (·.name) = ["Ship_0", "tide"] := by
  have hwf : harbour.WellFormed := by decide +kernel
  obtain ⟨m, hload⟩ := (Model.load_exact harbour).1.mpr hwf
  have hrenders := (Model.load_exact harbour).2 m hload
  refine ⟨m, hload, hrenders, ?_⟩
  rw [hrenders.timelines]
  decide +kernel

end TemporalPlanning
