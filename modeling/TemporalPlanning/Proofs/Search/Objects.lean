import TemporalPlanning.Proofs.Search.Goals

/-!
# The objects of a partial plan

The objects of a partial plan are the declared ones and then those that decisions have created, each
at most one (`Task.adds_of_apply`). What becomes of a timeline later is of no concern here, so that
timelines are compared as they were when they came (`Timeline.blank`).

A created object is named after its class, with the least number that makes the name new. As the
validator reads the class off such a name again, it finds the declaration that the object was copied
from, and for a declared object its own declaration, because no two objects share a name
(`Task.Reachable.named`).
-/

namespace TemporalPlanning

/-- A timeline as it was when it came: without tokens. -/
def Timeline.blank (t : Timeline) : Timeline :=
  { t with sequence := [], facts := 0, sealed := false }

namespace Chronicle

variable {c : Chronicle}

/-- The timelines as they were when they came, in order of creation. -/
def roster (c : Chronicle) : List Timeline := c.timelines.toList.map Timeline.blank

theorem roster_congr {c' : Chronicle} (h : c'.timelines = c.timelines) : c'.roster = c.roster := by
  rw [roster, roster, h]

/-- A change to a timeline that keeps its name, class and states keeps the roster. -/
theorem roster_updateTimeline {id : TimelineId} {f : Timeline → Timeline}
    (hf : ∀ t, (f t).blank = t.blank) : (c.updateTimeline id f).roster = c.roster := by
  refine List.ext_getElem? fun i => ?_
  rw [roster, roster, List.getElem?_map, List.getElem?_map, Array.getElem?_toList,
    Array.getElem?_toList, updateTimeline, Array.getElem?_modify]
  split
  · cases c.timelines[i]? with
    | none => rfl
    -- the roster shows a timeline without its tokens
    | some t => exact congrArg some (hf t)
  · rfl

/-- A token that enters leaves the roster as it is. -/
theorem roster_enter {t : Token} {position : Nat} : (c.enter t position).roster = c.roster := by
  refine (roster_updateTimeline fun host => ?_).trans (roster_congr rfl)
  unfold Timeline.withToken
  split <;> rfl

theorem roster_setSealed {id : TimelineId} {sealed : Bool} :
    (c.setSealed id sealed).roster = c.roster :=
  roster_updateTimeline fun _ => rfl

theorem roster_addTimeline {t : Timeline} : (c.addTimeline t).roster = c.roster ++ [t.blank] := by
  rw [roster, addTimeline, Array.toList_push, List.map_append]
  rfl

theorem mem_roster {t : Timeline} :
    t ∈ c.roster ↔ ∃ id host, c.timeline id = .ok host ∧ host.blank = t := by
  rw [roster, List.mem_map]
  constructor
  · rintro ⟨host, hhost, rfl⟩
    obtain ⟨id, hid⟩ := mem_timelines.mp hhost
    exact ⟨id, host, hid, rfl⟩
  · rintro ⟨id, host, hhost, rfl⟩
    exact ⟨host, mem_timelines.mpr ⟨id, hhost⟩, rfl⟩

/-- Timelines are counted as they were when they came. -/
theorem synthesizedCount_eq (className : String) : c.synthesizedCount className =
    (c.roster.filter fun t => t.synthesized && t.className == some className).length := by
  rw [synthesizedCount, roster, List.filter_map, List.length_map]
  rfl

end Chronicle

namespace PartialPlan

variable {s s₁ s' : PartialPlan}

/-- The names of all objects. -/
def objectNames (s : PartialPlan) : List String :=
  s.chronicle.roster.map (·.name) ++ s.reservations.resources.toList.map (·.name)

/-- The objects of the second partial plan are those of the first one, and then some timelines and
some resources. -/
structure Adds (s s' : PartialPlan) (timelines : List Timeline) (resources : List Resource) :
    Prop where
  timelines : s'.chronicle.roster = s.chronicle.roster ++ timelines
  resources : s'.reservations.resources.toList = s.reservations.resources.toList ++ resources

variable {ts ts' : List Timeline} {rs rs' : List Resource}

theorem Adds.of_eq (htimelines : s'.chronicle.roster = s.chronicle.roster)
    (hresources : s'.reservations.resources = s.reservations.resources) : s.Adds s' [] [] :=
  ⟨by rw [htimelines, List.append_nil], by rw [hresources, List.append_nil]⟩

theorem Adds.trans (h : s.Adds s₁ ts rs) (h' : s₁.Adds s' ts' rs') :
    s.Adds s' (ts ++ ts') (rs ++ rs') :=
  ⟨by rw [h'.timelines, h.timelines, List.append_assoc],
    by rw [h'.resources, h.resources, List.append_assoc]⟩

end PartialPlan

namespace Task

variable {task : Task} {facts : Nat → Nat} {s s' : PartialPlan}

/-! ### What a decision creates -/

/-- The timeline that is created for a class. -/
def newTimeline (task : Task) (s : PartialPlan) (className : String) : Timeline :=
  { name := task.freshName s className
    className := some className
    states := ((task.model.firstTimeline? className).map (·.states)).getD []
    synthesized := true }

/-- The resource that is created for a class. -/
def newResource (task : Task) (s : PartialPlan) (className : String) : Resource :=
  ⟨task.freshName s className, className, (task.model.firstResource? className).bind (·.capacity),
    true⟩

end Task

/-- The timelines that a decision creates. -/
def Decision.newTimelines (task : Task) (s : PartialPlan) : Decision → List Timeline
  | .createTimeline _ _ className _ _ => [task.newTimeline s className]
  | _ => []

/-- The resources that a decision creates. -/
def Decision.newResources (task : Task) (s : PartialPlan) : Decision → List Resource
  | .createResource _ _ className _ => [task.newResource s className]
  | _ => []

namespace Task

variable {task : Task} {facts : Nat → Nat} {s s' : PartialPlan}

theorem adds_place (hsize : s.network.size = 2 * s.chronicle.tokens.size + 1) {id : TimelineId}
    {state : String} {position : Nat} {token : TokenId}
    (hs : Edit.place id state position s = .done token s') : s.Adds s' [] [] := by
  obtain ⟨_, _, placed, -⟩ := Edit.place_footprint hsize hs
  exact .of_eq (by rw [placed.chronicle_eq, Chronicle.roster_enter])
    (by rw [PartialPlan.reservations_congr placed.book_eq])

theorem adds_linkTo {consumer supplier : TokenId} {i : Nat} {relation : Relation} {u : Unit}
    (hs : linkTo consumer i supplier relation s = .done u s') : s.Adds s' [] [] := by
  obtain ⟨_, _, linked, -⟩ := linkTo_footprint hs
  exact .of_eq (by rw [linked.chronicle_eq, Chronicle.roster_congr Chronicle.timelines_linkTo])
    (by rw [PartialPlan.reservations_congr linked.book_eq])

theorem adds_reserveFor {id : TokenId} {i amount : Nat} {resource : ResourceId}
    {reservation : ReservationId} (hs : reserveFor id i resource amount s = .done reservation s') :
    s.Adds s' [] [] := by
  obtain ⟨_, reserved⟩ := reserveFor_eq_done hs
  exact .of_eq (by rw [reserved.chronicle_eq]; rfl) (by rw [reserved.reservations_eq]; rfl)

theorem adds_serveGoal {goal : Nat} {id : TokenId} {u : Unit}
    (hs : task.serveGoal goal id s = .done u s') : s.Adds s' [] [] := by
  obtain ⟨-, -, hbook, hchron⟩ := serveGoal_eq_done hs
  refine .of_eq ?_ (by rw [PartialPlan.reservations_congr hbook])
  rcases hchron with hchron | ⟨-, _, hchron⟩
  · rw [hchron]
    rfl
  · rw [hchron, Chronicle.roster_setSealed]
    rfl

theorem adds_commitAll {ids : List ReservationId} {u : Unit}
    (hs : commitAll ids s = .done u s') : s.Adds s' [] [] := by
  obtain ⟨-, hchron⟩ := PartialPlan.commitAll_eq_done hs
  refine .of_eq (by rw [PartialPlan.chronicle_congr hchron]) ?_
  refine PartialPlan.of_commitAll
    (P := fun s' => s'.reservations.resources = s.reservations.resources) ?_ rfl hs
  intro id u s₁ s₂ h hs
  rw [(Edit.commit_eq_done hs).2.2]
  exact h

theorem adds_addFact (hsize : s.network.size = 2 * s.chronicle.tokens.size + 1) {id : TimelineId}
    {state : String} {fact : TokenId} (hs : Edit.addFact id state s = .done fact s') :
    s.Adds s' [] [] := by
  obtain ⟨_, added, -⟩ := Edit.addFact_footprint hsize hs
  exact .of_eq (by rw [added.chronicle_eq, Chronicle.roster_enter])
    (by rw [PartialPlan.reservations_congr added.book_eq])

theorem adds_addResource {new : Resource} {i : ResourceId}
    (hs : Edit.addResource new s = .done i s') : s.Adds s' [] [new] := by
  obtain ⟨-, -, hchron, hbook⟩ := Edit.addResource_footprint hs
  exact ⟨by rw [PartialPlan.chronicle_congr hchron, List.append_nil],
    by rw [hbook]; exact Array.toList_push⟩

/-- A new timeline is added behind the others, without tokens. -/
theorem adds_addTimeline {name : String} {className : Option String}
    {states : List StateTemplate} {synthesized : Bool} {i : TimelineId}
    (hs : Edit.addTimeline name className states synthesized s = .done i s') :
    s.Adds s' [{ name, className, states, synthesized }] [] := by
  obtain ⟨-, -, hbook, hchron⟩ := Edit.addTimeline_footprint hs
  exact ⟨by rw [hchron]; exact Chronicle.roster_addTimeline,
    by rw [PartialPlan.reservations_congr hbook, List.append_nil]⟩

/-- Each kind of decision adds the object that it says it creates. Only the two decisions that
create an object change the lists of timelines or resources, and they put it at the end. -/
theorem adds_of_carryOut (h : s.Tidy task.model facts) {d : Decision}
    {made : List ReservationId} (hs : task.carryOut d s = .done made s') :
    s.Adds s' (d.newTimelines task s) (d.newResources task s) := by
  -- by the kind of the decision; only two of them create an object
  cases d with
  | supportGoal goal token => exact adds_serveGoal (carryOut_supportGoal.mp hs).1
  | insertGoal goal position =>
    obtain ⟨_, -, _, s₂, hplace, hserve, -⟩ := carryOut_insertGoal.mp hs
    exact (adds_place h.size_eq hplace).trans (adds_serveGoal hserve)
  | reserve token i resource amount =>
    obtain ⟨_, hreserve, -⟩ := carryOut_reserve.mp hs
    exact adds_reserveFor hreserve
  | createResource token i className amount =>
    obtain ⟨_, s₂, hadd, _, hreserve, -⟩ := carryOut_createResource.mp hs
    exact (adds_addResource hadd).trans (adds_reserveFor hreserve)
  | link token i supplier relation => exact adds_linkTo (carryOut_link.mp hs).1
  | insertSupplier token i timeline state position relation =>
    obtain ⟨_, s₂, hplace, hlink, -⟩ := carryOut_insertSupplier.mp hs
    exact (adds_place h.size_eq hplace).trans (adds_linkTo hlink)
  | createTimeline token i className state relation =>
    obtain ⟨_, s₂, hadd, _, s₃, hplace, hlink, -⟩ := carryOut_createTimeline.mp hs
    -- a new timeline brings no timepoints, so the next token still gets its own
    have hsize : s₂.network.size = 2 * s₂.chronicle.tokens.size + 1 := by
      obtain ⟨-, hnet, -, hchron⟩ := Edit.addTimeline_footprint hadd
      rw [PartialPlan.network_congr hnet, hchron]
      exact h.size_eq
    exact (adds_addTimeline hadd).trans ((adds_place hsize hplace).trans (adds_linkTo hlink))
  -- an order is a constraint, and adds no object
  | order before after =>
    obtain ⟨_, _, -, -, hpost, -⟩ := carryOut_order.mp hs
    obtain ⟨-, hbook, hchron⟩ := Edit.post_footprint hpost
    exact .of_eq (by rw [PartialPlan.chronicle_congr hchron])
      (by rw [PartialPlan.reservations_congr hbook])

/-- **A decision adds the object that it says it creates, and no other.** -/
theorem adds_of_apply (h : s.Tidy task.model facts) {d : Decision} {u : Unit}
    (hs : task.apply d s = .done u s') :
    s.Adds s' (d.newTimelines task s) (d.newResources task s) := by
  obtain ⟨made, s₁, hmade, -, hcommit⟩ := apply_eq_done.mp hs
  simpa using (adds_of_carryOut h hmade).trans (adds_commitAll hcommit)

/-- The first partial plan has the declared objects. They come in the order of the model, with their
classes and capacities, and nothing is created while the facts are placed. -/
theorem objects_of_start (hm : task.model.WellFormed) {u : Unit} (hs : task.start = .done u s) :
    s.chronicle.roster = task.model.timelines.map Timeline.declared ∧
      s.reservations.resources.toList = task.model.resources.map Resource.declared := by
  refine (start_induct (P := fun given s => s.Tidy task.model (Model.countOn given) ∧
    s.chronicle.roster = task.model.timelines.map Timeline.declared ∧
      s.reservations.resources.toList = task.model.resources.map Resource.declared) ?_ ?_ hs).2
  · intro s hs
    refine ⟨hs.tidy hm, ?_, by rw [hs.resources, List.toList_toArray]⟩
    rw [Chronicle.roster, hs.timelines, List.toList_toArray, List.map_map]
    rfl
  · rintro given f rest hgiven s fact s' ⟨h, htimelines, hresources⟩ hs
    -- facts add no objects
    have hadds := adds_addFact h.size_eq hs
    have hf : f ∈ task.model.facts := hm.perm_factsInTurn.mem_iff.mp (by rw [hgiven]; simp)
    rw [Model.countOn_concat]
    exact ⟨h.addFact hm hf hs, by rw [hadds.timelines, htimelines, List.append_nil],
      by rw [hadds.resources, hresources, List.append_nil]⟩

/-! ### Where the objects come from -/

/-- A timeline was created on the way to `s`, with the states of the declaration `d`. -/
def TimelineCopied (task : Task) (s : PartialPlan) (d : TimelineDef) (t : Timeline) : Prop :=
  ∃ s₀ className, task.Reachable s₀ ∧ task.Onward s₀ s ∧ t = task.newTimeline s₀ className ∧
    task.model.firstTimeline? className = some d ∧ t.states = d.states

/-- A resource was created on the way to `s`, with the capacity of the declaration `d`. -/
def ResourceCopied (task : Task) (s : PartialPlan) (d : ResourceDef) (r : Resource) : Prop :=
  ∃ s₀ className, task.Reachable s₀ ∧ task.Onward s₀ s ∧ r = task.newResource s₀ className ∧
    task.model.firstResource? className = some d ∧ r.capacity = d.capacity

variable {d : TimelineDef} {t : Timeline} {e : ResourceDef} {r : Resource}

/-- A timeline stays a copy when the search goes on. -/
theorem TimelineCopied.mono (h : task.TimelineCopied s d t)
    (honward : ∀ s₀, task.Onward s₀ s → task.Onward s₀ s') : task.TimelineCopied s' d t := by
  obtain ⟨s₀, className, hreachable, hs₀, hcopy⟩ := h
  exact ⟨s₀, className, hreachable, honward s₀ hs₀, hcopy⟩

theorem ResourceCopied.mono (h : task.ResourceCopied s e r)
    (honward : ∀ s₀, task.Onward s₀ s → task.Onward s₀ s') : task.ResourceCopied s' e r := by
  obtain ⟨s₀, className, hreachable, hs₀, hcopy⟩ := h
  exact ⟨s₀, className, hreachable, honward s₀ hs₀, hcopy⟩

/-- The name of a created timeline leads to the declaration that it was copied from. -/
theorem TimelineCopied.timelineTemplate? (h : task.TimelineCopied s d t) :
    task.model.timelineTemplate? t.name = some d := by
  obtain ⟨s₀, className, -, -, rfl, hd, -⟩ := h
  obtain ⟨hnew, -⟩ := ne_of_not_isTaken (@isTaken_freshName task s₀ className)
  obtain ⟨n, hn, -⟩ := @exists_freshName_eq task s₀ className
  show task.model.timelineTemplate? (task.freshName s₀ className) = some d
  rw [Model.timelineTemplate?, Model.timelineIndex?_of_not_hasObject hnew, hn,
    Model.classOfName?_created]
  exact hd

/-- The name of a created resource leads to the declaration that it was copied from. -/
theorem ResourceCopied.resourceTemplate? (h : task.ResourceCopied s e r) :
    task.model.resourceTemplate? r.name = some e := by
  obtain ⟨s₀, className, -, -, rfl, hd, -⟩ := h
  obtain ⟨hnew, -⟩ := ne_of_not_isTaken (@isTaken_freshName task s₀ className)
  obtain ⟨n, hn, -⟩ := @exists_freshName_eq task s₀ className
  show task.model.resourceTemplate? (task.freshName s₀ className) = some e
  rw [Model.resourceTemplate?, Model.resourceIndex?_of_not_hasObject hnew, hn,
    Model.classOfName?_created]
  exact hd

/-- The objects of a partial plan are the declared ones, then the timelines `ts` and the resources
`rs`, which decisions have created on the way. -/
structure Stocked (task : Task) (s : PartialPlan) (ts : List Timeline) (rs : List Resource) :
    Prop where
  timelines : s.chronicle.roster = task.model.timelines.map Timeline.declared ++ ts
  resources : s.reservations.resources.toList = task.model.resources.map Resource.declared ++ rs
  timelineCopied : ∀ t ∈ ts, ∃ d, task.TimelineCopied s d t
  resourceCopied : ∀ r ∈ rs, ∃ d, task.ResourceCopied s d r

variable {ts : List Timeline} {rs : List Resource}

/-- A decision that suits adds copies of declarations. The copy is made from the first declaration
of the class, which is also the one that the new name leads back to. -/
theorem Stocked.apply (h : task.Stocked s ts rs) (hreachable : task.Reachable s)
    (htidy : s.Tidy task.model facts) {flaw : Flaw} {ds : List Decision} {d : Decision}
    (hds : task.repairs s flaw = .ok ds) (hd : d ∈ ds) (hadmits : admits s d = .ok true)
    (hs : task.apply d s = .done () s') :
    task.Stocked s' (ts ++ d.newTimelines task s) (rs ++ d.newResources task s) := by
  have hadds := adds_of_apply htidy hs
  have hsuits := suits_of_mem_repairs htidy.chronicle hds d hd
  have honward : ∀ s₀, task.Onward s₀ s → task.Onward s₀ s' :=
    fun s₀ h => h.apply hds hd hadmits hs
  -- copies that were there are still copies; only two kinds of decisions add a new one
  refine ⟨by rw [hadds.timelines, h.timelines, List.append_assoc],
    by rw [hadds.resources, h.resources, List.append_assoc],
    List.forall_mem_append.mpr
      ⟨fun t ht => (h.timelineCopied t ht).imp fun _ h => h.mono honward, ?_⟩,
    List.forall_mem_append.mpr
      ⟨fun r hr => (h.resourceCopied r hr).imp fun _ h => h.mono honward, ?_⟩⟩
  · cases d with
    | createTimeline token i className state relation =>
      -- the class has a declared timeline, and that is what is copied
      obtain ⟨_, -, -, -, d, hd⟩ := hsuits
      refine List.forall_mem_singleton.mpr
        ⟨d, s, className, hreachable, honward s .refl, rfl, hd, ?_⟩
      rw [newTimeline, hd]
      rfl
    | supportGoal | insertGoal | reserve | createResource | link | insertSupplier | order =>
      exact List.forall_mem_nil _
  · cases d with
    | createResource token i className amount =>
      -- in the same way for a resource
      obtain ⟨-, d, hd, -⟩ := hsuits
      refine List.forall_mem_singleton.mpr
        ⟨d, s, className, hreachable, honward s .refl, rfl, hd, ?_⟩
      rw [newResource, hd]
      rfl
    | supportGoal | insertGoal | reserve | createTimeline | link | insertSupplier | order =>
      exact List.forall_mem_nil _

/-- **The objects of a reachable partial plan are the declared ones and copies of them.** -/
theorem Reachable.exists_stocked (h : task.Reachable s) (hm : task.model.WellFormed) :
    ∃ ts rs, task.Stocked s ts rs := by
  induction h with
  | start hs =>
    obtain ⟨htimelines, hresources⟩ := objects_of_start hm hs
    exact ⟨[], [], by rw [htimelines, List.append_nil], by rw [hresources, List.append_nil],
      List.forall_mem_nil _, List.forall_mem_nil _⟩
  | apply h hds hd hadmits hs ih =>
    obtain ⟨ts, rs, hstocked⟩ := ih
    exact ⟨_, _, hstocked.apply h (h.tidy hm) hds hd hadmits hs⟩

/-! ### Names -/

/-- A fresh name is not among the names of the objects. It was tested against the two components and
against the model, of which the components are enough here. -/
theorem freshName_notMem_objectNames (className : String) :
    task.freshName s className ∉ s.objectNames := by
  obtain ⟨-, htimelines, hresources⟩ :=
    ne_of_not_isTaken (@isTaken_freshName task s className)
  rw [PartialPlan.objectNames, List.mem_append, not_or]
  -- the name is neither that of a timeline nor that of a resource
  constructor
  · rintro hmem
    obtain ⟨t, ht, hname⟩ := List.mem_map.mp hmem
    obtain ⟨id, host, hhost, rfl⟩ := Chronicle.mem_roster.mp ht
    exact htimelines id host hhost hname
  · rintro hmem
    obtain ⟨r, hr, hname⟩ := List.mem_map.mp hmem
    obtain ⟨id, hid⟩ := ReservationBook.mem_resources.mp hr
    exact hresources id r hid hname

/-- Names that are taken are names of objects. The table of names of the model has the declared
objects, and the two components have all of them. -/
theorem Stocked.mem_objectNames (h : task.Stocked s ts rs) (hm : task.model.WellFormed)
    {name : String} (hname : task.isTaken s name) : name ∈ s.objectNames := by
  have declared : ∀ t ∈ task.model.timelines, t.name ∈ s.objectNames := fun t ht => by
    refine List.mem_append_left _ (List.mem_map.mpr ⟨Timeline.declared t, ?_, rfl⟩)
    rw [h.timelines]
    exact List.mem_append_left _ (List.mem_map_of_mem ht)
  have declared' : ∀ r ∈ task.model.resources, r.name ∈ s.objectNames := fun r hr => by
    refine List.mem_append_right _ (List.mem_map.mpr ⟨Resource.declared r, ?_, rfl⟩)
    rw [h.resources]
    exact List.mem_append_left _ (List.mem_map_of_mem hr)
  simp only [isTaken, Bool.or_eq_true] at hname
  -- a name is taken by a declared object, or by one that is there now
  rcases hname with (hobject | htimeline) | hresource
  · -- a declared object is there from the start
    obtain ⟨key, hkey⟩ := Option.isSome_iff_exists.mp hobject
    cases key with
    | resource i =>
      obtain ⟨r, hr, rfl⟩ := ((hm.entered name).1 i).mp hkey
      exact declared' r (List.mem_of_getElem? hr)
    | timeline i =>
      obtain ⟨t, ht, rfl⟩ := ((hm.entered name).2 i).mp hkey
      exact declared t (List.mem_of_getElem? ht)
  · -- the two look-ups by name find an object that is there
    obtain ⟨id, hid⟩ := Option.isSome_iff_exists.mp htimeline
    obtain ⟨host, hhost, rfl⟩ := Chronicle.timeline_of_find? hid
    exact List.mem_append_left _
      (List.mem_map.mpr ⟨host.blank, Chronicle.mem_roster.mpr ⟨id, host, hhost, rfl⟩, rfl⟩)
  · obtain ⟨id, hid⟩ := Option.isSome_iff_exists.mp hresource
    obtain ⟨r, hr, rfl⟩ := ReservationBook.resource_of_find? hid
    exact List.mem_append_right _
      (List.mem_map_of_mem (ReservationBook.mem_resources.mpr ⟨id, hr⟩))

/-- **No two objects of a reachable partial plan share a name.** The declared names are distinct
because the model was loaded, and a created one was free when it was chosen. -/
theorem Reachable.nodup_objectNames (h : task.Reachable s) (hm : task.model.WellFormed) :
    s.objectNames.Nodup := by
  induction h with
  | start hs =>
    obtain ⟨htimelines, hresources⟩ := objects_of_start hm hs
    rw [PartialPlan.objectNames, htimelines, hresources, List.map_map, List.map_map]
    exact hm.nodup_names
  | @apply s s' flaw ds d h hds hd hadmits hs ih =>
    have hadds := adds_of_apply (h.tidy hm) hs
    -- timelines are named before resources, so that new names end up in two places
    have hperm : s'.objectNames.Perm (s.objectNames ++
        ((d.newTimelines task s).map (·.name) ++ (d.newResources task s).map (·.name))) := by
      simp only [PartialPlan.objectNames, hadds.timelines, hadds.resources, List.map_append,
        List.append_assoc]
      exact (List.perm_append_left_iff _).mpr (List.perm_append_comm_assoc ..)
    -- at most one object is new, and its name was chosen to be free
    have hnew : ∀ className, (s.objectNames ++ [task.freshName s className]).Nodup := by
      intro className
      rw [List.nodup_append_comm]
      exact List.nodup_cons.mpr ⟨freshName_notMem_objectNames className, ih⟩
    rw [hperm.nodup_iff]
    cases d with
    | createResource token i className amount => exact hnew className
    | createTimeline token i className state relation => exact hnew className
    | supportGoal | insertGoal | reserve | link | insertSupplier | order =>
      exact (List.append_nil _).symm ▸ ih

end Task

/-- The names of the objects of a partial plan are in order. -/
structure PartialPlan.Named (task : Task) (s : PartialPlan) : Prop where
  /-- No two objects share a name. -/
  nodup : s.objectNames.Nodup
  /-- A new name is the class with the least number that names no object. -/
  fresh : ∀ className, ∃ n : Nat, task.freshName s className = s!"{className}_{n}" ∧
    s!"{className}_{n}" ∉ s.objectNames ∧ ∀ k < n, s!"{className}_{k}" ∈ s.objectNames
  /-- The name of a timeline leads to its own declaration, or to the one that it is a copy of. -/
  timelines : ∃ created,
    s.chronicle.roster = task.model.timelines.map Timeline.declared ++ created ∧
    (∀ d ∈ task.model.timelines, task.model.timelineTemplate? d.name = some d) ∧
    ∀ t ∈ created, ∃ d, task.TimelineCopied s d t ∧ task.model.timelineTemplate? t.name = some d
  /-- The name of a resource leads to its own declaration, or to the one that it is a copy of. -/
  resources : ∃ created,
    s.reservations.resources.toList = task.model.resources.map Resource.declared ++ created ∧
    (∀ d ∈ task.model.resources, task.model.resourceTemplate? d.name = some d) ∧
    ∀ r ∈ created, ∃ d, task.ResourceCopied s d r ∧ task.model.resourceTemplate? r.name = some d

/-- **Names tell the objects of a reachable partial plan apart, and lead back to declarations.** The
clauses are proved one by one: the names are distinct, the number of a new one is the least free,
and each object has its declaration. -/
theorem Task.Reachable.named {task : Task} {s : PartialPlan} {problem : Problem}
    (hload : Model.load problem = .ok task.model) (h : task.Reachable s) : s.Named task := by
  obtain ⟨hm, -⟩ := Model.wellFormed_of_load hload
  obtain ⟨ts, rs, hstocked⟩ := h.exists_stocked hm
  -- the objects are the declared ones followed by those that the search created
  refine ⟨h.nodup_objectNames hm, fun className => ?_, ⟨ts, hstocked.timelines, fun d hd => ?_,
    fun t ht => ?_⟩, ⟨rs, hstocked.resources, fun d hd => ?_, fun r hr => ?_⟩⟩
  · obtain ⟨n, hn, htaken⟩ := @Task.exists_freshName_eq task s className
    exact ⟨n, hn, hn ▸ Task.freshName_notMem_objectNames className,
      fun k hk => hstocked.mem_objectNames hm (htaken k hk)⟩
  · obtain ⟨i, hi⟩ := List.mem_iff_getElem?.mp hd
    exact hm.timelineTemplate?_eq hi
  · -- what was created is a copy of the declaration that its class leads to
    obtain ⟨d, hd⟩ := hstocked.timelineCopied t ht
    exact ⟨d, hd, hd.timelineTemplate?⟩
  · obtain ⟨i, hi⟩ := List.mem_iff_getElem?.mp hd
    exact hm.resourceTemplate?_eq hi
  · obtain ⟨d, hd⟩ := hstocked.resourceCopied r hr
    exact ⟨d, hd, hd.resourceTemplate?⟩

/-! ### A problem -/

/-- A value that is left when the error is forgotten was the result. -/
theorem eq_ok_of_toOption {ε α : Type} {x : Except ε α} {a : α} (h : x.toOption = some a) :
    x = .ok a := by
  cases x with
  | error e => exact absurd h (by simp [Except.toOption])
  | ok b => exact congrArg Except.ok (Option.some.inj h)

namespace Task

variable {task : Task} {s s' : PartialPlan} {choices : List Nat}

/-- Repairs one flaw after the other, each by the repair in the place that is given for it. -/
def pursue (task : Task) : (choices : List Nat) → PartialPlan → Option PartialPlan
  | [], s => some s
  | i :: choices, s =>
    match task.nextFlaw s with
    | .ok (some flaw) =>
      -- each choice is an index into the repairs of the flaw that is selected next
      match (task.repairs s flaw).toOption.bind (·[i]?) with
      | some d =>
        if (admits s d).toOption = some true then
          match task.apply d s with
          | .done () s => pursue task choices s
          | _ => none
        else none
      | none => none
    | _ => none

/-- Whatever repairs are chosen, pursuing them leads to reachable partial plans. It turns a computed
sequence of choices into evidence that a partial plan is reachable, which the examples use. -/
theorem Reachable.pursue (h : task.Reachable s) (hs : task.pursue choices s = some s') :
    task.Reachable s' := by
  -- along the choices, each of which picks one of the repairs of the next flaw
  induction choices generalizing s with
  | nil =>
    obtain rfl := Option.some.inj hs
    exact h
  | cons i choices ih =>
    rw [Task.pursue] at hs
    split at hs
    · next flaw hflaw =>
      split at hs
      · next d hd =>
        split at hs
        · next hadmits =>
          split at hs
          · next s₁ happly =>
            -- every test has been passed, which makes this a decision of the search
            obtain ⟨ds, hds, hd⟩ := Option.bind_eq_some_iff.mp hd
            exact ih (h.apply (eq_ok_of_toOption hds) (List.mem_of_getElem? hd)
              (eq_ok_of_toOption hadmits) happly) hs
          · exact absurd hs (by simp)
        · exact absurd hs (by simp)
      · exact absurd hs (by simp)
    · exact absurd hs (by simp)

/-- Repairs flaws of the first partial plan. -/
def pursueFromStart (task : Task) (choices : List Nat) : Option PartialPlan :=
  match task.start with
  | .done () s => task.pursue choices s
  | _ => none

theorem reachable_of_pursueFromStart (hs : task.pursueFromStart choices = some s) :
    task.Reachable s := by
  unfold pursueFromStart at hs
  split at hs
  · next s₀ hstart => exact (Reachable.start hstart).pursue hs
  · exact absurd hs (by simp)

end Task

/-- A ship that is loaded from two pods, beside another one that is open. There is one pod to load
from, and one that is shut. -/
def pods : Problem where
  resources := [{ className := "Pod", capacity := some 1 }]
  timelines := [
    { className := "Ship", name := some "ship", states := [
      { name := "Load", duration := .exactly 5, conditions := [.uses (.anyOf "Pod") 1,
        .uses (.anyOf "Pod") 1, .during (.anyOf "Pod") "Open"] }] },
    { className := "Pod", name := some "pod", states := [
      { name := "Open", duration := .exactly 5 }, { name := "Shut", duration := .exactly 5 }] }]
  facts := [⟨"pod", "Shut"⟩]
  goals := [⟨"ship", "Load"⟩]
  openClasses := ["Pod"]

/-- There is no time to open the pod that is shut. -/
def podsConfig : Config := { maxDecisions := 100, horizon := some 5, maxSynthesizedPerClass := 1 }

/-- Both kinds of pods are created. Each class has its own count of resources and of timelines, and
one decision of each kind is allowed. -/
theorem exists_reachable_pods : ∃ m s, Model.load pods = .ok m ∧
    Task.Reachable ⟨m, podsConfig⟩ s ∧ s.chronicle.synthesizedCount "Pod" = 1 ∧
      s.reservations.synthesizedCount "Pod" = 1 := by
  have hcounts : ((Model.load pods).toOption.bind fun m =>
      (Task.pursueFromStart ⟨m, podsConfig⟩ [0, 0, 1, 1]).map fun s =>
        (s.chronicle.synthesizedCount "Pod", s.reservations.synthesizedCount "Pod")) =
      some (1, 1) := by decide +kernel
  obtain ⟨m, hload, hcounts⟩ := Option.bind_eq_some_iff.mp hcounts
  obtain ⟨s, hs, hcounts⟩ := Option.map_eq_some_iff.mp hcounts
  obtain ⟨htimelines, hresources⟩ := Prod.mk.inj hcounts
  exact ⟨m, s, eq_ok_of_toOption hload, Task.reachable_of_pursueFromStart hs,
    htimelines, hresources⟩

/-- The names of the pods are in order when two of them have been created. -/
theorem named_pods : ∃ m s, Model.load pods = .ok m ∧ Task.Reachable ⟨m, podsConfig⟩ s ∧
    s.chronicle.synthesizedCount "Pod" = 1 ∧ s.reservations.synthesizedCount "Pod" = 1 ∧
      s.Named ⟨m, podsConfig⟩ := by
  obtain ⟨m, s, hload, hreachable, htimelines, hresources⟩ := exists_reachable_pods
  exact ⟨m, s, hload, hreachable, htimelines, hresources, hreachable.named hload⟩

end TemporalPlanning
