import Mathlib.Data.List.Nodup
import TemporalPlanning.Proofs.Chronicle.Supports

/-!
# Well-formed books of reservations

In a well-formed book the declared resources come first, and every further one was created for a
class, with a name of its own (`ReservationBook.WellFormed`). Hence the declaration that a resource
follows can be found by its name (`ReservationBook.WellFormed.resourceTemplate?`).
-/

namespace TemporalPlanning

/-- A resource that the search has created for a class of the model. -/
structure Resource.Created (m : Model) (r : Resource) : Prop where
  new : m.hasObject r.name = false
  follows : ∃ (n : Nat) (d : ResourceDef), r.name = s!"{r.className}_{n}" ∧
    m.firstResource? r.className = some d ∧ r.capacity = d.capacity

/-- A well-formed book of reservations for a model. -/
structure ReservationBook.WellFormed (m : Model) (b : ReservationBook) : Prop where
  declared : ∀ (i : Nat) d, m.resources[i]? = some d →
    b.resource? ⟨i⟩ = some ⟨d.name, d.className, d.capacity, false⟩
  created : ∀ id r, b.resource? id = some r → m.resources.length ≤ id.index → r.Created m
  name_inj : ∀ id id' r r', b.resource? id = some r → b.resource? id' = some r' →
    r.name = r'.name → id = id'

namespace ReservationBook

variable {m : Model} {b : ReservationBook}

/-- After a resource is added, what is found under an identifier is what was found there before, or
the new resource under the next free identifier. -/
theorem resource?_addResource {r r' : Resource} {id : ResourceId} :
    (b.addResource r).resource? id = some r' ↔
      b.resource? id = some r' ∨ (id = ⟨b.resources.size⟩ ∧ r = r') := by
  obtain ⟨i⟩ := id
  rw [resource?, resource?, ResourceId.mk.injEq, addResource, Array.getElem?_push]
  by_cases hi : i = b.resources.size
  · -- the old resources end just before the new number
    subst hi
    rw [if_pos rfl, Array.getElem?_eq_none le_rfl]
    simp
  · rw [if_neg hi]
    simp [hi]

/-- The same for a reservation, which is live from the moment it is added. -/
theorem reservation?_addReservation {r r' : Reservation} {id : ReservationId} :
    (b.addReservation r).reservation? id = some r' ↔
      b.reservation? id = some r' ∨ (id = ⟨b.reservations.size⟩ ∧ r = r') := by
  obtain ⟨i⟩ := id
  rw [reservation?, reservation?, ReservationId.mk.injEq, addReservation, Array.getElem?_push]
  by_cases hi : i = b.reservations.size
  · subst hi
    rw [if_pos rfl, Array.getElem?_eq_none le_rfl]
    simp
  · rw [if_neg hi]
    simp [hi]

/-- A change of status alters one reservation in its status alone; it neither frees nor revives a
slot. -/
theorem reservation?_setStatus {status : ReservationStatus} {id id' : ReservationId}
    {r' : Reservation} : (b.setStatus id status).reservation? id' = some r' ↔
      ∃ r, b.reservation? id' = some r ∧ (if id' = id then { r with status } else r) = r' := by
  obtain ⟨i⟩ := id
  obtain ⟨i'⟩ := id'
  simp only [reservation?, setStatus, Array.getElem?_modify, ReservationId.mk.injEq,
    eq_comm (a := i)]
  cases b.reservations[i']? with
  | none => simp
  | some o =>
    -- a withdrawn reservation stays withdrawn
    cases o with
    | none => split <;> simp
    | some r => split <;> simp

/-- Setting the status that a live reservation has already changes nothing. -/
theorem setStatus_eq_self {id : ReservationId} {r : Reservation}
    (hr : b.reservations[id.index]? = some (some r)) {status : ReservationStatus}
    (hstatus : r.status = status) : b.setStatus id status = b := by
  obtain ⟨resources, reservations⟩ := b
  rw [setStatus, ReservationBook.mk.injEq]
  refine ⟨rfl, modify_eq_self fun slot hslot => ?_⟩
  obtain rfl := Option.some.inj (hr.symm.trans hslot)
  subst hstatus
  rfl

/-- A handle of a reservation is smaller than the number of places. -/
theorem index_lt_of_reservation {id : ReservationId} {r : Reservation}
    (h : b.reservation? id = some r) : id.index < b.reservations.size := by
  by_contra hge
  rw [reservation?, Array.getElem?_eq_none (by omega)] at h
  exact absurd h (by simp)

/-- The listed entries are the resources together with their identifiers. They are listed in the
order in which they were declared or created. -/
theorem mem_entries {e : ResourceId × Resource} :
    e ∈ b.entries ↔ b.resource? e.1 = some e.2 := by
  obtain ⟨⟨i⟩, r⟩ := e
  rw [entries, List.mem_mapIdx, resource?]
  simp only [Array.length_toList, Array.getElem_toList, Prod.mk.injEq, ResourceId.mk.injEq,
    Array.getElem?_eq_some_iff]
  constructor
  · rintro ⟨_, h, rfl, hr⟩
    exact ⟨h, hr⟩
  · rintro ⟨h, hr⟩
    exact ⟨i, h, rfl, hr⟩

/-- The resources are those that an identifier leads to. -/
theorem mem_resources {r : Resource} : r ∈ b.resources.toList ↔ ∃ id, b.resource? id = some r := by
  rw [Array.mem_toList_iff, Array.mem_iff_getElem?]
  constructor
  · rintro ⟨i, hi⟩
    exact ⟨⟨i⟩, hi⟩
  · rintro ⟨id, hid⟩
    exact ⟨id.index, hid⟩

/-- The identifiers of a class lead to the resources of that class. -/
theorem mem_ofClass {className : String} {id : ResourceId} :
    id ∈ b.ofClass className ↔ ∃ r, b.resource? id = some r ∧ r.className = className := by
  simp only [ofClass, List.mem_map, List.mem_filter, mem_entries, beq_iff_eq]
  constructor
  · rintro ⟨⟨id, r⟩, ⟨hr, hclass⟩, rfl⟩
    exact ⟨r, hr, hclass⟩
  · rintro ⟨r, hr, hclass⟩
    exact ⟨(id, r), ⟨hr, hclass⟩, rfl⟩

/-- What is found under a name is a resource of that name. -/
theorem resource_of_find? {name : String} {id : ResourceId} (h : b.find? name = some id) :
    ∃ r, b.resource? id = some r ∧ r.name = name := by
  obtain ⟨i, hi, rfl⟩ := Option.map_eq_some_iff.mp h
  obtain ⟨hlt, hname, -⟩ := List.findIdx?_eq_some_iff_getElem.mp hi
  refine ⟨_, ?_, by simpa using hname⟩
  rw [resource?, ← Array.getElem?_toList]
  exact List.getElem?_eq_getElem hlt

/-- A name is found if there is a resource of that name. -/
theorem find?_isSome {name : String} {id : ResourceId} {r : Resource} (hr : b.resource? id = some r)
    (hname : r.name = name) : ∃ id', b.find? name = some id' := by
  rw [← Option.isSome_iff_exists, find?, Option.isSome_map, List.findIdx?_isSome, List.any_eq_true]
  exact ⟨r, mem_resources.mpr ⟨id, hr⟩, by simpa using hname⟩

/-- The reservations listed on a resource are the live ones that are about it; freed slots are
passed over. -/
theorem mem_on {resource : ResourceId} {e : ReservationId × Reservation} :
    e ∈ b.on resource ↔ b.reservation? e.1 = some e.2 ∧ e.2.resource = resource := by
  obtain ⟨⟨i⟩, r⟩ := e
  rw [on, List.mem_filterMap, reservation?, Option.join_eq_some_iff]
  simp only [List.mem_mapIdx, Array.length_toList, Array.getElem_toList]
  constructor
  · -- what is listed comes from a slot that is filled, by a reservation of this resource
    rintro ⟨⟨id, o⟩, ⟨k, hk, heq⟩, hsome⟩
    obtain ⟨rfl, rfl⟩ := Prod.mk.inj heq
    dsimp only at hsome
    split at hsome
    · next r' hr' =>
      split at hsome
      · next hresource =>
        obtain ⟨hid, rfl⟩ := Prod.mk.inj (Option.some.inj hsome)
        obtain rfl := ReservationId.mk.inj hid
        exact ⟨by rw [Array.getElem?_eq_getElem hk, hr'], hresource⟩
      · exact absurd hsome (by simp)
    · exact absurd hsome (by simp)
  · -- a live reservation of the resource stands in the slot of its index
    rintro ⟨hr, hresource⟩
    obtain ⟨hk, hr⟩ := Array.getElem?_eq_some_iff.mp hr
    refine ⟨(⟨i⟩, some r), ⟨i, hk, by rw [hr]⟩, ?_⟩
    dsimp only
    rw [if_pos hresource]

/-- The reservations of a resource are listed in the order of their handles. New ones are put at the
end, and one that is withdrawn leaves its place empty. -/
theorem increasing_on (resource : ResourceId) :
    (b.on resource).Pairwise fun e f => e.1.index < f.1.index := by
  have hplaces : (b.reservations.toList.mapIdx fun i r => ((⟨i⟩ : ReservationId), r)).Pairwise
      fun p q => p.1.index < q.1.index := by
    rw [List.pairwise_iff_getElem]
    intro i j hi hj hlt
    simpa only [List.getElem_mapIdx] using hlt
  refine List.Pairwise.filterMap _ ?_ hplaces
  rintro ⟨id, r⟩ ⟨id', r'⟩ hlt e he f hf
  -- what is listed keeps the handle of its place
  cases r <;> cases r' <;> grind

/-- No reservation is listed twice. -/
theorem nodup_on (resource : ResourceId) : (b.on resource).Nodup :=
  (increasing_on resource).imp fun hlt heq => absurd (congrArg (·.1.index) heq) hlt.ne

theorem grows_addResource (r : Resource) : b.Grows (b.addResource r) :=
  ⟨fun _ _ h => resource?_addResource.mpr (.inl h), fun _ r h => ⟨r.status, h⟩⟩

/-- Adding a reservation makes the book grow: it takes a new slot and alters no resource. -/
theorem grows_addReservation (r : Reservation) : b.Grows (b.addReservation r) :=
  ⟨fun _ _ h => h, fun _ r h => ⟨r.status, reservation?_addReservation.mpr (.inl h)⟩⟩

/-- A change of status makes the book grow, trivially: no resource is touched and no slot is lost.
-/
theorem grows_setStatus (id : ReservationId) (status : ReservationStatus) :
    b.Grows (b.setStatus id status) := by
  refine ⟨fun _ _ h => h, fun id' r h => ?_⟩
  by_cases hid : id' = id
  · exact ⟨status, reservation?_setStatus.mpr ⟨r, h, if_pos hid⟩⟩
  · exact ⟨r.status, reservation?_setStatus.mpr ⟨r, h, if_neg hid⟩⟩

/-- The declaration that a resource follows can be found by its name, whether the resource was
declared or created during the search; what is found has the class and the capacity of the resource.
-/
theorem WellFormed.resourceTemplate? (h : b.WellFormed m) (hm : m.WellFormed) {id : ResourceId}
    {r : Resource} (hr : b.resource? id = some r) :
    ∃ d, m.resourceTemplate? r.name = some d ∧ d.className = r.className ∧
      d.capacity = r.capacity := by
  by_cases hlt : id.index < m.resources.length
  · -- the first resources of the book are the declared ones, in their order
    have hd : m.resources[id.index]? = some m.resources[id.index] := List.getElem?_eq_getElem hlt
    have := h.declared _ _ hd
    obtain rfl := Option.some.inj (this.symm.trans hr)
    exact ⟨_, hm.resourceTemplate?_eq hd, rfl, rfl⟩
  · -- the name of a created one leads to its class, and from there to the declaration it copies
    obtain ⟨hnew, n, d, hname, hd, hcapacity⟩ := h.created id r hr (by omega)
    refine ⟨d, ?_, ?_, hcapacity.symm⟩
    · rw [Model.resourceTemplate?, Model.resourceIndex?_of_not_hasObject hnew, hname,
        Model.classOfName?_created]
      exact hd
    · simpa using List.find?_some hd

/-- A resource is created for a class, with a new name. Declared resources keep their numbers, and
no other resource has the name of the new one, so that looking a name up stays unambiguous. -/
theorem WellFormed.addResource (h : b.WellFormed m) {new : Resource} (hnew : new.Created m)
    (hname : ∀ id r, b.resource? id = some r → r.name ≠ new.name) :
    (b.addResource new).WellFormed m where
  declared := fun i d hd => resource?_addResource.mpr (.inl (h.declared i d hd))
  created := by
    intro id r hr hlt
    -- the resource that is not declared is an old one or the new one
    rcases resource?_addResource.mp hr with hr | ⟨-, rfl⟩
    · exact h.created id r hr hlt
    · exact hnew
  name_inj := by
    intro id id' r r' hr hr' heq
    -- of two resources with one name either both are old, or both are the new one
    rcases resource?_addResource.mp hr with hr | ⟨rfl, rfl⟩ <;>
      rcases resource?_addResource.mp hr' with hr' | ⟨rfl, rfl⟩
    · exact h.name_inj id id' r r' hr hr' heq
    · exact absurd heq (hname id r hr)
    · exact absurd heq.symm (hname id' r' hr')
    · rfl

end ReservationBook

end TemporalPlanning
