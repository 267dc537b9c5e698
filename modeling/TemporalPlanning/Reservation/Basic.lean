import TemporalPlanning.Fault
import TemporalPlanning.Trail

/-!
# Reservations

A `ReservationBook` holds the resources of a partial plan and who has reserved them. A reservation
takes units of a resource from the start to the stop of a token, whatever dates these will get. It
is tentative until the repair that made it is accepted. A withdrawn reservation leaves its place
empty, so that the others keep their handles.
-/

namespace TemporalPlanning

/-- A resource of a partial plan. -/
structure Resource where
  name : String
  className : String
  capacity : Option Nat
  /-- Whether the search created it. -/
  synthesized : Bool
  deriving DecidableEq, Repr

/-- Whether so many units can be in use at a time. -/
def Resource.canHold (r : Resource) (amount : Nat) : Bool :=
  match r.capacity with
  | none => true
  | some capacity => amount ≤ capacity

inductive ReservationStatus where
  | tentative
  | committed
  deriving DecidableEq, Repr

/-- Units of a resource for the time of a token. -/
structure Reservation where
  resource : ResourceId
  token : TokenId
  start : Timepoint
  stop : Timepoint
  amount : Nat
  status : ReservationStatus
  deriving DecidableEq, Repr

/-- The resources and their reservations, each in order of creation. -/
structure ReservationBook where
  resources : Array Resource
  /-- A withdrawn reservation leaves an empty place. -/
  reservations : Array (Option Reservation)

/-- A change of a book, with what it replaced. -/
inductive BookChange where
  | newResource
  | newReservation
  | committed (id : ReservationId)
  | withdrawn (id : ReservationId) (old : Reservation)

namespace ReservationBook

/-- The book without resources. -/
def empty : ReservationBook := ⟨#[], #[]⟩

variable (book : ReservationBook)

/-! ### Queries -/

/-- All resources with their handles. -/
def entries : List (ResourceId × Resource) :=
  book.resources.toList.mapIdx fun i r => (⟨i⟩, r)

/-- A resource by its handle. -/
def resource? (id : ResourceId) : Option Resource := book.resources[id.index]?

/-- The first resource of a name. -/
def find? (name : String) : Option ResourceId :=
  (book.resources.toList.findIdx? fun r => r.name == name).map ResourceId.mk

/-- The resources of a class, in order of creation. -/
def ofClass (className : String) : List ResourceId :=
  (book.entries.filter fun e => e.2.className == className).map (·.1)

/-- The number of resources of a class that the search created. -/
def synthesizedCount (className : String) : Nat :=
  (book.resources.toList.filter fun r => r.synthesized && r.className == className).length

/-- A reservation that was not withdrawn. -/
def reservation? (id : ReservationId) : Option Reservation := book.reservations[id.index]?.join

/-- The reservations of a resource that were not withdrawn, in order of creation. -/
def on (resource : ResourceId) : List (ReservationId × Reservation) :=
  (book.reservations.toList.mapIdx fun i r => ((⟨i⟩ : ReservationId), r)).filterMap fun (id, r) =>
    match r with
    | some r => if r.resource = resource then some (id, r) else none
    | none => none

/-! ### Steps and their reversal -/

/-- Adds a resource. -/
def addResource (r : Resource) : ReservationBook := { book with resources := book.resources.push r }

/-- Adds a reservation. -/
def addReservation (r : Reservation) : ReservationBook :=
  { book with reservations := book.reservations.push (some r) }

/-- Replaces what stands in the place of a reservation. -/
def setReservation (id : ReservationId) (r : Option Reservation) : ReservationBook :=
  { book with reservations := book.reservations.setIfInBounds id.index r }

/-- Gives a reservation a status. -/
def setStatus (id : ReservationId) (status : ReservationStatus) : ReservationBook :=
  { book with reservations := book.reservations.modify id.index fun r => r.map ({ · with status }) }

/-- Takes back a change. -/
def revert : BookChange → ReservationBook → ReservationBook
  | .newResource, book => { book with resources := book.resources.pop }
  | .newReservation, book => { book with reservations := book.reservations.pop }
  | .committed id, book => book.setStatus id .tentative
  | .withdrawn id old, book => book.setReservation id (some old)

end ReservationBook

instance : Revertible ReservationBook BookChange := ⟨ReservationBook.revert⟩

/-- A book with the trail of its changes. -/
abbrev TrackedBook := Trailed ReservationBook BookChange

namespace TrackedBook

/-- Adds a resource. -/
def addResource (t : TrackedBook) (r : Resource) : TrackedBook × ResourceId :=
  (t.perform .newResource (·.addResource r), ⟨t.value.resources.size⟩)

/-- Reserves units of a resource for the time of a token, tentatively. -/
def reserve (t : TrackedBook) (resource : ResourceId) (token : TokenId) (start stop : Timepoint)
    (amount : Nat) : TrackedBook × ReservationId :=
  (t.perform .newReservation (·.addReservation ⟨resource, token, start, stop, amount, .tentative⟩),
    ⟨t.value.reservations.size⟩)

/-- Confirms a reservation that was not withdrawn. -/
def commit (t : TrackedBook) (id : ReservationId) : Except Fault TrackedBook :=
  match t.value.reservations[id.index]? with
  | none => .error .outOfRange
  | some none => .error (.withdrawn id)
  | some (some r) =>
    match r.status with
    | .committed => .ok t
    | .tentative => .ok (t.perform (.committed id) (·.setStatus id .committed))

/-- Withdraws a reservation; doing so twice changes nothing. -/
def withdraw (t : TrackedBook) (id : ReservationId) : Except Fault TrackedBook :=
  match t.value.reservations[id.index]? with
  | none => .error .outOfRange
  | some none => .ok t
  | some (some old) => .ok (t.perform (.withdrawn id old) (·.setReservation id none))

end TrackedBook

end TemporalPlanning
