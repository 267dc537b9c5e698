import TemporalPlanning.Chronicle.Basic
import TemporalPlanning.Reservation.Conflict

/-!
# Partial plans

A `PartialPlan` is what a search works on: the temporal network, the reservations and the timelines,
each with its own trail. A `Mark` remembers where the three trails stand, and `undoTo` goes back
there. An `Edit` is a step that changes a partial plan. It succeeds, or gets stuck at a dead end and
leaves behind what it had changed until then, or is forbidden altogether.
-/

namespace TemporalPlanning

/-- The state of a search. -/
structure PartialPlan where
  net : TrackedNetwork
  book : TrackedBook
  chron : TrackedChronicle

/-- Where the three trails of a partial plan stand. -/
structure Mark where
  network : Nat
  reservations : Nat
  chronicle : Nat
  deriving DecidableEq, Repr

namespace PartialPlan

/-- A partial plan without resources and timelines, for a number of goals. -/
def empty (horizon : Option Int) (goals : Nat) : PartialPlan :=
  ⟨.fresh (.origin horizon), .fresh .empty, .fresh (.empty goals)⟩

variable (s : PartialPlan)

/-- The temporal network as it stands. -/
abbrev network : Network := s.net.value

/-- The reservations as they stand. -/
abbrev reservations : ReservationBook := s.book.value

/-- The timelines as they stand. -/
abbrev chronicle : Chronicle := s.chron.value

/-- Where the trails stand. -/
def mark : Mark := ⟨s.net.mark, s.book.mark, s.chron.mark⟩

/-- Takes the network back to a mark. -/
def undoNetwork : PartialPlan → (mark : Nat) → Except Fault PartialPlan
  | ⟨net, book, chron⟩, mark =>
    match net.undoTo? mark with
    | some net => .ok ⟨net, book, chron⟩
    | none => .error .networkUnderflow

/-- Takes the reservations back to a mark. -/
def undoReservations : PartialPlan → (mark : Nat) → Except Fault PartialPlan
  | ⟨net, book, chron⟩, mark =>
    match book.undoTo? mark with
    | some book => .ok ⟨net, book, chron⟩
    | none => .error .reservationUnderflow

/-- Takes the timelines back to a mark. -/
def undoChronicle : PartialPlan → (mark : Nat) → Except Fault PartialPlan
  | ⟨net, book, chron⟩, mark =>
    match chron.undoTo? mark with
    | some chron => .ok ⟨net, book, chron⟩
    | none => .error .chronicleUnderflow

/-- Goes back to a mark: timelines first, then reservations, then the network. -/
def undoTo (mark : Mark) : Except Fault PartialPlan := do
  let s ← s.undoChronicle mark.chronicle
  let s ← s.undoReservations mark.reservations
  s.undoNetwork mark.network

end PartialPlan

/-! ### Edits -/

/-- How an edit of a partial plan ends. -/
inductive EditResult (α : Type) where
  | done (value : α) (s : PartialPlan)
  /-- A dead end was met; `s` keeps what was changed before. -/
  | stuck (why : DeadEnd) (s : PartialPlan)
  | forbidden (why : Fault)

/-- A step that changes a partial plan. -/
def Edit (α : Type) := PartialPlan → EditResult α

namespace Edit

variable {α β : Type}

instance : Monad Edit where
  pure a := fun s => .done a s
  bind x f := fun s =>
    match x s with
    | .done a s => f a s
    | .stuck why s => .stuck why s
    | .forbidden why => .forbidden why

/-- Gets stuck. -/
def stop (why : DeadEnd) : Edit α := fun s => .stuck why s

/-- Is forbidden. -/
def forbid (why : Fault) : Edit α := fun _ => .forbidden why

/-- Looks something up in the partial plan. -/
def query (f : PartialPlan → Except Fault α) : Edit α := fun s =>
  match f s with
  | .ok a => .done a s
  | .error why => .forbidden why

/-- Gets stuck if a check finds a dead end. -/
def check (f : PartialPlan → Except Fault (Option DeadEnd)) : Edit Unit := fun s =>
  match f s with
  | .ok none => .done () s
  | .ok (some why) => .stuck why s
  | .error why => .forbidden why

/-- Changes the network. -/
def onNetwork (f : TrackedNetwork → TrackedNetwork × α) : Edit α
  | ⟨net, book, chron⟩ =>
    let (net, a) := f net
    .done a ⟨net, book, chron⟩

/-- Changes the reservations. -/
def onBook (f : TrackedBook → Except Fault (TrackedBook × α)) : Edit α
  | ⟨net, book, chron⟩ =>
    match f book with
    | .ok (book, a) => .done a ⟨net, book, chron⟩
    | .error why => .forbidden why

/-- Changes the timelines. -/
def onChronicle (f : TrackedChronicle → Except Fault (TrackedChronicle × α)) : Edit α
  | ⟨net, book, chron⟩ =>
    match f chron with
    | .ok (chron, a) => .done a ⟨net, book, chron⟩
    | .error why => .forbidden why

end Edit

end TemporalPlanning
