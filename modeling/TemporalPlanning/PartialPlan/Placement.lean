import TemporalPlanning.PartialPlan.Basic

/-!
# Placing tokens

The edits that create tokens, put them into the sequences of their timelines and relate them in
time. A token has two timepoints whose distance its state bounds. Facts follow each other without
gap from the origin on; a planned token is created first and then put between two neighbours, which
it has to respect; joining a token to its predecessor closes the gap between them for good.
-/

namespace TemporalPlanning

namespace Edit

/-! ### Single steps -/

/-- Creates a timepoint. -/
def addTimepoint : Edit Timepoint := onNetwork TrackedNetwork.addTimepoint

/-- Refuses handles that are none of the network's timepoints. -/
def requireTimepoints (t u : Timepoint) : Edit Unit :=
  query fun s => do
    s.network.require t
    s.network.require u

/-- Posts a constraint. -/
def post (c : Constraint) : Edit Unit := do
  requireTimepoints c.first c.second
  fun s =>
    if s.network.admits c then onNetwork (fun net => (net.enforce c, ())) s
    else .stuck (.inconsistent c) s

/-- Computes all distances anew. The changes stay even if the network turns out inconsistent. -/
def propagate : Edit Unit := do
  match ← onNetwork TrackedNetwork.propagate with
  | none => return
  | some c => stop (.inconsistent c)

/-- Adds a timeline without tokens. -/
def addTimeline (name : String) (className : Option String) (states : List StateTemplate)
    (synthesized : Bool) : Edit TimelineId :=
  onChronicle fun c => .ok (TrackedChronicle.addTimeline c name className states synthesized)

/-- Adds a token that stands nowhere yet. -/
def addToken (token : Token) : Edit TokenId :=
  onChronicle fun c => .ok (TrackedChronicle.addToken c token)

/-- Changes the timelines in a way that can always be reverted. -/
def perform (change : ChronicleChange) (f : Chronicle → Chronicle) : Edit Unit :=
  onChronicle fun c => .ok (c.perform change f, ())

/-- A timeline by its handle. -/
def timeline (id : TimelineId) : Edit Timeline := query fun s => s.chronicle.timeline id

/-- A token by its handle. -/
def token (id : TokenId) : Edit Token := query fun s => s.chronicle.token id

/-- Creates the two timepoints of a token and bounds its duration. -/
def addInterval (d : Duration) : Edit (Timepoint × Timepoint) := do
  let start ← addTimepoint
  let stop ← addTimepoint
  post ⟨start, stop, d.min, d.max⟩
  return (start, stop)

/-! ### Tokens -/

/-- Adds a fact to a timeline: it starts when the fact before it ends, or at the origin. -/
def addFact (id : TimelineId) (state : String) : Edit TokenId := do
  let t ← timeline id
  if t.facts ≠ t.sequence.length then forbid (.lateFact t.name)
  else
    let duration := ((t.template? state).map (·.duration)).getD .standard
    let previous ← t.tail?.mapM token
    let (start, stop) ← addInterval duration
    -- a fact starts where the one before it stops, and the first one at the origin
    post (.exactly ((previous.map (·.stop)).getD .origin) start 0)
    let fact ← addToken
      { timeline := id, state, start, stop, origin := .fact, supports := [],
        locked := previous.isSome }
    perform (.newFact id) (·.appendFact id fact)
    return fact

/-- Creates a token of a state that its timeline declares. It stands nowhere yet. -/
def instantiate (id : TimelineId) (state : String) : Edit TokenId := do
  let t ← timeline id
  match t.template? state with
  | none => stop (.noSuchState t.name state)
  | some template =>
    -- the timepoints are made first, so a refused duration leaves them without a token
    let (start, stop) ← addInterval template.duration
    addToken
      { timeline := id, state, start, stop, origin := .planned,
        supports := List.replicate template.conditions.length none, locked := false }

/-- Puts a token into the sequence of its timeline, after the token before the place and before the
token that stands there. -/
def insert (id : TokenId) (position : Nat) : Edit Unit := do
  let t ← token id
  let host ← timeline t.timeline
  if ← query fun s => s.chronicle.isInsertable t.timeline position then
    -- looked up only where the position is open
    let previous ← (Chronicle.before? host.sequence position).mapM token
    let next ← host.sequence[position]?.mapM token
    if let some p := previous then post (.precedes p.stop t.start)
    if let some n := next then post (.precedes t.stop n.start)
    perform (.inserted t.timeline position) (·.insertToken t.timeline position id)
  else forbid (.closedPosition position host.name)

/-- Joins a token to its predecessor: one ends when the other starts, and nothing comes between. -/
def join (before after : TokenId) : Edit Unit := do
  let predecessor ← query fun s => s.chronicle.predecessor? after
  if predecessor ≠ some before then forbid .notAdjacent
  else
    let b ← token before
    let a ← token after
    post (.exactly b.stop a.start 0)
    if !a.locked then perform (.locked after) (·.setLocked after true)

/-! ### Supports -/

/-- Records what supports a condition. -/
def support (id : TokenId) (condition : Nat) (supporter : Support) : Edit Unit :=
  onChronicle fun c => (TrackedChronicle.support c id condition supporter).map fun c => (c, ())

/-- Records that a token supports a condition of another one. -/
def link (consumer : TokenId) (condition : Nat) (supplier : TokenId) : Edit Unit :=
  onChronicle fun c => (TrackedChronicle.link c consumer condition supplier).map fun c => (c, ())

/-- Records the token that serves a goal. -/
def supportGoal (goal : Nat) (id : TokenId) : Edit Unit :=
  onChronicle fun c => (TrackedChronicle.supportGoal c goal id).map fun c => (c, ())

/-- Closes the end of a timeline. -/
def sealTail (id : TimelineId) : Edit Unit :=
  onChronicle fun c => (TrackedChronicle.sealTail c id).map fun c => (c, ())

/-! ### Resources -/

/-- Adds a resource. -/
def addResource (r : Resource) : Edit ResourceId :=
  onBook fun b => .ok (TrackedBook.addResource b r)

/-- Reserves units of a resource for the time between two timepoints. -/
def reserve (resource : ResourceId) (token : TokenId) (start stop : Timepoint) (amount : Nat) :
    Edit ReservationId :=
  onBook fun b => .ok (TrackedBook.reserve b resource token start stop amount)

/-- Confirms a reservation. -/
def commit (id : ReservationId) : Edit Unit :=
  onBook fun b => (TrackedBook.commit b id).map fun b => (b, ())

/-- Withdraws a reservation. -/
def withdraw (id : ReservationId) : Edit Unit :=
  onBook fun b => (TrackedBook.withdraw b id).map fun b => (b, ())

/-- Gets stuck if some resource is overloaded in any case. -/
def checkCapacity : Edit Unit := check fun s => s.reservations.checkCapacity s.network

end Edit

end TemporalPlanning
