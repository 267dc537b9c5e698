import TemporalPlanning.Chronicle.Reachability
import TemporalPlanning.Fault
import TemporalPlanning.Trail

/-!
# Chronicles

A `Chronicle` holds the timelines of a partial plan with their tokens in sequence, what supports the
conditions of each token, and which tokens serve the goals. The facts of a timeline stand at its
front. A token may be *locked* to the one before it, so that nothing comes in between, and a
timeline may be *sealed*, so that nothing comes after its last token.

`isInsertable` says where a sequence takes another token, and `admitsState` where it takes one of a
given state.
-/

namespace TemporalPlanning

inductive TokenOrigin where
  /-- Given by the problem. -/
  | fact
  /-- Put there by the search. -/
  | planned
  deriving DecidableEq, Repr

/-- What supports a condition of a token. -/
inductive Support where
  | reservation (resource : ResourceId) (id : ReservationId)
  | token (supplier : TokenId)
  deriving DecidableEq, Repr

/-- An occurrence of a state on a timeline. -/
structure Token where
  timeline : TimelineId
  state : String
  start : Timepoint
  stop : Timepoint
  origin : TokenOrigin
  /-- What supports each condition of the state; facts have no conditions. -/
  supports : List (Option Support)
  /-- Whether nothing can come between this token and the one before it. -/
  locked : Bool
  deriving DecidableEq, Repr

/-- A timeline of a partial plan. -/
structure Timeline where
  name : String
  className : Option String
  states : List StateTemplate
  /-- Whether the search created it. -/
  synthesized : Bool
  /-- The tokens in order. -/
  sequence : List TokenId := []
  /-- How many of them are facts. -/
  facts : Nat := 0
  /-- Whether nothing can come after the last token. -/
  sealed : Bool := false
  deriving DecidableEq, Repr

/-- A condition that a token supports. -/
structure CausalLink where
  consumer : TokenId
  condition : Nat
  supplier : TokenId
  deriving DecidableEq, Repr

/-- Timelines, tokens and supports, each in order of creation. -/
structure Chronicle where
  timelines : Array Timeline
  tokens : Array Token
  links : Array CausalLink
  /-- The token that serves each goal. -/
  goalSupports : Array (Option TokenId)

/-- A change of a chronicle, with what it takes to revert it. -/
inductive ChronicleChange where
  | newTimeline
  | newToken
  | newFact (timeline : TimelineId)
  | inserted (timeline : TimelineId) (position : Nat)
  | locked (token : TokenId)
  | supported (token : TokenId) (condition : Nat)
  | linked
  | goalSupported (goal : Nat)
  | sealed (timeline : TimelineId)

/-- The first condition of a token without support. -/
def Token.firstOpen? (t : Token) : Option Nat := t.supports.findIdx? Option.isNone

namespace Timeline

/-- The template of a state. -/
def template? (t : Timeline) (state : String) : Option StateTemplate :=
  t.states.find? fun s => s.name == state

/-- The last token. -/
def tail? (t : Timeline) : Option TokenId := t.sequence.getLast?

end Timeline

namespace Chronicle

/-- The chronicle without timelines, for a number of goals. -/
def empty (goals : Nat) : Chronicle := ⟨#[], #[], #[], Array.replicate goals none⟩

variable (c : Chronicle)

/-! ### Look-up -/

/-- A timeline by its handle. -/
def timeline (id : TimelineId) : Except Fault Timeline := Fault.require c.timelines[id.index]?

/-- A token by its handle. -/
def token (id : TokenId) : Except Fault Token := Fault.require c.tokens[id.index]?

/-- All timelines with their handles. -/
def timelineEntries : List (TimelineId × Timeline) :=
  c.timelines.toList.mapIdx fun i t => (⟨i⟩, t)

/-- All tokens with their handles. -/
def tokenEntries : List (TokenId × Token) :=
  c.tokens.toList.mapIdx fun i t => (⟨i⟩, t)

/-- The first timeline of a name. -/
def find? (name : String) : Option TimelineId :=
  (c.timelines.toList.findIdx? fun t => t.name == name).map TimelineId.mk

/-- The timelines of a class, in order of creation. -/
def ofClass (className : String) : List TimelineId :=
  (c.timelineEntries.filter fun e => e.2.className == some className).map (·.1)

/-- The number of timelines of a class that the search created. -/
def synthesizedCount (className : String) : Nat :=
  (c.timelines.toList.filter fun t => t.synthesized && t.className == some className).length

/-- The tokens of a state on a timeline, in order of creation. -/
def tokensWithState (timeline : TimelineId) (state : String) : List TokenId :=
  (c.tokenEntries.filter fun e => e.2.timeline == timeline && e.2.state == state).map (·.1)

/-- The token that serves a goal. -/
def goalSupport? (goal : Nat) : Except Fault (Option TokenId) :=
  Fault.require c.goalSupports[goal]?

/-- The template of the state of a token. -/
def template? (id : TokenId) : Except Fault (Option StateTemplate) := do
  let t ← c.token id
  return (← c.timeline t.timeline).template? t.state

/-! ### Sequences -/

/-- The place of a token in the sequence of its timeline. -/
def position? (id : TokenId) : Except Fault (Option Nat) := do
  let t ← c.token id
  return (← c.timeline t.timeline).sequence.findIdx? (· == id)

/-- The token before a place of a sequence. -/
def before? (sequence : List TokenId) : (position : Nat) → Option TokenId
  | 0 => none
  | p + 1 => sequence[p]?

/-- The token right before a token. -/
def predecessor? (id : TokenId) : Except Fault (Option TokenId) := do
  let t ← c.token id
  let sequence := (← c.timeline t.timeline).sequence
  return (sequence.findIdx? (· == id)).bind (before? sequence)

/-- Whether a timeline takes a token at a place: behind its facts, not before a locked token, and
not behind its last token if it is sealed. -/
def isInsertable (id : TimelineId) (position : Nat) : Except Fault Bool := do
  let t ← c.timeline id
  if position < t.facts ∨ t.sequence.length < position then return false
  else match t.sequence[position]? with
    | some next => return !(← c.token next).locked
    | none => return !t.sealed

/-- The places at which a timeline takes a token, the last one first. -/
def insertablePositions (id : TimelineId) : Except Fault (List Nat) := do
  let t ← c.timeline id
  let places := (List.range (t.sequence.length + 1)).reverse.filter fun p => t.facts ≤ p
  Fault.filter (c.isInsertable id) places

/-- The state of the token before a place. -/
def stateBefore? (t : Timeline) (position : Nat) : Except Fault (Option String) :=
  match before? t.sequence position with
  | some id => do return some (← c.token id).state
  | none => return none

/-- Whether a timeline takes a token of a state at a place, such that its chain can be closed. -/
def admitsState (id : TimelineId) (state : String) (position : Nat) : Except Fault Bool := do
  if ← c.isInsertable id position then
    let t ← c.timeline id
    return canFollow t.states state (← c.stateBefore? t position)
  else return false

/-! ### Steps and their reversal -/

/-- Changes a timeline. -/
def updateTimeline (id : TimelineId) (f : Timeline → Timeline) : Chronicle :=
  { c with timelines := c.timelines.modify id.index f }

/-- Changes a token. -/
def updateToken (id : TokenId) (f : Token → Token) : Chronicle :=
  { c with tokens := c.tokens.modify id.index f }

/-- Adds a timeline. -/
def addTimeline (t : Timeline) : Chronicle := { c with timelines := c.timelines.push t }

/-- Adds a token that stands nowhere yet. -/
def addToken (t : Token) : Chronicle := { c with tokens := c.tokens.push t }

/-- Puts a token behind all others of a timeline, as one more fact. -/
def appendFact (timeline : TimelineId) (id : TokenId) : Chronicle :=
  c.updateTimeline timeline fun t => { t with sequence := t.sequence ++ [id], facts := t.facts + 1 }

/-- Puts a token at a place of a timeline. -/
def insertToken (timeline : TimelineId) (position : Nat) (id : TokenId) : Chronicle :=
  c.updateTimeline timeline fun t => { t with sequence := t.sequence.insertIdx position id }

/-- Puts a support in the place of a condition. -/
def setSupport (id : TokenId) (condition : Nat) (support : Option Support) : Chronicle :=
  c.updateToken id fun t => { t with supports := t.supports.set condition support }

/-- Adds a causal link. -/
def addLink (l : CausalLink) : Chronicle := { c with links := c.links.push l }

/-- Puts a token in the place of a goal. -/
def setGoalSupport (goal : Nat) (id : Option TokenId) : Chronicle :=
  { c with goalSupports := c.goalSupports.setIfInBounds goal id }

/-- Locks or unlocks a token. -/
def setLocked (id : TokenId) (locked : Bool) : Chronicle := c.updateToken id ({ · with locked })

/-- Seals or opens a timeline. -/
def setSealed (id : TimelineId) (sealed : Bool) : Chronicle :=
  c.updateTimeline id ({ · with sealed })

/-- Takes back a change. -/
def revert : ChronicleChange → Chronicle → Chronicle
  | .newTimeline, c => { c with timelines := c.timelines.pop }
  | .newToken, c => { c with tokens := c.tokens.pop }
  -- the token itself goes with the `newToken` recorded before it
  | .newFact timeline, c =>
    c.updateTimeline timeline fun t =>
      { t with sequence := t.sequence.dropLast, facts := t.facts - 1 }
  | .inserted timeline position, c =>
    c.updateTimeline timeline fun t => { t with sequence := t.sequence.eraseIdx position }
  | .locked id, c => c.setLocked id false
  -- a slot is only ever filled from empty, so the trail needs no former value
  | .supported id condition, c => c.setSupport id condition none
  | .linked, c => { c with links := c.links.pop }
  | .goalSupported goal, c => c.setGoalSupport goal none
  | .sealed timeline, c => c.setSealed timeline false

end Chronicle

instance : Revertible Chronicle ChronicleChange := ⟨Chronicle.revert⟩

/-- A chronicle with the trail of its changes. -/
abbrev TrackedChronicle := Trailed Chronicle ChronicleChange

namespace TrackedChronicle

/-- Adds a timeline without tokens. -/
def addTimeline (t : TrackedChronicle) (name : String) (className : Option String)
    (states : List StateTemplate) (synthesized : Bool) : TrackedChronicle × TimelineId :=
  (t.perform .newTimeline fun c => c.addTimeline { name, className, states, synthesized },
    ⟨t.value.timelines.size⟩)

/-- Adds a token that stands nowhere yet. -/
def addToken (t : TrackedChronicle) (token : Token) : TrackedChronicle × TokenId :=
  (t.perform .newToken (·.addToken token), ⟨t.value.tokens.size⟩)

/-- Records what supports a condition. -/
def support (t : TrackedChronicle) (id : TokenId) (condition : Nat) (support : Support) :
    Except Fault TrackedChronicle := do
  let token ← t.value.token id
  match token.supports[condition]? with
  | none => .error .outOfRange
  | some (some _) => .error (.conditionSupported condition id)
  | some none =>
    .ok (t.perform (.supported id condition) (·.setSupport id condition (some support)))

/-- Records that a token supports a condition of another one. -/
def link (t : TrackedChronicle) (consumer : TokenId) (condition : Nat) (supplier : TokenId) :
    Except Fault TrackedChronicle := do
  let supported ← support t consumer condition (.token supplier)
  return supported.perform .linked (·.addLink ⟨consumer, condition, supplier⟩)

/-- Records the token that serves a goal. -/
def supportGoal (t : TrackedChronicle) (goal : Nat) (id : TokenId) :
    Except Fault TrackedChronicle :=
  match t.value.goalSupports[goal]? with
  | none => .error .outOfRange
  | some (some _) => .error (.goalSupported goal)
  | some none => .ok (t.perform (.goalSupported goal) (·.setGoalSupport goal (some id)))

/-- Closes the end of a timeline; doing so twice changes nothing. -/
def sealTail (t : TrackedChronicle) (id : TimelineId) : Except Fault TrackedChronicle := do
  let timeline ← t.value.timeline id
  return if timeline.sealed then t else t.perform (.sealed id) (·.setSealed id true)

end TrackedChronicle

end TemporalPlanning
