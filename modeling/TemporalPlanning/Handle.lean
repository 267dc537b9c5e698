/-!
# Handles

The objects of a partial plan are numbered in the order of their creation. A handle is such a
number together with the kind of object it counts, so that a token cannot be taken for a timeline.
-/

namespace TemporalPlanning

/-- A point in time whose date the plan has yet to fix. -/
structure Timepoint where
  index : Nat
  deriving DecidableEq, Repr

/-- A token: one occurrence of a state on a timeline. -/
structure TokenId where
  index : Nat
  deriving DecidableEq, Repr

/-- A timeline of the partial plan. -/
structure TimelineId where
  index : Nat
  deriving DecidableEq, Repr

/-- A resource. -/
structure ResourceId where
  index : Nat
  deriving DecidableEq, Repr

/-- A reservation of a resource. -/
structure ReservationId where
  index : Nat
  deriving DecidableEq, Repr

/-- The point at which every plan begins. -/
def Timepoint.origin : Timepoint := ⟨0⟩

/-! ### How handles are written in messages -/

def Timepoint.label (t : Timepoint) : String := s!"Timepoint({t.index})"

def TokenId.label (t : TokenId) : String := s!"TokenId({t.index})"

def TimelineId.label (t : TimelineId) : String := s!"TimelineId({t.index})"

def ResourceId.label (r : ResourceId) : String := s!"ResourceId({r.index})"

def ReservationId.label (r : ReservationId) : String := s!"ReservationId({r.index})"

/-- An upper bound as messages write it. -/
def boundLabel : Option Int → String
  | none => "None"
  | some hi => s!"Some({hi})"

end TemporalPlanning
