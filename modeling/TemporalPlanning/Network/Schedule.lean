import TemporalPlanning.Network.Basic

/-!
# Schedules of a network

A schedule gives each timepoint a date. `earliestSchedule` takes every timepoint as early as
possible; `midpointSchedule` goes through the timepoints in order of creation, fixes each one in the
middle of the dates that remain for it and lets the network draw the consequences for the others.
-/

namespace TemporalPlanning

namespace Network

/-- Every timepoint at its earliest date. -/
def earliestSchedule (net : Network) : List Int := net.timepoints.map net.earliest

/-- The middle of the dates that are open to a timepoint, rounded toward the earliest one; the
earliest date if there is no latest. -/
def middle (net : Network) (t : Timepoint) : Int :=
  let lo := net.earliest t
  match net.latest t with
  | some hi => lo + (hi - lo).tdiv 2
  | none => lo

/-- Fixes the given timepoints one by one to the middle of their dates. -/
def fixMidpoints (t : TrackedNetwork) : List Timepoint → List Int
  | [] => []
  | u :: rest =>
    let value := t.value.middle u
    value :: fixMidpoints (t.postIfAdmitted (.exactly .origin u value)) rest

/-- Every timepoint in the middle of the dates that the ones before it leave open. -/
def midpointSchedule (net : Network) : List Int :=
  fixMidpoints (Trailed.fresh net) net.timepoints

end Network

end TemporalPlanning
