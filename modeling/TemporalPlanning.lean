import TemporalPlanning.Decimal.Fixed
import TemporalPlanning.Model.Wire
import TemporalPlanning.Plan.Metrics
import TemporalPlanning.Plan.Wire
import TemporalPlanning.Search.Run
import TemporalPlanning.Proofs.Network.Session
import TemporalPlanning.Proofs.Network.Schedule
import TemporalPlanning.Proofs.Model.Load
import TemporalPlanning.Proofs.Placing
import TemporalPlanning.Proofs.Reservation.Book
import TemporalPlanning.Proofs.Search.Decisions
import TemporalPlanning.Proofs.Search.Run
import TemporalPlanning.Proofs.Search.Start
import TemporalPlanning.Proofs.Search.Supported
import TemporalPlanning.Proofs.Chronicle.Reachability
import TemporalPlanning.Proofs.Plan.Solution
import TemporalPlanning.Proofs.Reservation.Overload
import TemporalPlanning.Proofs.Search.Verified
import TemporalPlanning.Proofs.Search.Complete
import TemporalPlanning.Proofs.Rollback
import TemporalPlanning.Proofs.Search.Bookkeeping
import TemporalPlanning.Proofs.Search.CutShort
import TemporalPlanning.Proofs.Chronicle.Facts
import TemporalPlanning.Proofs.Reservation.Dated
import TemporalPlanning.Proofs.Search.Agenda
import TemporalPlanning.Proofs.Search.Entailment
import TemporalPlanning.Proofs.Search.Faultless
import TemporalPlanning.Proofs.Search.Permanence
import TemporalPlanning.Proofs.Network.Saturation
import TemporalPlanning.Proofs.Search.Budget
import TemporalPlanning.Proofs.Chronicle.Unfolding
import TemporalPlanning.Proofs.Search.Goals
import TemporalPlanning.Proofs.Search.GoalOrder
import TemporalPlanning.Proofs.Search.FinalGoals
import TemporalPlanning.Proofs.Search.FactsFirst
import TemporalPlanning.Proofs.Search.Objects
import TemporalPlanning.Proofs.Search.Synthesis
import TemporalPlanning.Proofs.Network.Timing
import TemporalPlanning.Proofs.Json.Lexeme
import TemporalPlanning.Proofs.Json.Text
import TemporalPlanning.Proofs.Json.Decode
import TemporalPlanning.Proofs.Wire
import TemporalPlanning.Proofs.Network.Walks
import TemporalPlanning.Proofs.Reservation.Sharing
import TemporalPlanning.Proofs.Search.Conflicts
import TemporalPlanning.Proofs.Reservation.Possible
import TemporalPlanning.Proofs.Search.Lookahead
import TemporalPlanning.Proofs.Chronicle.Chains
import TemporalPlanning.Proofs.Model.Loadable
import TemporalPlanning.Proofs.Plan.Utilization
