import JourneyPlanner.Itinerary.Json
import JourneyPlanner.Json.Reading
import JourneyPlanner.Network.Draft
import JourneyPlanner.Planner
import JourneyPlanner.Refinement.Json
import JourneyPlanner.Settings.Environment
import JourneyPlanner.Settings.File
import JourneyPlanner.Settings.Options
import JourneyPlanner.Tariff.Json
import JourneyPlanner.Transfer.Json
import JourneyPlanner.Proofs.Budget
import JourneyPlanner.Proofs.Checked
import JourneyPlanner.Proofs.Direction
import JourneyPlanner.Proofs.Front
import JourneyPlanner.Proofs.Itinerary.Building
import JourneyPlanner.Proofs.Network.Built
import JourneyPlanner.Proofs.Refinement.Feasibility
import JourneyPlanner.Proofs.Route.Agreement
import JourneyPlanner.Proofs.Route.Answers
import JourneyPlanner.Proofs.Route.Changes
import JourneyPlanner.Proofs.Route.Completeness
import JourneyPlanner.Proofs.Route.Divisions
import JourneyPlanner.Proofs.Route.Pruning
import JourneyPlanner.Proofs.Route.RuledChanges
import JourneyPlanner.Proofs.Route.TransferLimit
import JourneyPlanner.Proofs.Transfer.Facilitated
import JourneyPlanner.Proofs.Route.Facilitated
import JourneyPlanner.Proofs.Concur
import JourneyPlanner.Proofs.Network.Reversal
import JourneyPlanner.Proofs.Route.Reversal
import JourneyPlanner.Proofs.Route.Optimality
import JourneyPlanner.Proofs.Transfer.MostSpecific
import JourneyPlanner.Proofs.Network.Declared
import JourneyPlanner.Proofs.Route.Requested
import JourneyPlanner.Proofs.Route.Coherence
import JourneyPlanner.Proofs.Route.LegOrder
import JourneyPlanner.Proofs.Route.Faults
import JourneyPlanner.Proofs.Search.RoundCount
import JourneyPlanner.Proofs.Transfer.Choices
import JourneyPlanner.Proofs.Transfer.Scan
import JourneyPlanner.Proofs.Route.Constraints
import JourneyPlanner.Proofs.Refinement.Scores
import JourneyPlanner.Proofs.Refinement.Optimum
import JourneyPlanner.Proofs.Refinement.Alternatives
import JourneyPlanner.Proofs.Refinement.Rebuilding
import JourneyPlanner.Proofs.Route.Refined
import JourneyPlanner.Proofs.Refinement.Duplicates
import JourneyPlanner.Proofs.Front.FirstMinimal
import JourneyPlanner.Proofs.Search.OnBoard
import JourneyPlanner.Proofs.Route.Sections
import JourneyPlanner.Proofs.Network.BestTrip
import JourneyPlanner.Proofs.Text.Fields
import JourneyPlanner.Proofs.Clock.Reading
import JourneyPlanner.Proofs.Clock.RoundTrip
import JourneyPlanner.Proofs.Network.FastestRides
import JourneyPlanner.Proofs.Search.Scratch
