import JourneyPlanner.Json.Basic
import JourneyPlanner.Request

/-!
# Refinement options in JSON

* `RefinementOptions.toJson`: the options as an object.
-/

namespace JourneyPlanner.RefinementOptions

def toJson (options : RefinementOptions) : Json := .object [
  ("optimize_transfers", .bool options.moveTransfers),
  ("optimize_transfer_wait_time", .bool options.weighWaits),
  ("min_safe_wait_time_factor", .float options.safeFactor),
  ("back_travel_wait_time_factor", .float options.backFactor),
  ("min_safe_transfer_time_per_leg", .int options.perRide),
  ("min_safe_transfer_time_lower_bound", .int options.lower),
  ("min_safe_transfer_time_upper_bound", .int options.upper)]

end JourneyPlanner.RefinementOptions
