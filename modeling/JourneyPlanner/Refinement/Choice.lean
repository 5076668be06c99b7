import JourneyPlanner.Refinement.Tail
import JourneyPlanner.Search.Route

/-!
# Choice of transfers

Where the transfers of an itinerary are best made.

An itinerary is rebuilt from its last ride to its first one. For every connection to a ride only
the best tail after it is kept: the one whose transfers have the best priority, then the least cost
with waits if they count, then the least generalized cost.

* `RefinementScene.best?`: the best of some candidates, the first one among equals.
* `RefinementScene.refine`: an itinerary with its transfers chosen.
* `RefinementScene.refineAll`: several itineraries, those that read the same only once.
* `Network.search`: the search of a request, with its transfers chosen.
-/

namespace JourneyPlanner

/-- What the choice of transfers depends on. -/
structure RefinementScene where
  connections : ConnectionScene
  tariff : Tariff
  slacks : Slacks
  options : RefinementOptions

/-- The elements whose cost is least, in their order. -/
def keepLeast {α : Type} (cost : α → Cost) (xs : List α) : List α :=
  match (xs.map cost).min? with
  | some least => xs.filter fun x => cost x == least
  | none => xs

/-- The elements whose text is not that of an earlier one. -/
def distinctBy {α : Type} (known : List String) : List (α × String) → List α
  | [] => []
  | (x, text) :: rest =>
    if known.contains text then distinctBy known rest else x :: distinctBy (text :: known) rest

namespace RefinementScene

def ofRequest (net : Network) (request : Request) : Checked RefinementScene := do
  return {
    connections := .ofRequest net request
    tariff := ← Tariff.ofOptions request.costs
    slacks := request.slacks
    options := request.refinement }

/-- The candidates with the best score, in their order. -/
def keepBest {α : Type} (c : RefinementScene) (score : α → TransferScore) (xs : List α) :
    List α :=
  let byPriority := keepLeast (fun x => (score x).priority) xs
  let byWaiting :=
    if c.options.weighWaits then keepLeast (fun x => (score x).waiting) byPriority
    else byPriority
  keepLeast (fun x => (score x).generalized) byWaiting

/-- The first of the candidates with the best score. -/
def best? {α : Type} (c : RefinementScene) (score : α → TransferScore) (xs : List α) :
    Option α :=
  (c.keepBest score xs).head?

/-- The weights of waits for an itinerary with that many rides, if waits count. -/
def penalty (c : RefinementScene) (rides : Nat) : Option WaitPenalty :=
  if c.options.weighWaits then
    some ((WaitPenalty.ofOptions c.options).withSafeTime (safeTransferTime rides c.options))
  else none

/-- The tails after one more ride: for each connection from it, the best tail that can follow. -/
def extend (pricing : Pricing) (c : RefinementScene) (tails : List Tail)
    (step : Ride × List Connection) : Checked (List Tail) := do
  let (ride, connections) := step
  let found ← connections.mapM fun connection =>
    match c.best? Tail.score (tails.filter (·.canBoardAt connection.target.position)) with
    | some tail => some <$> tail.prepend pricing ride connection
    | none => pure none
  return found.filterMap id

/-- An itinerary with its transfers chosen. It is kept as it is when its transfers are not to be
moved or when no choice is left. -/
def refine (c : RefinementScene) (it : Itinerary) : Checked ScoredItinerary := do
  let rides := it.rides
  let penalty := c.penalty rides.length
  let pricing : Pricing := ⟨c.tariff, c.slacks, penalty⟩
  let unchanged := ScoredItinerary.new penalty it
  if !c.options.moveTransfers || rides.length < 2 then unchanged
  else
    let alternatives ← c.connections.alternatives rides
    if alternatives.any List.isEmpty then unchanged
    else
      match ← Tail.ofItinerary? pricing it with
      | none => unchanged
      | some tail =>
        let tails ← (rides.zip alternatives).reverse.foldlM (extend pricing c) [tail]
        let completed ← tails.mapM (Tail.complete pricing it)
        match c.best? ScoredItinerary.score completed with
        | some best => return best
        | none => unchanged

/-- Several itineraries with their transfers chosen, without those that read as an earlier one. -/
def refineAll (c : RefinementScene) (deadline : Deadline) (its : List Itinerary) :
    Checked (List ScoredItinerary) := do
  let refined ← its.zipIdx.mapM fun (it, place) => do
    deadline.check (.itinerary place)
    c.refine it
  let labelled ← refined.mapM fun scored => do return (scored, ← scored.itinerary.toText)
  return distinctBy [] labelled

end RefinementScene

/-- The itineraries of a search after the choice of transfers, and what it took to find them. -/
structure SearchResult where
  itineraries : List ScoredItinerary
  summary : BoundSummary
  iterations : Nat
  rounds : Nat

/-- The best itineraries of a request, with their transfers chosen. One time budget is for both. -/
def Network.searchWithin (net : Network) (request : Request) (deadline : Deadline) :
    Checked SearchResult := do
  let found ← net.routeWithin request deadline
  let scene ← RefinementScene.ofRequest net request
  let refined ← scene.refineAll deadline found.itineraries
  return ⟨refined, found.summary, found.iterations, found.rounds⟩

/-- The best itineraries of a request, with their transfers chosen and without a time budget. -/
def Network.search (net : Network) (request : Request) : Checked SearchResult :=
  net.searchWithin request .unlimited

end JourneyPlanner
